import CoverRun.Toml.Scalar
import CoverRun.Toml.Text

/-!
# TOML documents

A document is read line by line: assignments, and headers that open the table for the assignments
below them. Values in brackets and braces may span lines and nest up to `nestingLimit`.
-/

namespace CoverRun.Toml

/-- How many brackets and braces may enclose a value, and how many names a dotted key may have. -/
def nestingLimit : Nat := 80

/-! ## Blanks and comments -/

/-- Whether a character is a blank within a line. -/
def isLineBlank (c : Char) : Bool := c == ' ' || c == '\t'

/-- What follows the blanks at the start. -/
def skipBlanks (cs : List Char) : List Char := cs.dropWhile isLineBlank

/-- What follows the first line feed after a comment; the comment must be plain. -/
def afterComment? : List Char → Option (List Char)
  | [] => some []
  | '\n' :: cs => some cs
  | '\r' :: '\n' :: cs => some cs
  | c :: cs => if isPlain c then afterComment? cs else none

/-- What follows the end of a line, which blanks and a comment may precede. The end of the text is
the end of a line. -/
def afterLine? (cs : List Char) : Option (List Char) :=
  match skipBlanks cs with
  | [] => some []
  | '\n' :: cs => some cs
  | '\r' :: '\n' :: cs => some cs
  | '#' :: cs => afterComment? cs
  | _ => none

/-- What follows blanks, line ends and comments between the parts of a value. -/
def skipSpace? : Nat → List Char → Option (List Char)
  | 0, _ => none
  | fuel + 1, cs =>
    match skipBlanks cs with
    | '\n' :: cs => skipSpace? fuel cs
    | '\r' :: '\n' :: cs => skipSpace? fuel cs
    | '#' :: cs => (afterComment? cs).bind (skipSpace? fuel)
    | cs => some cs

/-! ## Keys -/

/-- Whether a character may stand in a name without quotes. -/
def isBare (c : Char) : Bool :=
  ('a' ≤ c && c ≤ 'z') || ('A' ≤ c && c ≤ 'Z') || isDigit c || c == '_' || c == '-'

/-- Reads a name, in quotes or without. -/
def name? (cs : List Char) : Option (String × List Char) :=
  match cs with
  | '"' :: _ => (lineText? cs).map fun r => (String.ofList r.1, r.2)
  | '\'' :: _ => (lineText? cs).map fun r => (String.ofList r.1, r.2)
  | _ =>
    let bare := cs.takeWhile isBare
    if bare = [] then none else some (String.ofList bare, cs.dropWhile isBare)

/-- Reads a dotted key of at most so many names, with blanks around each name. -/
def key? : Nat → List Char → Option (Key × List Char)
  | 0, _ => none
  | limit + 1, cs =>
    match name? (skipBlanks cs) with
    | none => none
    | some (name, cs) =>
      match skipBlanks cs with
      | '.' :: cs => (key? limit cs).map fun r => (name :: r.1, r.2)
      | cs => some ([name], cs)

/-! ## Values -/

mutual

/-- Reads a value inside which so many brackets and braces may nest. -/
def value? (depth : Nat) : Nat → List Char → Option (Value × List Char)
  | 0, _ => none
  | fuel + 1, cs =>
    match cs with
    | '"' :: _ => (quoted? cs).map fun r => (.text (String.ofList r.1), r.2)
    | '\'' :: _ => (quoted? cs).map fun r => (.text (String.ofList r.1), r.2)
    | '[' :: cs =>
      match depth with
      | 0 => none
      | depth + 1 => (items? depth fuel cs).map fun r => (.array r.1, r.2)
    | '{' :: cs =>
      match depth with
      | 0 => none
      | depth + 1 => do
        let (assignments, cs) ← assignments? depth fuel cs
        let members ← Members.assignAll assignments []
        return (.table .braced members, cs)
    | _ => scalar? cs

/-- Reads the items of an array up to its closing bracket. -/
def items? (depth : Nat) : Nat → List Char → Option (List Value × List Char)
  | 0, _ => none
  | fuel + 1, cs => do
    match ← skipSpace? fuel cs with
    | ']' :: cs => return ([], cs)
    | cs =>
      let (item, cs) ← value? depth fuel cs
      match ← skipSpace? fuel cs with
      | ',' :: cs =>
        let (items, cs) ← items? depth fuel cs
        return (item :: items, cs)
      | ']' :: cs => return ([item], cs)
      | _ => none

/-- Reads the assignments in a table up to its closing brace. -/
def assignments? (depth : Nat) : Nat → List Char → Option (List (Key × Value) × List Char)
  | 0, _ => none
  | fuel + 1, cs => do
    match ← skipSpace? fuel cs with
    | '}' :: cs => return ([], cs)
    | cs =>
      let (key, cs) ← key? nestingLimit cs
      match ← skipSpace? fuel cs with
      | '=' :: cs =>
        let cs ← skipSpace? fuel cs
        let (v, cs) ← value? depth fuel cs
        match ← skipSpace? fuel cs with
        | ',' :: cs =>
          let (assignments, cs) ← assignments? depth fuel cs
          return ((key, v) :: assignments, cs)
        | '}' :: cs => return ([(key, v)], cs)
        | _ => none
      | _ => none

end

/-! ## Lines -/

/-- What a line says. -/
inductive Statement where
  | blank
  | assignment (key : Key) (v : Value)
  | table (key : Key)
  | row (key : Key)

/-- Reads a line, and what follows it. -/
def statement? (fuel : Nat) (cs : List Char) : Option (Statement × List Char) :=
  match skipBlanks cs with
  | '[' :: '[' :: cs => do
    let (key, cs) ← key? nestingLimit cs
    match cs with
    | ']' :: ']' :: cs => (afterLine? cs).map fun rest => (.row key, rest)
    | _ => none
  | '[' :: cs => do
    let (key, cs) ← key? nestingLimit cs
    match cs with
    | ']' :: cs => (afterLine? cs).map fun rest => (.table key, rest)
    | _ => none
  | cs =>
    match afterLine? cs with
    | some rest => some (.blank, rest)
    | none => do
      let (key, cs) ← key? nestingLimit cs
      match cs with
      | '=' :: cs =>
        let (v, cs) ← value? nestingLimit fuel (skipBlanks cs)
        (afterLine? cs).map fun rest => (.assignment key v, rest)
      | _ => none

/-- Reads the lines of a text. -/
def statements? : Nat → List Char → Option (List Statement)
  | 0, _ => none
  | _ + 1, [] => some []
  | fuel + 1, c :: cs => do
    let (s, rest) ← statement? (fuel + 1) (c :: cs)
    let ss ← statements? fuel rest
    return s :: ss

/-- What was read of a document: its members and the header that stands last. -/
structure Draft where
  members : Members
  header : Key

/-- Adds what a line says. -/
def Draft.add? (d : Draft) : Statement → Option Draft
  | .blank => some d
  | .assignment key v => (Members.assignBelow d.header key v d.members).map fun ms => ⟨ms, d.header⟩
  | .table key => (Members.openTable key d.members).map fun ms => ⟨ms, key⟩
  | .row key => (Members.openRow key d.members).map fun ms => ⟨ms, key⟩

/-- A text without the mark of byte order that may come first. -/
def dropMark : List Char → List Char
  | '\uFEFF' :: cs => cs
  | cs => cs

/-- Reads a document. Each step takes up at least half a character of the text, so twice its
length bounds them. -/
def document? (text : String) : Option Members := do
  let cs := dropMark text.toList
  let statements ← statements? (2 * cs.length + 2) cs
  let draft ← statements.foldlM Draft.add? ⟨[], []⟩
  return draft.members

end CoverRun.Toml

import CoverRun.Json.Node

/-!
# Texts in TOML

A text stands in double quotes, where a backslash begins an escape, or in single quotes, where
nothing does; in three quotes of either kind it may have several lines. Reading cuts off the body
first and then carries out its escapes.
-/

namespace CoverRun.Toml

/-- Whether a character may stand in a text or a comment as it is. -/
def isPlain (c : Char) : Bool := c == '\t' || (0x20 ≤ c.toNat && c.toNat != 0x7F)

/-! ## Bodies -/

/-- The body of a text on one line up to its closing quote, and what follows. With `escapes` the
character after a backslash, when `escaped`, does not close it. -/
def lineBody (quote : Char) (escapes escaped : Bool) :
    List Char → Option (List Char × List Char)
  | [] => none
  | c :: cs =>
    if c = quote ∧ escaped = false then some ([], cs)
    else if isPlain c then
      (lineBody quote escapes (escapes && c == '\\' && !escaped) cs).map fun r => (c :: r.1, r.2)
    else none

/-- The body of a text of several lines up to its three closing quotes, before which one or two
more belong to the text, and what follows. A carriage return stands before a line feed only. -/
def blockBody (quote : Char) (escapes escaped : Bool) :
    List Char → Option (List Char × List Char)
  | [] => none
  | c :: cs =>
    if c = quote ∧ escaped = false then
      match cs with
      | d :: e :: rest =>
        if d = quote ∧ e = quote then
          match rest with
          | f :: g :: rest' =>
            if f = quote ∧ g = quote then some ([quote, quote], rest')
            else if f = quote then some ([quote], g :: rest')
            else some ([], rest)
          | [f] => if f = quote then some ([quote], []) else some ([], rest)
          | [] => some ([], [])
        else (blockBody quote escapes false cs).map fun r => (c :: r.1, r.2)
      | _ => none
    else if isPlain c || c == '\n' || (c == '\r' && cs.head? == some '\n') then
      (blockBody quote escapes (escapes && c == '\\' && !escaped) cs).map fun r => (c :: r.1, r.2)
    else none

/-- The body of several lines without a line break that comes first. -/
def dropFirstBreak : List Char → List Char
  | '\n' :: cs => cs
  | '\r' :: '\n' :: cs => cs
  | cs => cs

/-! ## Escapes -/

/-- The number of hexadecimal digits. -/
def hexNumber? (digits : List Char) : Option Nat :=
  digits.foldlM (fun n c => (Json.hexValue? c).map (n * 16 + ·)) 0

/-- The character with a number, if there is one. -/
def charOf? (n : Nat) : Option Char := if n.isValidChar then some (Char.ofNat n) else none

/-- What an escape of one letter stands for. -/
def letterEscape? : Char → Option Char
  | 'b' => some '\x08'
  | 't' => some '\t'
  | 'n' => some '\n'
  | 'f' => some '\x0c'
  | 'r' => some '\r'
  | 'e' => some '\x1b'
  | '"' => some '"'
  | '\\' => some '\\'
  | _ => none

/-- Where reading stands at a line that a backslash joins to the next. -/
inductive Joint where
  | away
  | before
  | behind
deriving DecidableEq, Repr

/-- Carries out the escapes of a body. After a joint, blanks and line breaks are dropped; before
one there must be a line break. -/
def unescape (joint : Joint) : List Char → Option (List Char)
  | [] => if joint = .before then none else some []
  | c :: cs =>
    if joint ≠ .away ∧ c = '\n' then unescape .behind cs
    else if joint ≠ .away ∧ (c = ' ' ∨ c = '\t' ∨ c = '\r') then unescape joint cs
    else if joint = .before then none
    else if c ≠ '\\' then (unescape .away cs).map (c :: ·)
    else
      match cs with
      | 'x' :: a :: b :: rest => do
        let d ← (hexNumber? [a, b]).bind charOf?
        let r ← unescape .away rest
        return d :: r
      | 'u' :: a :: b :: c :: d :: rest => do
        let e ← (hexNumber? [a, b, c, d]).bind charOf?
        let r ← unescape .away rest
        return e :: r
      | 'U' :: a :: b :: c :: d :: e :: f :: g :: h :: rest => do
        let i ← (hexNumber? [a, b, c, d, e, f, g, h]).bind charOf?
        let r ← unescape .away rest
        return i :: r
      | '\n' :: rest => unescape .behind rest
      | e :: rest =>
        if e = ' ' ∨ e = '\t' ∨ e = '\r' then unescape .before rest
        else do
          let d ← letterEscape? e
          let r ← unescape .away rest
          return d :: r
      | [] => none

/-! ## Texts -/

/-- A body with its escapes carried out. -/
def unescaped? (r : Option (List Char × List Char)) : Option (List Char × List Char) := do
  let (body, rest) ← r
  let cs ← unescape .away body
  return (cs, rest)

/-- Reads a text of one line in quotes. -/
def lineText? : List Char → Option (List Char × List Char)
  | '"' :: cs => unescaped? (lineBody '"' true false cs)
  | '\'' :: cs => lineBody '\'' false false cs
  | _ => none

/-- Reads a text in quotes of any kind. -/
def quoted? : List Char → Option (List Char × List Char)
  | '"' :: '"' :: '"' :: cs => unescaped? (blockBody '"' true false (dropFirstBreak cs))
  | '\'' :: '\'' :: '\'' :: cs => blockBody '\'' false false (dropFirstBreak cs)
  | cs => lineText? cs

end CoverRun.Toml

import CoverRun.Json.Number
import CoverRun.Text.Utf8

/-!
# Reading JSON

`Node.read` takes strict JSON: what it yields is the text's structure, with numbers as they are
written and strings as units, in which an undecodable byte or an escape for half a surrogate pair
is no character. Whether such numbers and strings are acceptable is for the user of a node to say.
-/

namespace CoverRun.Json

/-- The structure of a JSON text. -/
inductive Node where
  | null
  | bool (b : Bool)
  | number (text : NumberText)
  | string (units : Units)
  | list (items : List Node)
  | record (members : List (Units × Node))
deriving Inhabited

/-! ## Strings -/

/-- A piece of a string: a unit that stands for itself, or an escape with its sixteen bits. -/
inductive StringPiece where
  | plain (u : Option Char)
  | code (n : Nat)
deriving DecidableEq, Repr

/-- The value of a hexadecimal digit. -/
def hexValue? (c : Char) : Option Nat :=
  if '0' ≤ c ∧ c ≤ '9' then some (c.toNat - '0'.toNat)
  else if 'a' ≤ c ∧ c ≤ 'f' then some (c.toNat - 'a'.toNat + 10)
  else if 'A' ≤ c ∧ c ≤ 'F' then some (c.toNat - 'A'.toNat + 10)
  else none

/-- The number of four hexadecimal digits. -/
def hexCode? (a b c d : Char) : Option Nat := do
  let a ← hexValue? a
  let b ← hexValue? b
  let c ← hexValue? c
  let d ← hexValue? d
  return ((a * 16 + b) * 16 + c) * 16 + d

/-- What a one-character escape stands for. -/
def escaped? : Char → Option Char
  | '"' => some '"'
  | '\\' => some '\\'
  | '/' => some '/'
  | 'b' => some '\x08'
  | 'f' => some '\x0c'
  | 'n' => some '\n'
  | 'r' => some '\r'
  | 't' => some '\t'
  | _ => none

/-- The pieces of a string after its opening quote, added to those before, last first, and what
follows the closing quote. -/
def stringPieces (done : List StringPiece) : Units → Option (List StringPiece × Units)
  | some '"' :: rest => some (done.reverse, rest)
  | some '\\' :: some 'u' :: some a :: some b :: some c :: some d :: rest =>
    match hexCode? a b c d with
    | some n => stringPieces (.code n :: done) rest
    | none => none
  | some '\\' :: some e :: rest =>
    match escaped? e with
    | some c => stringPieces (.plain (some c) :: done) rest
    | none => none
  | some '\\' :: _ => none
  | some c :: rest =>
    if c.toNat < 0x20 then none else stringPieces (.plain (some c) :: done) rest
  | none :: rest => stringPieces (.plain none :: done) rest
  | [] => none

/-- Whether sixteen bits are the first half of a surrogate pair. -/
def isLead (n : Nat) : Bool := 0xD800 ≤ n && n < 0xDC00

/-- Whether sixteen bits are the second half of a surrogate pair. -/
def isTrail (n : Nat) : Bool := 0xDC00 ≤ n && n < 0xE000

/-- The units of pieces: two halves of a pair make one character, and one half makes none. -/
def combine : List StringPiece → Units
  | .code n :: .code m :: rest =>
    if isLead n && isTrail m then
      some (Char.ofNat (0x10000 + (n - 0xD800) * 0x400 + (m - 0xDC00))) :: combine rest
    else (if isLead n || isTrail n then none else some (Char.ofNat n)) :: combine (.code m :: rest)
  | .code n :: rest =>
    (if isLead n || isTrail n then none else some (Char.ofNat n)) :: combine rest
  | .plain u :: rest => u :: combine rest
  | [] => []

/-- A string after its opening quote, and what follows it. -/
def string? (us : Units) : Option (Units × Units) :=
  (stringPieces [] us).map fun r => (combine r.1, r.2)

/-! ## Numbers -/

/-- Whether a unit is a digit. -/
def isDigitUnit : Option Char → Bool
  | some c => '0' ≤ c && c ≤ '9'
  | none => false

/-- The digits at the start, and what follows them. -/
def takeDigits (us : Units) : List Char × Units :=
  ((us.takeWhile isDigitUnit).filterMap id, us.dropWhile isDigitUnit)

/-- The whole part of a number: no needless zero comes first. -/
def wholePart? (us : Units) : Option (List Char × Units) :=
  match takeDigits us with
  | ([], _) => none
  | ('0' :: _ :: _, _) => none
  | r => some r

/-- The fraction of a number, if there is a point. -/
def fractionPart? : Units → Option (Option (List Char) × Units)
  | some '.' :: us =>
    match takeDigits us with
    | ([], _) => none
    | (digits, rest) => some (some digits, rest)
  | us => some (none, us)

/-- The sign and the digits of an exponent after its letter. -/
def exponentDigits? (us : Units) : Option (Option (Bool × List Char) × Units) :=
  let (below, us) :=
    match us with
    | some '-' :: rest => (true, rest)
    | some '+' :: rest => (false, rest)
    | _ => (false, us)
  match takeDigits us with
  | ([], _) => none
  | (digits, rest) => some (some (below, digits), rest)

/-- The exponent of a number, if there is one. -/
def exponentPart? : Units → Option (Option (Bool × List Char) × Units)
  | some 'e' :: us => exponentDigits? us
  | some 'E' :: us => exponentDigits? us
  | us => some (none, us)

/-- A number, and what follows it. -/
def number? (us : Units) : Option (NumberText × Units) := do
  let (negative, us) :=
    match us with
    | some '-' :: rest => (true, rest)
    | _ => (false, us)
  let (whole, us) ← wholePart? us
  let (fraction, us) ← fractionPart? us
  let (exponent, us) ← exponentPart? us
  return (⟨negative, whole, fraction, exponent⟩, us)

/-! ## Values -/

/-- Whether a unit is a blank between tokens. -/
def isBlankUnit (u : Option Char) : Bool :=
  u == some ' ' || u == some '\n' || u == some '\t' || u == some '\r'

/-- What follows the blanks at the start. -/
def skipBlanks (us : Units) : Units := us.dropWhile isBlankUnit

mutual

/-- A value with the blanks before it, and what follows it. -/
def value? : Nat → Units → Option (Node × Units)
  | 0, _ => none
  | fuel + 1, us =>
    match skipBlanks us with
    | some 'n' :: some 'u' :: some 'l' :: some 'l' :: rest => some (.null, rest)
    | some 't' :: some 'r' :: some 'u' :: some 'e' :: rest => some (.bool true, rest)
    | some 'f' :: some 'a' :: some 'l' :: some 's' :: some 'e' :: rest => some (.bool false, rest)
    | some '"' :: rest => (string? rest).map fun r => (.string r.1, r.2)
    | some '[' :: rest =>
      match skipBlanks rest with
      | some ']' :: rest => some (.list [], rest)
      | rest => (items? fuel rest).map fun r => (.list r.1, r.2)
    | some '{' :: rest =>
      match skipBlanks rest with
      | some '}' :: rest => some (.record [], rest)
      | rest => (members? fuel rest).map fun r => (.record r.1, r.2)
    | rest => (number? rest).map fun r => (.number r.1, r.2)

/-- The items of a list up to its closing bracket. -/
def items? : Nat → Units → Option (List Node × Units)
  | 0, _ => none
  | fuel + 1, us =>
    match value? fuel us with
    | none => none
    | some (item, us) =>
      match skipBlanks us with
      | some ',' :: rest => (items? fuel rest).map fun r => (item :: r.1, r.2)
      | some ']' :: rest => some ([item], rest)
      | _ => none

/-- The members of a record up to its closing brace. -/
def members? : Nat → Units → Option (List (Units × Node) × Units)
  | 0, _ => none
  | fuel + 1, us =>
    match skipBlanks us with
    | some '"' :: rest =>
      match string? rest with
      | none => none
      | some (key, us) =>
        match skipBlanks us with
        | some ':' :: rest =>
          match value? fuel rest with
          | none => none
          | some (item, us) =>
            match skipBlanks us with
            | some ',' :: rest => (members? fuel rest).map fun r => ((key, item) :: r.1, r.2)
            | some '}' :: rest => some ([(key, item)], rest)
            | _ => none
        | _ => none
    | _ => none

end

/-- Reads a text that is one value; twice its length bounds the steps, since each takes at least
half a unit. -/
def Node.read (us : Units) : Option Node :=
  match value? (2 * us.length + 2) us with
  | some (node, rest) => if (skipBlanks rest).isEmpty then some node else none
  | none => none

/-! ## Fields -/

/-- The text of a string. -/
def Node.text? : Node → Option String
  | .string us => us.text?
  | _ => none

/-- Adds a field to an empty place. -/
def fill {α : Type} (place item : Option α) : Option (Option α) :=
  match place, item with
  | none, some a => some (some a)
  | _, _ => none

end CoverRun.Json

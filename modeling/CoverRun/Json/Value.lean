import CoverRun.Json.Node
import CoverRun.OrderedMap

/-!
# JSON values

A value is what is kept of a JSON text: each string is text, each number is one of the numbers that
are kept, and the members of a record are in key order, the last of equal keys. Lists and records
that nest deeper than `nestingLimit` are not kept. Values are written compactly or with two blanks
of indent a level.
-/

namespace CoverRun.Json

/-- A JSON value. -/
inductive Value where
  | null
  | bool (b : Bool)
  | number (n : Number)
  | string (s : String)
  | list (items : List Value)
  | record (members : List (String × Value))
deriving Inhabited

/-- How many lists and records may enclose a kept value. -/
def nestingLimit : Nat := 127

namespace Value

mutual

/-- Keeps a node inside which so many lists and records may nest. -/
def ofNode? (depth : Nat) : Node → Option Value
  | .null => some .null
  | .bool b => some (.bool b)
  | .number t => t.number?.map .number
  | .string us => us.text?.map .string
  | .list items =>
    match depth with
    | 0 => none
    | depth + 1 => (ofNodes? depth items).map .list
  | .record members =>
    match depth with
    | 0 => none
    | depth + 1 => (ofMembers? depth [] members).map .record

/-- Keeps the items of a list. -/
def ofNodes? (depth : Nat) : List Node → Option (List Value)
  | [] => some []
  | item :: items => do
    let v ← ofNode? depth item
    let vs ← ofNodes? depth items
    return v :: vs

/-- Keeps the members of a record besides those kept before. -/
def ofMembers? (depth : Nat) (done : List (String × Value)) :
    List (Units × Node) → Option (List (String × Value))
  | [] => some done
  | (key, item) :: members => do
    let k ← key.text?
    let v ← ofNode? depth item
    ofMembers? depth (Entries.put k v done) members

end

/-- Reads a text that is one value. -/
def read? (text : String) : Option Value :=
  (Node.read (Units.ofText text)).bind (ofNode? nestingLimit)

end Value

/-! ## Writing -/

/-- A hexadecimal digit. -/
def hexDigit (n : Nat) : Char := (Nat.digitChar (n % 16))

/-- A character as it is written in a string. -/
def escapeChar (c : Char) : List Char :=
  if c = '"' then ['\\', '"']
  else if c = '\\' then ['\\', '\\']
  else if c = '\x08' then ['\\', 'b']
  else if c = '\t' then ['\\', 't']
  else if c = '\n' then ['\\', 'n']
  else if c = '\x0c' then ['\\', 'f']
  else if c = '\r' then ['\\', 'r']
  else if c.toNat < 0x20 then
    ['\\', 'u', '0', '0', hexDigit (c.toNat / 16), hexDigit c.toNat]
  else [c]

/-- A string in quotes. -/
def quote (s : String) : List Char := '"' :: s.toList.flatMap escapeChar ++ ['"']

namespace Value

mutual

/-- The characters of a value without blanks. -/
def compactChars : Value → List Char
  | .null => "null".toList
  | .bool true => "true".toList
  | .bool false => "false".toList
  | .number n => n.text.toList
  | .string s => quote s
  | .list items => '[' :: compactItems items ++ [']']
  | .record members => '{' :: compactMembers members ++ ['}']

/-- The items of a list with commas between them. -/
def compactItems : List Value → List Char
  | [] => []
  | [v] => compactChars v
  | v :: vs => compactChars v ++ ',' :: compactItems vs

/-- The members of a record with commas between them. -/
def compactMembers : List (String × Value) → List Char
  | [] => []
  | [(k, v)] => quote k ++ ':' :: compactChars v
  | (k, v) :: ms => quote k ++ ':' :: compactChars v ++ ',' :: compactMembers ms

end

/-- The text of a value without blanks. -/
def compact (v : Value) : String := String.ofList v.compactChars

/-- A new line at a level of nesting. -/
def newLine (level : Nat) : List Char := '\n' :: List.replicate (2 * level) ' '

mutual

/-- The characters of a value inside so many lists and records, with a line for each item. -/
def prettyChars (level : Nat) : Value → List Char
  | .null => "null".toList
  | .bool true => "true".toList
  | .bool false => "false".toList
  | .number n => n.text.toList
  | .string s => quote s
  | .list [] => "[]".toList
  | .list items =>
    '[' :: newLine (level + 1) ++ prettyItems (level + 1) items ++ newLine level ++ [']']
  | .record [] => "\x7b\x7d".toList
  | .record members =>
    '{' :: newLine (level + 1) ++ prettyMembers (level + 1) members ++ newLine level ++ ['}']

/-- The items of a list, each on its line. -/
def prettyItems (level : Nat) : List Value → List Char
  | [] => []
  | [v] => prettyChars level v
  | v :: vs => prettyChars level v ++ ',' :: newLine level ++ prettyItems level vs

/-- The members of a record, each on its line. -/
def prettyMembers (level : Nat) : List (String × Value) → List Char
  | [] => []
  | [(k, v)] => quote k ++ ':' :: ' ' :: prettyChars level v
  | (k, v) :: ms =>
    quote k ++ ':' :: ' ' :: prettyChars level v ++ ',' :: newLine level ++
      prettyMembers level ms

end

/-- The text of a value with a line for each item. -/
def pretty (v : Value) : String := String.ofList (v.prettyChars 0)

end Value

end CoverRun.Json

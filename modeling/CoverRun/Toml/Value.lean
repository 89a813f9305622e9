import CoverRun.Toml.Moment

/-!
# TOML values

A table remembers how it came about, since that decides what may be added to it: `Members.assign`
sets a value at a dotted key, and `Members.openTable` and `Members.openRow` serve the two kinds of
headers. Each of them refuses to set or open twice.
-/

namespace CoverRun.Toml

/-- How a table came about: under a header of its own, on the way of a longer header, on the way of
a dotted key, or in braces. -/
inductive TableForm where
  | header
  | implied
  | dotted
  | braced
deriving DecidableEq, Repr

/-- A TOML value. A real number is kept as it was written. An unreadable value has the form of a
number, but no number is kept for it. Tables under one double header are the rows of that header. -/
inductive Value where
  | text (s : String)
  | integer (n : Int)
  | real (text : String)
  | unreadable (text : String)
  | boolean (b : Bool)
  | moment (m : Moment)
  | array (items : List Value)
  | table (form : TableForm) (members : List (String × Value))
  | rows (tables : List (List (String × Value)))
deriving Inhabited

/-- The members of a table in the order in which they appeared. -/
abbrev Members := List (String × Value)

/-- A dotted key. -/
abbrev Key := List String

namespace Value

mutual

/-- Whether nothing in a value is unreadable. -/
def isReadable : Value → Bool
  | .unreadable _ => false
  | .array items => areReadable items
  | .table _ ms => haveReadable ms
  | .rows tables => allReadable tables
  | _ => true

/-- Whether nothing in some values is unreadable. -/
def areReadable : List Value → Bool
  | [] => true
  | v :: vs => v.isReadable && areReadable vs

/-- Whether nothing in the members of a table is unreadable. -/
def haveReadable : List (String × Value) → Bool
  | [] => true
  | (_, v) :: ms => v.isReadable && haveReadable ms

/-- Whether nothing in some tables is unreadable. -/
def allReadable : List (List (String × Value)) → Bool
  | [] => true
  | ms :: tables => haveReadable ms && allReadable tables

end

end Value

namespace Members

/-- Replaces the value of a member or adds one at the end, as a function of the old value says. -/
def alter (name : String) (f : Option Value → Option Value) : Members → Option Members
  | [] => (f none).map fun v => [(name, v)]
  | (k, old) :: ms =>
    if k = name then (f (some old)).map fun v => (k, v) :: ms
    else (alter name f ms).map ((k, old) :: ·)

/-- Applies a function to the last of several rows. -/
def alterLast (f : Members → Option Members) : List Members → Option (List Members)
  | [] => none
  | [row] => (f row).map fun r => [r]
  | row :: rows => (alterLast f rows).map (row :: ·)

/-- Sets the value at a dotted key. A table on its way that has no header of its own counts from
then on as the table of a dotted key. Rows may stand on the way if a name follows before the
last. -/
def assign : Key → Value → Members → Option Members
  | [], _, _ => none
  | [name], v, ms =>
    alter name (fun
      | none => some v
      | some _ => none) ms
  | name :: next :: key, v, ms =>
    alter name (fun
      | none => (assign (next :: key) v []).map (.table .dotted)
      | some (.table .implied inner) => (assign (next :: key) v inner).map (.table .dotted)
      | some (.table .dotted inner) => (assign (next :: key) v inner).map (.table .dotted)
      | some (.rows tables) =>
        if key = [] then none else (alterLast (assign (next :: key) v) tables).map .rows
      | some _ => none) ms

/-- Sets the values of assignments in order. -/
def assignAll (assignments : List (Key × Value)) (ms : Members) : Option Members :=
  assignments.foldlM (fun ms a => assign a.1 a.2 ms) ms

/-- Leads along a header to its last name, whose value a function sets. -/
def along (last : Option Value → Option Value) : Key → Members → Option Members
  | [], _ => none
  | [name], ms => alter name last ms
  | name :: key, ms =>
    alter name (fun
      | none => (along last key []).map (.table .implied)
      | some (.table .braced _) => none
      | some (.table form inner) => (along last key inner).map (.table form)
      | some (.rows tables) => (alterLast (along last key) tables).map .rows
      | some _ => none) ms

/-- Opens the table of a header. One that stood on the way of a longer header may still be
opened. -/
def openTable (key : Key) : Members → Option Members :=
  along (fun
    | none => some (.table .header [])
    | some (.table .implied inner) => some (.table .header inner)
    | some _ => none) key

/-- Adds a row for a double header. -/
def openRow (key : Key) : Members → Option Members :=
  along (fun
    | none => some (.rows [[]])
    | some (.rows tables) => some (.rows (tables ++ [[]]))
    | some _ => none) key

/-- Sets the value at a dotted key below a header; no header stands for the document itself. -/
def assignBelow (header key : Key) (v : Value) (ms : Members) : Option Members :=
  if header = [] then assign key v ms
  else
    along (fun
      | some (.table form inner) => (assign key v inner).map (.table form)
      | some (.rows tables) => (alterLast (assign key v) tables).map .rows
      | _ => none) header ms

end Members

end CoverRun.Toml

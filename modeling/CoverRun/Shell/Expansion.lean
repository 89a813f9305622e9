import CoverRun.Shell.Arithmetic
import CoverRun.Shell.Pattern
import CoverRun.Shell.State

/-!
# Fields

What is put in for the pieces of a word is a list of atoms. Fields are cut from atoms at the
separators in what was put in without quotes; a field with wildcards then stands for the names of
files that it matches, if there are any.
-/

namespace CoverRun.Shell

/-- A character that was put in, which may separate fields; the end of a field; an empty text in
quotes; or parameters in quotes of which there are none. -/
inductive Atom where
  | mark (m : Mark) (separates : Bool)
  | fieldEnd
  | empty
  | noParameters
deriving DecidableEq, Repr

namespace Atom

/-- The atoms of a text of the script. -/
def ofText (quoted : Bool) (t : Text) : List Atom :=
  (if quoted then [.empty] else []) ++ t.map fun c => .mark (quoted, c) false

/-- The atoms of a value that is put in. -/
def ofValue (quoted : Bool) (t : Text) : List Atom := t.map fun c => .mark (quoted, c) (!quoted)

/-- The atoms of all parameters, each a field of its own. -/
def ofParameters (quoted : Bool) (ts : List Text) : List Atom :=
  if ts.isEmpty then if quoted then [.noParameters] else []
  else
    [Atom.fieldEnd].intercalate (ts.map fun t =>
      (if quoted then [.empty] else []) ++ ofValue quoted t)

/-- Whether a character separates fields and is a blank. -/
def isBlankSeparator (separators : Text) (c : Char) : Bool :=
  separators.contains c && (c == ' ' || c == '\t' || c == '\n')

/-- The fields of atoms, where the first field may have begun; what there is of it is given last
character first. -/
def fieldsFrom (separators : Text) : Option (List Mark) → List Atom → List (List Mark)
  | none, [] => []
  | some f, [] => [f.reverse]
  | current, .mark m separates :: atoms =>
    if separates && separators.contains m.2 then
      match current with
      | some f => f.reverse :: fieldsFrom separators none atoms
      | none =>
        if isBlankSeparator separators m.2 then fieldsFrom separators none atoms
        else [] :: fieldsFrom separators none atoms
    else fieldsFrom separators (some (m :: current.getD [])) atoms
  | current, .fieldEnd :: atoms =>
    match current with
    | some f => f.reverse :: fieldsFrom separators none atoms
    | none => fieldsFrom separators none atoms
  | current, .empty :: atoms => fieldsFrom separators (some (current.getD [])) atoms
  | current, .noParameters :: atoms => fieldsFrom separators current atoms

/-- The fields of atoms. -/
def fields (separators : Text) (atoms : List Atom) : List (List Mark) :=
  if atoms.contains .noParameters && atoms.all (fun a => a == .noParameters || a == .empty) then []
  else fieldsFrom separators none atoms

/-- The one field of atoms that are not cut. -/
def marks (atoms : List Atom) : List Mark :=
  atoms.filterMap fun
    | .mark m _ => some m
    | .fieldEnd => some (true, ' ')
    | _ => none

/-- The text of atoms that are not cut. -/
def text (atoms : List Atom) : Text := (marks atoms).map (·.2)

end Atom

namespace State

/-- The separators of fields. -/
def separators (s : State) : Text := (s.lookUp? "IFS".toList).getD [' ', '\t', '\n']

/-- The value of a parameter that is one text. -/
def parameter? (s : State) (name : Text) : Option Text :=
  match name with
  | ['#'] => some (Text.ofNat s.parameters.length)
  | ['?'] => some (Text.ofNat s.status)
  | ['$'] => some (Text.ofNat s.processId)
  | ['!'] => if s.lastProcessId = 0 then none else some (Text.ofNat s.lastProcessId)
  | ['-'] => some ("ubaCvxnfe".toList.filter s.has)
  | ['0'] => some s.name
  | ['@'] => if s.parameters.isEmpty then none else some ([' '].intercalate s.parameters)
  | ['*'] =>
    if s.parameters.isEmpty then none
    else some ((s.separators.take 1).intercalate s.parameters)
  | name =>
    match Text.natural? name with
    | some n => s.parameters[n - 1]?
    | none => s.lookUp? name

/-- A word with the home directory for its tilde, if there is one. -/
def homed (s : State) (w : Word) : Word :=
  if (s.lookUp? "HOME".toList).isSome then w.withHome else w

/-- Pieces between slashes. -/
def splitMarks : List Mark → List (List Mark)
  | [] => [[]]
  | m :: ms =>
    if m.2 = '/' then [] :: splitMarks ms
    else
      match splitMarks ms with
      | [] => [[m]]
      | p :: ps => (m :: p) :: ps

/-- The names in a directory that a pattern stands for; hidden names want a dot in the pattern. -/
def namesMatching (s : State) (loc : Location) (pattern : List Mark) : List FileName :=
  (s.tree.below loc).filterMap fun e =>
    match e.1 with
    | [name] =>
      let t := Text.ofBytes name.bytes
      let hidden := t.head? == some '.'
      if Pattern.matchesText pattern t && (!hidden || pattern.head?.map (·.2) == some '.') then
        some name
      else none
    | _ => none

/-- The paths below a path written so far that patterns between slashes lead to. -/
def pathsMatching (s : State) (written : Text) : List (List Mark) → List Text
  | [] => [written]
  | pattern :: rest =>
    let extend := fun (name : Text) =>
      let here := written ++ name
      if rest.isEmpty then [here] else s.pathsMatching (here ++ ['/']) rest
    if Pattern.hasWildcard pattern then
      let base : Path := if written = [] then "." else pathOf written
      match s.tree.directory? s.cwd base with
      | some loc =>
        (s.namesMatching loc pattern).flatMap fun name => extend (Text.ofBytes name.bytes)
      | none => []
    else
      let name := pattern.map (·.2)
      if rest.isEmpty && !s.tree.exists? s.cwd (pathOf (written ++ name)) then []
      else extend name

/-- The texts that a field stands for. -/
def textsOf (s : State) (field : List Mark) : List Text :=
  let plain := field.map (·.2)
  if Pattern.hasWildcard field && !s.has 'f' then
    match s.pathsMatching [] (splitMarks field) with
    | [] => [plain]
    | found => found
  else [plain]

end State

end CoverRun.Shell

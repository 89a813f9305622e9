import CoverRun.Text.Utf8

/-!
# Paths

A path is bytes, which need not be UTF-8; its meaning is its list of components. Repeated separators
and inner `.` are no components, and a leading `.` is one. Parents, remainders and ancestors keep
the bytes between their components as they were written. A text stands for the path, or the name,
that is its UTF-8.
-/

namespace CoverRun

/-- The byte that separates names. -/
def slash : UInt8 := 0x2F

/-- The byte of a dot. -/
def dot : UInt8 := 0x2E

/-- A name in a directory: bytes, which need not be UTF-8. -/
structure FileName where
  bytes : Bytes
deriving DecidableEq, Repr, Inhabited

namespace FileName

/-- The name that a text stands for. -/
def ofText (text : String) : FileName := ⟨Utf8.encode text⟩

instance : Coe String FileName := ⟨ofText⟩

/-- Whether a name is UTF-8. -/
def isText (name : FileName) : Bool := (Utf8.decode? name.bytes).isSome

/-- How a name is shown: with U+FFFD for what is no character. -/
def text (name : FileName) : String := Utf8.decodeLenient name.bytes

end FileName

/-- A path as it is written. -/
structure Path where
  bytes : Bytes
deriving DecidableEq, Repr, Inhabited

namespace Path

/-- The path that a text stands for. -/
def ofText (text : String) : Path := ⟨Utf8.encode text⟩

instance : Coe String Path := ⟨ofText⟩

/-- The text of a path that is UTF-8. -/
def text? (p : Path) : Option String := Utf8.decode? p.bytes

/-- How a path is shown: with U+FFFD for what is no character. -/
def text (p : Path) : String := Utf8.decodeLenient p.bytes

/-- A step of a path: the root of the file system, the leading `.`, `..` or a name. -/
inductive Component where
  | root
  | current
  | parent
  | name (name : FileName)
deriving DecidableEq, Repr

/-- How a component is written. -/
def Component.bytes : Component → Bytes
  | .root => [slash]
  | .current => [dot]
  | .parent => [dot, dot]
  | .name n => n.bytes

/-- A component and the bytes of the path that it takes up. -/
structure Part where
  component : Component
  start : Nat
  stop : Nat
deriving DecidableEq, Repr

/-- The pieces between separators. -/
def pieces {α : Type} [DecidableEq α] (separator : α) : List α → List (List α)
  | [] => [[]]
  | c :: cs =>
    if c = separator then [] :: pieces separator cs
    else
      match pieces separator cs with
      | [] => [[c]]
      | p :: ps => (c :: p) :: ps

/-- The component of a piece that is neither empty nor `.`. -/
def componentOf (piece : Bytes) : Component :=
  if piece = [dot, dot] then .parent else .name ⟨piece⟩

/-- The parts of pieces that begin at a byte; only the first piece of a relative path is
`leading`. -/
def partsFrom (start : Nat) (leading : Bool) : List Bytes → List Part
  | [] => []
  | p :: ps =>
    let rest := partsFrom (start + p.length + 1) false ps
    if p = [] then rest
    else if p = [dot] then
      if leading then ⟨.current, start, start + 1⟩ :: rest else rest
    else ⟨componentOf p, start, start + p.length⟩ :: rest

/-- Whether a path begins at the root. -/
def isAbsolute (p : Path) : Bool := p.bytes.head? == some slash

/-- The parts of a path from left to right. -/
def parts (p : Path) : List Part :=
  if p.isAbsolute then ⟨.root, 0, 1⟩ :: partsFrom 1 false (pieces slash p.bytes.tail)
  else partsFrom 0 true (pieces slash p.bytes)

/-- The components of a path. -/
def components (p : Path) : List Component := p.parts.map (·.component)

/-- The bytes from one position to another, as a path. -/
def slice (p : Path) (start stop : Nat) : Path := ⟨(p.bytes.drop start).take (stop - start)⟩

/-- The proper ancestors that belong to parts given from right to left: each ends where the part
before it ends, and the root has none. -/
def ancestorsOf (p : Path) : List Part → List Path
  | [] => []
  | part :: before =>
    if part.component = .root then []
    else p.slice 0 ((before.head?.map (·.stop)).getD 0) :: ancestorsOf p before

/-- The proper ancestors of a path, the nearest first. -/
def ancestors (p : Path) : List Path := p.ancestorsOf p.parts.reverse

/-- The path without its last component. -/
def parent? (p : Path) : Option Path := p.ancestors.head?

/-- The last component, if it is a name. -/
def fileName? (p : Path) : Option FileName :=
  match p.components.getLast? with
  | some (.name n) => some n
  | _ => none

/-- A file name cut at its last dot into stem and extension. A name whose only dot comes first is
all stem. -/
def cutName (name : Bytes) : Bytes × Option Bytes :=
  let fromEnd := name.reverse
  match fromEnd.dropWhile (· != dot) with
  | _dot :: before =>
    if before = [] then (name, none)
    else (before.reverse, some (fromEnd.takeWhile (· != dot)).reverse)
  | [] => (name, none)

/-- A path read from within another: an absolute one stands alone. -/
def join (p q : Path) : Path :=
  if q.isAbsolute then q
  else if p.bytes = [] ∨ p.bytes.getLast? = some slash then ⟨p.bytes ++ q.bytes⟩
  else ⟨p.bytes ++ slash :: q.bytes⟩

/-- The path written with one separator between components. -/
def ofComponents (cs : List Component) : Path :=
  cs.foldl (fun p c => p.join ⟨c.bytes⟩) ⟨[]⟩

/-- The relative path of names. -/
def ofNames (names : List FileName) : Path := ⟨[slash].intercalate (names.map (·.bytes))⟩

/-- Whether the components begin with those of another path. -/
def startsWith (p base : Path) : Bool := base.components.isPrefixOf p.components

/-- What follows another path's components. -/
def remainder? (p base : Path) : Option Path :=
  if p.startsWith base then
    let skipped := base.components.length
    let rest := p.parts.drop skipped
    let start := if skipped = 0 then 0 else (rest.head?.map (·.start)).getD 0
    some (p.slice start ((rest.getLast?.map (·.stop)).getD 0))
  else none

/-- Carries out `.` and `..` on components by their text alone; `..` at the root or at the start
of a relative path leads nowhere. -/
def collapse (cs : List Component) : List Component :=
  (cs.foldl step []).reverse
where
  /-- One component on top of the collapsed ones, last first. -/
  step : List Component → Component → List Component
    | done, .current => done
    | .root :: done, .parent => .root :: done
    | _ :: done, .parent => done
    | [], .parent => []
    | done, c => c :: done

/-- The path after `.` and `..` are carried out by their text alone. -/
def normalize (p : Path) : Path := ofComponents (collapse p.components)

end Path

end CoverRun

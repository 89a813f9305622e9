import CoverRun.OrderedMap
import CoverRun.Path

/-!
# File trees

A file tree is a value: what stands at each location below the root. Locations are ordered name by
name, so the entries below a directory stand together, a directory before its content and names in
byte order. `resolve` is the only way from a path to a location; reading, writing, creating and
removing go through it and fail with its errors.
-/

namespace CoverRun

/-- Why an operation on files failed. -/
inductive FileError where
  | notFound
  | permissionDenied
  | alreadyExists
  | notDirectory
  | isDirectory
  | nameTooLong
  | tooManyLinks
  | nulInPath
  | nulInCommand
  | invalidText
deriving DecidableEq, Repr

/-- The wording of a failure. -/
def FileError.message : FileError → String
  | .notFound => "No such file or directory (os error 2)"
  | .permissionDenied => "Permission denied (os error 13)"
  | .alreadyExists => "File exists (os error 17)"
  | .notDirectory => "Not a directory (os error 20)"
  | .isDirectory => "Is a directory (os error 21)"
  | .nameTooLong => "File name too long (os error 36)"
  | .tooManyLinks => "Too many levels of symbolic links (os error 40)"
  | .nulInPath => "file name contained an unexpected NUL byte"
  | .nulInCommand => "nul byte found in provided data"
  | .invalidText => "stream did not contain valid UTF-8"

/-- Names in the order of their bytes. -/
instance : KeyOrder FileName where
  before a b := KeyOrder.before a.bytes b.bytes
  before_irrefl a := KeyOrder.before_irrefl a.bytes
  before_trans h g := KeyOrder.before_trans h g
  before_total h hne := KeyOrder.before_total h fun hEq => hne (congrArg FileName.mk hEq)

/-- Names on the way from the root. -/
abbrev Location := List FileName

/-- The absolute path of a location. -/
def Location.path (loc : Location) : Path := ⟨slash :: (Path.ofNames loc).bytes⟩

/-- What stands at a location. -/
inductive FileTree.Entry where
  | directory
  | file (content : Bytes)
  | link (target : Path)
deriving DecidableEq, Repr

/-- Everything below the root, by location. -/
structure FileTree where
  entries : OrderedMap Location FileTree.Entry
deriving DecidableEq

namespace FileTree

/-- The tree of an empty root. -/
def empty : FileTree := ⟨OrderedMap.empty⟩

instance : Inhabited FileTree := ⟨empty⟩

/-- What stands at a location; the root is a directory. -/
def find? (t : FileTree) (loc : Location) : Option Entry :=
  if loc = [] then some .directory else t.entries.find? loc

/-- Every entry below the root stands in a directory. -/
def Rooted (t : FileTree) : Prop :=
  ∀ e ∈ t.entries.entries, e.1 ≠ [] ∧ t.find? e.1.dropLast = some .directory

/-- The tree with an entry at a location. -/
def place (t : FileTree) (loc : Location) (e : Entry) : FileTree := ⟨t.entries.insert loc e⟩

/-- The tree without the entry at a location. -/
def drop (t : FileTree) (loc : Location) : FileTree := ⟨t.entries.erase loc⟩

/-- The tree without a location and all below it. -/
def prune (t : FileTree) (loc : Location) : FileTree :=
  ⟨t.entries.filter fun k _ => !loc.isPrefixOf k⟩

/-- The entries below a location in order, each with its names from there. -/
def below (t : FileTree) (loc : Location) : List (Location × Entry) :=
  (t.entries.entries.filter fun e => loc.isPrefixOf e.1 && e.1.length != loc.length).map fun e =>
    (e.1.drop loc.length, e.2)

/-- What entries come to, visited in order; the first failure counts. -/
def visitAll {ε α : Type} (visit : Location × Entry → Except ε (Option α)) :
    List (Location × Entry) → Except ε (List α)
  | [] => .ok []
  | e :: es => do
    let here ← visit e
    let later ← visitAll visit es
    return here.toList ++ later

/-! ## From paths to locations -/

/-- Where a path leads: to an entry, or to a free name in a directory. -/
inductive Target where
  | present (loc : Location) (entry : Entry)
  | absent (parent : Location) (name : FileName)
deriving DecidableEq, Repr

/-- How the last name of a path is taken. A link there can be `followed`, or `shown` itself, unless
a separator comes after it. What is there can be `named`, whatever comes after the name. Or the name
is that of a file to be `created`, which no separator may come after. -/
inductive LastName where
  | followed
  | shown
  | named
  | created
deriving DecidableEq, Repr

/-- The names that a path is written with, `.` and `..` among them. -/
def namesOf (p : Path) : List FileName :=
  ((Path.pieces slash p.bytes).filter (· ≠ [])).map FileName.mk

/-- Whether a path ends with a separator. -/
def isSlashed (p : Path) : Bool := p.bytes.getLast? == some slash

/-- The most bytes a file name can have. -/
def nameLimit : Nat := 255

/-- A path of this many bytes is too long. -/
def pathLimit : Nat := 4096

/-- Whether a path is too long to be looked up. -/
def isTooLong (p : Path) : Bool := decide (pathLimit ≤ p.bytes.length)

/-- The most links that are followed on the way. -/
def linkLimit : Nat := 40

/-- Whether a link at the last name is what the path leads to. -/
def LastName.stopsAtLink (last : LastName) (slashed : Bool) : Bool :=
  last == .named || (last == .shown && !slashed)

/-- Follows names from a directory; `slashed` says whether a separator comes after the last one. -/
def walk (t : FileTree) (last : LastName) (slashed : Bool) (links : Nat) (loc : Location) :
    List FileName → Except FileError Target
  | [] => .ok (.present loc .directory)
  | name :: rest =>
    if name.bytes = [dot] then walk t last slashed links loc rest
    else if name.bytes = [dot, dot] then walk t last slashed links loc.dropLast rest
    else if rest = [] ∧ last = .created ∧ slashed then .error .isDirectory
    else if nameLimit < name.bytes.length then .error .nameTooLong
    else
      let child := loc ++ [name]
      match t.find? child with
      | none => if rest = [] then .ok (.absent loc name) else .error .notFound
      | some .directory => walk t last slashed links child rest
      | some (.file content) =>
        if rest = [] ∧ (last = .named ∨ slashed = false) then
          .ok (.present child (.file content))
        else .error .notDirectory
      | some (.link target) =>
        if rest = [] ∧ last.stopsAtLink slashed then .ok (.present child (.link target))
        else
          match links with
          | 0 => .error .tooManyLinks
          | links + 1 =>
            walk t last (slashed || (rest.isEmpty && isSlashed target)) links
              (if target.isAbsolute then [] else loc) (namesOf target ++ rest)
termination_by names => (links, names.length)

/-- Where a path leads from a working directory. -/
def resolve (t : FileTree) (cwd : Location) (p : Path) (last : LastName) :
    Except FileError Target :=
  if p.bytes = [] then .error .notFound
  else if p.bytes.contains 0 then .error .nulInPath
  else if pathLimit ≤ p.bytes.length then .error .nameTooLong
  else walk t last (isSlashed p) linkLimit (if p.isAbsolute then [] else cwd) (namesOf p)

/-- The location of the directory that a path leads to. -/
def directory? (t : FileTree) (cwd : Location) (p : Path) : Option Location :=
  match t.resolve cwd p .followed with
  | .ok (.present loc .directory) => some loc
  | _ => none

/-- Whether a path leads to an entry. -/
def exists? (t : FileTree) (cwd : Location) (p : Path) : Bool :=
  match t.resolve cwd p .followed with
  | .ok (.present ..) => true
  | _ => false

/-- The location that a path leads to, with all links followed. -/
def locate (t : FileTree) (cwd : Location) (p : Path) : Except FileError Location :=
  match t.resolve cwd p .followed with
  | .ok (.present loc _) => .ok loc
  | .ok (.absent ..) => .error .notFound
  | .error e => .error e

/-! ## Files and directories -/

/-- The content of a file. -/
def read (t : FileTree) (cwd : Location) (p : Path) : Except FileError Bytes :=
  match t.resolve cwd p .followed with
  | .ok (.present _ (.file content)) => .ok content
  | .ok (.present _ .directory) => .error .isDirectory
  | .ok (.present _ (.link _)) => .error .tooManyLinks
  | .ok (.absent ..) => .error .notFound
  | .error e => .error e

/-- The content of a file that is UTF-8. -/
def readText (t : FileTree) (cwd : Location) (p : Path) : Except FileError String :=
  match t.read cwd p with
  | .error e => .error e
  | .ok content =>
    match Utf8.decode? content with
    | some text => .ok text
    | none => .error .invalidText

/-- Creates a file or replaces its content. -/
def write (t : FileTree) (cwd : Location) (p : Path) (content : Bytes) :
    Except FileError FileTree :=
  match t.resolve cwd p .created with
  | .ok (.present loc (.file _)) => .ok (t.place loc (.file content))
  | .ok (.present _ .directory) => .error .isDirectory
  | .ok (.present _ (.link _)) => .error .tooManyLinks
  | .ok (.absent parent name) => .ok (t.place (parent ++ [name]) (.file content))
  | .error e => .error e

/-- Creates one directory. -/
def makeDirectory (t : FileTree) (cwd : Location) (p : Path) : Except FileError FileTree :=
  match t.resolve cwd p .named with
  | .ok (.present ..) => .error .alreadyExists
  | .ok (.absent parent name) => .ok (t.place (parent ++ [name]) .directory)
  | .error e => .error e

/-- Creates one directory; one that is there already is as good as created. The tree comes back
also after a failure. -/
def settleDirectory (t : FileTree) (cwd : Location) (p : Path) :
    FileTree × Except FileError Unit :=
  match t.makeDirectory cwd p with
  | .ok t' => (t', .ok ())
  | .error e => if (t.directory? cwd p).isSome then (t, .ok ()) else (t, .error e)

/-- Whether a directory cannot be created because its parent is missing. -/
def lacksParent (t : FileTree) (cwd : Location) (p : Path) : Bool :=
  match t.makeDirectory cwd p with
  | .error .notFound => true
  | _ => false

/-- Creates a directory after those of its ancestors that are missing, given nearest first. -/
def makeMissing (t : FileTree) (cwd : Location) (p : Path) :
    List Path → FileTree × Except FileError Unit
  | [] => if p.components = [] then (t, .ok ()) else t.settleDirectory cwd p
  | parent :: further =>
    if p.components = [] then (t, .ok ())
    else if t.lacksParent cwd p then
      match t.makeMissing cwd parent further with
      | (t', .ok ()) => t'.settleDirectory cwd p
      | (t', .error e) => (t', .error e)
    else t.settleDirectory cwd p

/-- Creates a directory with all its ancestors; what was created before a failure stays. -/
def makeDirectories (t : FileTree) (cwd : Location) (p : Path) : FileTree × Except FileError Unit :=
  t.makeMissing cwd p p.ancestors

/-- Removes a file or a link, after which no separator may be written. -/
def remove (t : FileTree) (cwd : Location) (p : Path) : Except FileError FileTree :=
  match t.resolve cwd p .named with
  | .ok (.present _ .directory) => .error .isDirectory
  | .ok (.present loc _) => if isSlashed p then .error .notDirectory else .ok (t.drop loc)
  | .ok (.absent ..) => .error .notFound
  | .error e => .error e

end FileTree

end CoverRun

import CoverRun.FileTree
import CoverRun.Selection.SourceRoot

/-!
# Selection of sources

Below a root the sources are the regular files with a wanted extension, none of whose names from
the root on is hidden. A name is hidden if it is UTF-8 and begins with a dot. Sources come in the
order of the tree. Directories are listed and sources are read under the path of the root with their
names, which can be too long for that. A selection splits the sources of all roots into those to
instrument and those to pass through, each list in root order and, within a root, in tree order.
-/

namespace CoverRun

/-- A source that was read: its root, its path from there and its text. -/
structure SourceFile where
  root : Path
  relative : Path
  source : String
deriving DecidableEq, Repr

/-- The path of a source. -/
def SourceFile.path (f : SourceFile) : Path := f.root.join f.relative

/-- Why sources cannot be selected. -/
inductive SelectionError where
  | rootMissing (path : Path)
  | unlisted (root path : Path) (cause : FileError)
  | unreadable (path : Path) (cause : FileError)
deriving DecidableEq, Repr

/-- The wording of a directory that cannot be listed. -/
def SelectionError.listing (path : Path) (cause : FileError) : String :=
  "IO error for operation on " ++ path.text ++ ": " ++ cause.message

/-- The wording of a failed selection. -/
def SelectionError.message : SelectionError → String
  | .rootMissing path => "Source root " ++ path.text ++ " does not exist or is not a directory"
  | .unlisted root path cause =>
    "Failed to walk source root " ++ root.text ++ ": " ++ listing path cause
  | .unreadable path cause => "Failed to read " ++ path.text ++ ": " ++ cause.message

/-- The wording and that of its causes. -/
def SelectionError.chain (e : SelectionError) : List String :=
  e.message ::
    match e with
    | .rootMissing _ => []
    | .unlisted _ path cause => [listing path cause, cause.message]
    | .unreadable _ cause => [cause.message]

/-- The sources of a run: those to instrument and those to pass through. -/
structure Selection where
  instrument : List SourceFile
  passThrough : List SourceFile
deriving DecidableEq, Repr

namespace Selection

/-- The extensions of sources unless others are wanted. -/
def defaultExtensions : List String := ["sol"]

/-- The selection without sources. -/
def empty : Selection := ⟨[], []⟩

/-- The number of sources. -/
def total (s : Selection) : Nat := s.instrument.length + s.passThrough.length

/-- Whether a file name is hidden. -/
def isHidden (name : FileName) : Bool := name.isText && name.bytes.head? == some dot

/-- Whether a file name has a wanted extension. -/
def isEligible (extensions : List String) (name : FileName) : Bool :=
  match (Path.cutName name.bytes).2.bind Utf8.decode? with
  | some ext => extensions.contains ext
  | none => false

/-- Whether no name is hidden. -/
def isVisible (names : Location) : Bool := names.all fun n => !isHidden n

/-- Whether names from a root on lead to a source. -/
def isSource (extensions : List String) (names : Location) : Bool :=
  isVisible names &&
    match names.getLast? with
    | some name => isEligible extensions name
    | none => false

/-- Lists a directory below a root. -/
def listDirectory (root : Path) (names : Location) : Except SelectionError Unit :=
  let path := root.join (Path.ofNames names)
  if FileTree.isTooLong path then .error (.unlisted root path .nameTooLong) else .ok ()

/-- Reads one source of a root. -/
def readSource (root : Path) (names : Location) (content : Bytes) :
    Except SelectionError SourceFile :=
  let relative := Path.ofNames names
  let path := root.join relative
  if FileTree.isTooLong path then .error (.unreadable path .nameTooLong)
  else
    match Utf8.decode? content with
    | some text => .ok ⟨root, relative, text⟩
    | none => .error (.unreadable path .invalidText)

/-- Visits an entry below a root: a directory is listed unless it or one on the way to it is hidden,
and a source is read. -/
def visit (extensions : List String) (root : Path) (e : Location × FileTree.Entry) :
    Except SelectionError (Option SourceFile) :=
  match e.2 with
  | .directory =>
    if isVisible e.1 then (listDirectory root e.1).map fun _ => none else .ok none
  | .file content =>
    if isSource extensions e.1 then (readSource root e.1 content).map some else .ok none
  | .link _ => .ok none

/-- The sources of a root; the first directory that cannot be listed or source that cannot be read
counts. -/
def discover (t : FileTree) (cwd : Location) (extensions : List String) (root : Path) :
    Except SelectionError (List SourceFile) :=
  match t.directory? cwd root with
  | none => .error (.rootMissing root)
  | some loc => FileTree.visitAll (visit extensions root) (t.below loc)

/-- The sources of a root, split by its skip entries. -/
def split (root : SourceRoot) (files : List SourceFile) : Selection :=
  ⟨files.filter fun f => !root.skips f.relative, files.filter fun f => root.skips f.relative⟩

/-- Two selections, the lists of one after those of the other. -/
def append (s s' : Selection) : Selection :=
  ⟨s.instrument ++ s'.instrument, s.passThrough ++ s'.passThrough⟩

/-- Selects the sources of all roots in order; the first failure counts. -/
def ofRoots (t : FileTree) (cwd : Location) (extensions : List String) :
    List SourceRoot → Except SelectionError Selection
  | [] => .ok empty
  | root :: roots => do
    let files ← discover t cwd extensions root.path
    let rest ← ofRoots t cwd extensions roots
    return (split root files).append rest

end Selection

end CoverRun

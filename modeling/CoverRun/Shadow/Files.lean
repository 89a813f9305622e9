import CoverRun.Selection
import CoverRun.Shadow.Name

/-!
# Shadow files

Shadows are written one after another; the first that cannot be written ends that, and those before
it stay. They are found by name among the regular files below a root, hidden directories included,
and removed one after another, where one that is gone already is no failure.
-/

namespace CoverRun

/-- A shadow file that could not be written or removed. -/
structure ShadowError where
  path : Path
  cause : FileError
deriving DecidableEq, Repr

/-- The wording of a failed write. -/
def ShadowError.message (e : ShadowError) : String :=
  "Failed to write shadow file " ++ e.path.text ++ ": " ++ e.cause.message

/-- The wording and that of its cause. -/
def ShadowError.chain (e : ShadowError) : List String := [e.message, e.cause.message]

/-- A source with the text that its shadow gets. -/
structure ShadowText where
  source : Path
  text : String
deriving DecidableEq, Repr

namespace Shadow

/-- What writing shadows came to: the tree, the paths written and the write that failed. -/
structure Writing where
  tree : FileTree
  written : List Path
  failure : Option ShadowError

/-- The paths written, if no write failed. -/
def Writing.result (w : Writing) : Except ShadowError (List Path) :=
  match w.failure with
  | none => .ok w.written
  | some e => .error e

/-- Writes shadows in order up to the first that cannot be written. -/
def writeAll (t : FileTree) (cwd : Location) : List ShadowText → Writing
  | [] => ⟨t, [], none⟩
  | s :: rest =>
    let shadow := namePath s.source
    match t.write cwd shadow (Utf8.encode s.text) with
    | .error cause => ⟨t, [], some ⟨shadow, cause⟩⟩
    | .ok t' =>
      let later := writeAll t' cwd rest
      { later with written := shadow :: later.written }

/-- Visits an entry below a root: a directory is listed, and a file can be a shadow. -/
def visit (root : Path) (e : Location × FileTree.Entry) : Except SelectionError (Option Path) :=
  match e.2 with
  | .directory => (Selection.listDirectory root e.1).map fun _ => none
  | .file _ =>
    let path := root.join (Path.ofNames e.1)
    .ok (if isShadow path then some path else none)
  | .link _ => .ok none

/-- The shadow files below a root; the first directory that cannot be listed counts. -/
def find (t : FileTree) (cwd : Location) (root : Path) : Except SelectionError (List Path) :=
  match t.directory? cwd root with
  | none => .error (.rootMissing root)
  | some loc => FileTree.visitAll (visit root) (t.below loc)

/-- Removes files in order and counts them. The tree comes back also after a failure. -/
def removeAll (t : FileTree) (cwd : Location) : List Path → FileTree × Except ShadowError Nat
  | [] => (t, .ok 0)
  | p :: rest =>
    match t.remove cwd p with
    | .ok t' =>
      let (t'', result) := removeAll t' cwd rest
      (t'', result.map (· + 1))
    | .error .notFound => removeAll t cwd rest
    | .error cause => (t, .error ⟨p, cause⟩)

end Shadow

end CoverRun

import CoverRun.FileTree
import CoverRun.Settings.Text

/-!
# Setting up a project

Setting up creates the directory for settings and writes the standard settings, unless there is a
settings file already.
-/

namespace CoverRun

/-- What was not created, and why. -/
inductive SetupError where
  | directory (path : Path) (cause : FileError)
  | text
  | file (path : Path) (cause : FileError)
deriving DecidableEq, Repr

/-- What was attempted, and the cause of its failure. -/
def SetupError.chain : SetupError → List String
  | .directory path cause => ["Failed to create directory: " ++ path.text, cause.message]
  | .text => ["Failed to serialize solcover.toml", "path contains invalid UTF-8 characters"]
  | .file path cause => ["Failed to write config file: " ++ path.text, cause.message]

/-- The directory and the file for settings, and whether the file is new. -/
structure Setup where
  directory : Path
  file : Path
  created : Bool
deriving DecidableEq, Repr

namespace Setup

/-- Whether a project has a settings file. -/
def isDone (t : FileTree) (cwd : Location) (project : Path) : Bool :=
  t.exists? cwd (Settings.file project)

/-- Sets a project up. The tree comes back also after a failure. -/
def run (t : FileTree) (cwd : Location) (project : Path) : FileTree × Except SetupError Setup :=
  let directory := Settings.directory project
  let file := Settings.file project
  match t.makeDirectories cwd directory with
  | (t', .error cause) => (t', .error (.directory directory cause))
  | (t', .ok ()) =>
    if t'.exists? cwd file then (t', .ok ⟨directory, file, false⟩)
    else
      match Settings.standard.write? with
      | none => (t', .error .text)
      | some text =>
        match t'.write cwd file (Utf8.encode text) with
        | .error cause => (t', .error (.file file cause))
        | .ok t'' => (t'', .ok ⟨directory, file, true⟩)

end Setup

end CoverRun

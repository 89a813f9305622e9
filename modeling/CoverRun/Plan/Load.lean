import CoverRun.FileTree
import CoverRun.Plan

/-!
# Loading a plan

The settings of a project are in its settings file, or in a file that is named, which must then be
there. Without a settings file a project has the standard settings.
-/

namespace CoverRun

/-- Why there is no plan for a project. -/
inductive LoadError where
  | project (cause : FileError)
  | unreadable (path : Path) (cause : FileError)
  | malformed
  | invalid (e : PlanError)
deriving DecidableEq, Repr

namespace LoadError

/-- The wording and those of its causes. -/
def chain : LoadError → List String
  | .project cause => ["Failed to resolve project directory", cause.message]
  | .unreadable path cause => ["Failed to read config file: " ++ path.text, cause.message]
  | .malformed => ["Failed to parse solcover.toml", "TOML parse error"]
  | .invalid e => e.chain

/-- The wording without causes. -/
def message (e : LoadError) : String := e.chain.headD ""

end LoadError

namespace Settings

/-- Reads the text of a settings file. -/
def parse (text : String) : Except LoadError Settings :=
  match read? text with
  | some s => .ok s
  | none => .error .malformed

/-- Reads a settings file. -/
def load (t : FileTree) (cwd : Location) (path : Path) : Except LoadError Settings :=
  match t.readText cwd path with
  | .ok text => parse text
  | .error cause => .error (.unreadable path cause)

/-- Reads the settings file of a project, if there is one. -/
def loadOrStandard (t : FileTree) (cwd : Location) (project : Path) : Except LoadError Settings :=
  let path := file project
  if t.exists? cwd path then load t cwd path else .ok standard

end Settings

namespace Plan

/-- The plan for a project, with a settings file of its own or a named one. -/
def load (t : FileTree) (cwd : Location) (project : Path) (named : Option Path) (o : Overrides) :
    Except LoadError Plan :=
  match t.locate cwd project with
  | .error cause => .error (.project cause)
  | .ok loc => do
    let path := loc.path
    let s ←
      match named with
      | some file => Settings.load t cwd file
      | none => Settings.loadOrStandard t cwd path
    match ofSettings path s o with
    | .ok plan => .ok plan
    | .error e => .error (.invalid e)

end Plan

end CoverRun

import CoverRun.CommandLine.Invocation
import CoverRun.Coverage.Report
import CoverRun.Plan.Load
import CoverRun.Screen

/-!
# The command line

Each command works on a world and succeeds or fails with a chain of messages, the outermost first.
The exit code is zero on success, one on failure and two for wrong usage.
-/

namespace CoverRun.CommandLine

/-- What a command came to. -/
abbrev Result := World × Except (List String) Unit

/-- The message when no instrumenter is known. -/
def noInstrumenter : String :=
  "No instrumenter configured. Set [instrumenter] command in .solcover/solcover.toml, " ++
    "pass --instrumenter, or set SOLCOVER_INSTRUMENTER."

/-- Sets a project up. -/
def setUp (project : Path) (w : World) : Result :=
  let (tree, result) := Setup.run w.tree w.cwd project
  let w : World := { w with tree := tree }
  match result with
  | .error e => (w, .error e.chain)
  | .ok s =>
    let w := if s.created then w.record [.fileWritten s.file] else w
    (w.print .output (Screen.setup s), .ok ())

/-- Saves the report of a run and shows it. -/
def saveReport (plan : Plan) (time : String) (r : RunReport) (w : World) : Result :=
  let (tree, result) := (CoverageReport.mk time r.table).save w.tree w.cwd plan.output
  let w : World := { w with tree := tree }
  match result with
  | .error e => (w, .error e.chain)
  | .ok () =>
    ((w.record [.fileWritten plan.output]).print .output (Screen.report r plan.output), .ok ())

/-- Runs coverage by a plan with an instrumenting command. -/
def coverPlan (machine : Machine) (time : String) (plan : Plan) (command : String) (w : World) :
    Result :=
  let (r, result) := (Pipeline.ofPlan plan command).run machine ⟨Progress.idle, w⟩
  match result with
  | .error e => (r.world, .error ("Coverage run failed" :: e.chain))
  | .ok report => saveReport plan time report r.world

/-- Runs coverage for a project. -/
def cover (machine : Machine) (time : String) (project : Path) (settings : Option Path)
    (o : Overrides) (w : World) : Result :=
  match Plan.load w.tree w.cwd project settings o with
  | .error e => (w, .error e.chain)
  | .ok plan =>
    match plan.instrumenter with
    | none => (w, .error [noInstrumenter])
    | some command => coverPlan machine time plan command w

/-- Shows the selection of a project. -/
def showSelection (project : Path) (settings : Option Path) (w : World) : Result :=
  match Plan.load w.tree w.cwd project settings Overrides.none with
  | .error e => (w, .error e.chain)
  | .ok plan =>
    match Selection.ofRoots w.tree w.cwd plan.extensions plan.roots with
    | .error e => (w, .error e.chain)
    | .ok s => (w.print .output (Screen.selection plan s), .ok ())

/-- The shadow files below those roots that are directories. -/
def shadowsOf (t : FileTree) (cwd : Location) :
    List SourceRoot → Except SelectionError (List Path)
  | [] => .ok []
  | root :: roots => do
    let found ← if (t.directory? cwd root.path).isSome then Shadow.find t cwd root.path else .ok []
    let later ← shadowsOf t cwd roots
    return found ++ later

/-- Removes the shadow files of a project. Without `force` this would have to be confirmed, and
nobody is there to do so. -/
def clean (force : Bool) (project : Path) (settings : Option Path) (w : World) : Result :=
  match Plan.load w.tree w.cwd project settings Overrides.none with
  | .error e => (w, .error e.chain)
  | .ok plan =>
    match shadowsOf w.tree w.cwd plan.roots with
    | .error e => (w, .error e.chain)
    | .ok shadows =>
      if !shadows.isEmpty && !force then (w.print .output Screen.cleanCancelled, .ok ())
      else
        let (tree, result) := Shadow.removeAll w.tree w.cwd shadows
        let w : World := { w with tree := tree }
        match result with
        | .error e => (w, .error e.chain)
        | .ok _ => (w.print .output (Screen.cleaned plan shadows), .ok ())

/-- Carries out an invocation. -/
def carryOut (machine : Machine) (time : String) (i : Invocation) (w : World) : Result :=
  let project := i.project.getD w.cwd.path
  match i.command with
  | .init => setUp project w
  | .run o => cover machine time project i.settings o w
  | .select => showSelection project i.settings w
  | .clean force => clean force project i.settings w

/-- Which log lines are kept unless others are wanted. -/
def logDirective (verbose : Bool) : String := if verbose then "solcover=debug" else "solcover=info"

/-- The name and the version of the program. -/
def versionText : String := "solcover 0.1.0\n"

/-- How to use the program. -/
def helpText : String :=
  Screen.ofLines ["Coverage orchestrator for Solidity projects", "",
    "Usage: solcover [--verbose] [--project-dir DIR] [--config FILE] <COMMAND>", "",
    "Commands:", "  init", "  run [--timeout SECONDS] [--output FILE] [--instrumenter COMMAND]",
    "  select", "  clean [--force]"]

/-- The exit code of the program, and the world after it. -/
structure Outcome where
  exitCode : Nat
  world : World

/-- Shows a failure, if there was one. -/
def finish : Result → Outcome
  | (w, .ok ()) => ⟨0, w⟩
  | (w, .error chain) => ⟨1, w.print .errors (Screen.failure chain)⟩

/-- Runs the program with its arguments and environment, in a world at a time. -/
def run (machine : Machine) (time : String) (environment : OrderedMap String String)
    (arguments : List String) (w : World) : Outcome :=
  match Invocation.ofArguments environment arguments with
  | .error .wrong => ⟨2, w.print .errors helpText⟩
  | .error .help => ⟨0, w.print .output helpText⟩
  | .error .version => ⟨0, w.print .output versionText⟩
  | .ok i => finish (carryOut machine time i w)

end CoverRun.CommandLine

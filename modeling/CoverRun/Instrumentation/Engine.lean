import CoverRun.Instrumentation.Exchange
import CoverRun.Text.Blank
import CoverRun.World

/-!
# The instrumentation engine

An engine is a shell command that reads the request and writes the response. It must exit with code
zero within its time limit. Without targets it is not started.
-/

namespace CoverRun

/-- Why an engine failed. -/
inductive EngineError where
  | spawnFailed (command : String) (cause : FileError)
  | failed (code : Int) (errors : String)
  | timedOut (seconds : Nat)
  | invalidResponse
  | missingFile (path : Path)
deriving DecidableEq, Repr

namespace EngineError

/-- The wording of a failed engine. -/
def message : EngineError → String
  | .spawnFailed command cause =>
    "Failed to spawn instrumenter \x60" ++ command ++ "\x60: " ++ cause.message
  | .failed code errors => "Instrumenter exited with code " ++ toString code ++ ": " ++ errors
  | .timedOut seconds => "Instrumenter timed out after " ++ toString seconds ++ " seconds"
  | .invalidResponse => "Instrumenter returned invalid JSON"
  | .missingFile path => "Instrumenter did not return " ++ path.text

/-- The wording and that of its cause. -/
def chain (e : EngineError) : List String :=
  e.message ::
    match e with
    | .spawnFailed _ cause => [cause.message]
    | _ => []

end EngineError

/-- A shell command, the directory it runs in and its time limit in milliseconds. -/
structure Engine where
  command : String
  directory : Path
  limit : Nat

namespace Engine

/-- The shell that runs the command. -/
def shell : String := "sh"

/-- The launch for targets. -/
def launch (engine : Engine) (targets : List SourceFile) : Launch :=
  ⟨shell, ["-c", engine.command], engine.directory, OrderedMap.empty,
    Exchange.request targets, some engine.limit⟩

/-- What an execution of the command means for targets. -/
def judge (engine : Engine) (targets : List SourceFile) (x : Execution) :
    Except EngineError Instrumentation :=
  match x.ending with
  | .exited 0 =>
    match Exchange.response? x.output with
    | none => .error .invalidResponse
    | some returned =>
      match Exchange.assemble targets returned with
      | .ok i => .ok i
      | .error path => .error (.missingFile path)
  | .exited code => .error (.failed code (Blank.trim (Utf8.decodeLenient x.errors)))
  | .signalled => .error (.failed (-1) (Blank.trim (Utf8.decodeLenient x.errors)))
  | .expired => .error (.timedOut (engine.limit / 1000))

/-- Instruments targets. -/
def instrument (engine : Engine) (machine : Machine) (targets : List SourceFile) (w : World) :
    World × Except EngineError Instrumentation :=
  if targets.isEmpty then (w, .ok Instrumentation.empty)
  else
    let w := w.record [.instrumenterStarted]
    match machine (engine.launch targets) w.tree with
    | .error cause => (w, .error (.spawnFailed engine.command cause))
    | .ok x => ({ w with tree := x.tree }, engine.judge targets x)

end Engine

end CoverRun

import CoverRun.Coverage.Tally
import CoverRun.Stage.Command
import CoverRun.Stage.Environment
import CoverRun.Text.Lines
import CoverRun.World

/-!
# Stages

A stage is one process of the project under test. Each line that it writes is forwarded to the
stream of the same kind and, when a tally is given, ingested before. A stage succeeds if its process
exits with code zero within the time limit; at the limit only finished lines have come through.
-/

namespace CoverRun

/-- Why a stage failed. -/
inductive StageError where
  | spawnFailed (stage command : String) (cause : FileError)
  | failed (stage : String) (code : Option Int)
  | timedOut (stage : String) (seconds : Nat)
  | interrupted (stage : String)
deriving DecidableEq, Repr

namespace StageError

/-- The wording of a failed stage. -/
def message : StageError → String
  | .spawnFailed stage command cause =>
    "Failed to spawn " ++ stage ++ " stage \x60" ++ command ++ "\x60: " ++ cause.message
  | .failed stage code =>
    stage ++ " stage failed with exit status " ++
      match code with
      | some n => toString n
      | none => "<signal>"
  | .timedOut stage seconds => stage ++ " stage timed out after " ++ toString seconds ++ " seconds"
  | .interrupted stage => stage ++ " stage interrupted"

/-- The wording and that of its cause. -/
def chain (e : StageError) : List String :=
  e.message ::
    match e with
    | .spawnFailed _ _ cause => [cause.message]
    | _ => []

end StageError

/-- Where stages run: a directory, variables and a time limit in milliseconds. -/
structure StageSite where
  directory : Path
  environment : StageEnvironment
  limit : Option Nat

/-- The end of a stage: the world, the tally if one was given, and the number of lines. -/
structure StageRun where
  world : World
  tally : Option Tally
  result : Except StageError Nat

namespace StageSite

/-- The launch of a command. -/
def launch (site : StageSite) (command : StageCommand) : Launch :=
  ⟨command.program, command.arguments, site.directory, site.environment, [], site.limit⟩

/-- The lines of a stream that come through. -/
def linesOf (ending : Ending) (bytes : Bytes) : List String :=
  match ending with
  | .expired => Lines.ofFinished bytes
  | _ => Lines.ofBytes bytes

/-- The effect of forwarding a line. -/
def forward (stream : OutputStream) (line : String) : Effect := .printed stream (line ++ "\n")

/-- What an ending means for a stage that wrote a number of lines. -/
def judge (site : StageSite) (stage : String) (lines : Nat) : Ending → Except StageError Nat
  | .exited 0 => .ok lines
  | .exited code => .error (.failed stage (some code))
  | .signalled => .error (.failed stage none)
  | .expired => .error (.timedOut stage (site.limit.getD 0 / 1000))

/-- Runs a command once. -/
def run (site : StageSite) (machine : Machine) (command : StageCommand) (tally : Option Tally)
    (w : World) : StageRun :=
  let w := w.record [.stageStarted command.name]
  match machine (site.launch command) w.tree with
  | .error cause => ⟨w, tally, .error (.spawnFailed command.name command.text cause)⟩
  | .ok x =>
    let outputLines := linesOf x.ending x.output
    let errorLines := linesOf x.ending x.errors
    let world : World := { w with tree := x.tree }
    ⟨world.record (outputLines.map (forward .output) ++ errorLines.map (forward .errors) ++
        [.stageEnded command.name x.ending]),
      tally.map fun t => (t.ingestAll outputLines).ingestAll errorLines,
      site.judge command.name (outputLines.length + errorLines.length) x.ending⟩

end StageSite

end CoverRun

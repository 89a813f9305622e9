import CoverRun.Instrumentation.Engine
import CoverRun.Pipeline.Phase
import CoverRun.Plan
import CoverRun.Shadow.Files
import CoverRun.Stage

/-!
# The pipeline

A run selects sources, instruments them, writes all shadows, and then runs the two stages, the
second with a tally of payloads. The first step that fails ends it; nothing is tried again and
nothing undone.
-/

namespace CoverRun

/-- Why a run failed. -/
inductive RunError where
  | selection (e : SelectionError)
  | engine (e : EngineError)
  | shadow (e : ShadowError)
  | stage (e : StageError)
deriving DecidableEq, Repr

namespace RunError

/-- The wording and that of its cause. -/
def chain : RunError → List String
  | .selection e => e.chain
  | .engine e => e.chain
  | .shadow e => e.chain
  | .stage e => e.chain

/-- The wording without the cause. -/
def message (e : RunError) : String := e.chain.headD ""

end RunError

/-- What a run came to: how many sources were instrumented and passed through, the shadows, the
lines of both stages, the sites with their hits, and the counts of the tally. -/
structure RunReport where
  instrumented : Nat
  passedThrough : Nat
  shadows : List Path
  generateLines : Nat
  testLines : Nat
  table : SiteTable
  counts : LineCounts

/-- What a pipeline works with: the plan and the shell command that instruments. -/
structure Pipeline where
  plan : Plan
  engine : Engine

/-- A run so far. -/
structure Run where
  progress : Progress
  world : World

namespace Run

/-- Moves on to a phase. -/
def enter (r : Run) (next : Phase) : Run := { r with progress := r.progress.enter next }

end Run

namespace Pipeline

/-- The number of milliseconds of seconds. -/
def milliseconds (seconds : UInt64) : Nat := seconds.toNat * 1000

/-- The pipeline of a plan with an instrumenting command. -/
def ofPlan (plan : Plan) (command : String) : Pipeline :=
  ⟨plan, ⟨command, plan.project, milliseconds plan.instrumenterLimit⟩⟩

/-- Where the stages of a plan run. -/
def site (p : Pipeline) : StageSite :=
  ⟨p.plan.project, p.plan.environment, p.plan.stageLimit.map milliseconds⟩

/-- Runs the second stage with a tally over the sites of an instrumentation. -/
def test (p : Pipeline) (machine : Machine) (selection : Selection) (i : Instrumentation)
    (shadows : List Path) (generateLines : Nat) (r : Run) : Run × Except RunError RunReport :=
  let r := r.enter .testing
  let tally := Tally.start p.plan.sentinel i.table
  let s := p.site.run machine p.plan.test (some tally) r.world
  let tally := s.tally.getD tally
  ({ r with world := s.world },
    match s.result with
    | .error e => .error (.stage e)
    | .ok lines =>
      .ok ⟨i.files.length, selection.passThrough.length, shadows, generateLines, lines,
        tally.table, tally.counts⟩)

/-- Runs the first stage and goes on. -/
def generate (p : Pipeline) (machine : Machine) (selection : Selection) (i : Instrumentation)
    (shadows : List Path) (r : Run) : Run × Except RunError RunReport :=
  let r := r.enter .generating
  let s := p.site.run machine p.plan.generate none r.world
  let r := { r with world := s.world }
  match s.result with
  | .error e => (r, .error (.stage e))
  | .ok lines => p.test machine selection i shadows lines r

/-- Writes the shadows of an instrumentation and goes on. -/
def write (p : Pipeline) (machine : Machine) (selection : Selection) (i : Instrumentation)
    (r : Run) : Run × Except RunError RunReport :=
  let texts := Instrumentation.shadowTexts i.files selection.passThrough
  let writing := Shadow.writeAll r.world.tree r.world.cwd texts
  let world : World := { r.world with tree := writing.tree }
  let r := { r with world := world.record (writing.written.map .fileWritten) }
  match writing.result with
  | .error e => (r, .error (.shadow e))
  | .ok shadows => p.generate machine selection i shadows r

/-- Instruments a selection and goes on. -/
def instrument (p : Pipeline) (machine : Machine) (selection : Selection) (r : Run) :
    Run × Except RunError RunReport :=
  let r := r.enter .instrumenting
  let (world, result) := p.engine.instrument machine selection.instrument r.world
  let r := { r with world := world }
  match result with
  | .error e => (r, .error (.engine e))
  | .ok i => p.write machine selection i r

/-- Selects sources and goes on. -/
def select (p : Pipeline) (machine : Machine) (r : Run) : Run × Except RunError RunReport :=
  let r := r.enter .selecting
  match Selection.ofRoots r.world.tree r.world.cwd p.plan.extensions p.plan.roots with
  | .error e => (r, .error (.selection e))
  | .ok selection => p.instrument machine selection r

/-- Runs to the end, whatever an earlier run came to. -/
def run (p : Pipeline) (machine : Machine) (r : Run) : Run × Except RunError RunReport :=
  let (r, result) := p.select machine { r with progress := r.progress.restart }
  match result with
  | .ok report => (r.enter .done, .ok report)
  | .error e => (r.enter .failed, .error e)

end Pipeline

end CoverRun

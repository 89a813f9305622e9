import CoverRun.Proofs.Pipeline
import Mathlib.Data.List.Chain
import Mathlib.Data.List.Induction

/-!
# Histories

The phases of a run, in order, are those that its points enter and one of the two at the end
(`Pipeline.history_run`). A phase is among them exactly if the run came to the point that enters it
(`Pipeline.mem_phases_iff`). Since every run ends, the next one starts anew, so that nothing of an
earlier run is left (`Pipeline.run_history`).
-/

namespace CoverRun.Pipeline

section

variable {p : Pipeline} {machine : Machine}

/-! ## Phases and points -/

theorem Step.phases_eq {a b : Point} (h : Step p machine a b) :
    b.phases = a.phases ++ b.entering := by
  rw [Point.phases, Point.phases, h.passed_eq]

theorem Leads.phases_isPrefix {a b : Point} (h : Leads p machine a b) : a.phases <+: b.phases := by
  induction h with
  | refl => exact List.prefix_rfl
  | tail _ step ih =>
      rw [step.phases_eq]
      exact ih.trans (List.prefix_append _ _)

theorem exists_entering {w : World} {a : Point} (h : p.Reaches machine w a) {phase : Phase}
    (hPhase : phase ∈ a.phases) : ∃ b, p.Reaches machine w b ∧ phase ∈ b.entering := by
  induction h with
  | refl => exact ⟨_, .refl, hPhase⟩
  | @tail a b earlier step ih =>
      rw [step.phases_eq, List.mem_append] at hPhase
      rcases hPhase with hPhase | hPhase
      · exact ih hPhase
      · exact ⟨b, .tail earlier step, hPhase⟩

theorem mem_phases_iff {w : World} {a : Point} (ha : p.Reaches machine w a)
    (hEnd : ∀ c, ¬ Step p machine a c) {phase : Phase} :
    phase ∈ a.phases ↔ ∃ b, p.Reaches machine w b ∧ phase ∈ b.entering := by
  constructor
  · exact exists_entering ha
  · rintro ⟨b, hb, hPhase⟩
    have hOwn : phase ∈ b.phases := List.mem_append_right b.passed hPhase
    exact List.IsPrefix.subset (ha.leads hEnd hb).phases_isPrefix hOwn

/-! ## The history of one run -/

/-- A point where a run can end, and the phase that it ends in. -/
inductive EndsIn (p : Pipeline) (machine : Machine) : Point → Phase → Prop
  | failed {a : Point} {w : World} {e : RunError} (h : Failure p machine a w e) :
      EndsIn p machine a .failed
  | done {w : World} {sel : Selection} {i : Instrumentation} {x y : Execution} :
      EndsIn p machine (.tested w sel i x y) .done

theorem EndsIn.not_step {a : Point} {last : Phase} (h : EndsIn p machine a last) (b : Point) :
    ¬ Step p machine a b := by
  intro step
  cases h with
  | failed hFailure => exact hFailure.not_step step
  | done => cases step

/-- The phases up to an end go from one to the next. -/
theorem EndsIn.isChain {a : Point} {last : Phase} (h : EndsIn p machine a last) :
    (.idle :: (a.phases ++ [last])).IsChain fun b c => b.canMoveTo c = true := by
  cases h with
  | failed hFailure => cases hFailure <;> simp [Point.phases, Point.passed, Point.entering,
      Phase.canMoveTo, Phase.isTerminal]
  | done => simp [Point.phases, Point.passed, Point.entering, Phase.canMoveTo]

theorem EndsIn.isTerminal {a : Point} {last : Phase} (h : EndsIn p machine a last) :
    last.isTerminal = true := by
  cases h <;> rfl

theorem idle_not_mem_phases (a : Point) : Phase.idle ∉ a.phases := by
  cases a <;> simp [Point.phases, Point.passed, Point.entering]

theorem EndsIn.mem_history_iff {w : World} {a : Point} {last : Phase}
    (ha : p.Reaches machine w a) (h : EndsIn p machine a last) {phase : Phase}
    (hFirst : phase ≠ .idle) (hLast : phase.isTerminal = false) :
    phase ∈ .idle :: (a.phases ++ [last]) ↔
      ∃ b, p.Reaches machine w b ∧ phase ∈ b.entering := by
  have hNot : phase ≠ last := by
    rintro rfl
    rw [h.isTerminal] at hLast
    cases hLast
  rw [← mem_phases_iff ha h.not_step, List.mem_cons, List.mem_append, List.mem_singleton,
    or_iff_right hFirst, or_iff_left hNot]

theorem enterAll_concat (progress : Progress) (phases : List Phase) (last : Phase) :
    enterAll progress (phases ++ [last]) = ⟨last, progress.history ++ (phases ++ [last])⟩ := by
  rw [enterAll_append, ← List.append_assoc, ← history_enterAll]
  rfl

/-- **The history of a run** are the phases of the point where it ends, and the last one. -/
theorem history_run (p : Pipeline) (machine : Machine) (progress : Progress) (w : World) :
    ∃ a last, p.Reaches machine w a ∧ EndsIn p machine a last ∧
      (p.run machine ⟨progress, w⟩).1.progress =
        ⟨last, progress.restart.history ++ (a.phases ++ [last])⟩ ∧
      (last = .done ↔ ∃ report, (p.run machine ⟨progress, w⟩).2 = .ok report) := by
  rcases p.run_cases machine progress w with
    ⟨a, w', e, ha, hFailure, hRun⟩ | ⟨w', sel, i, x, y, ha, hRun⟩
  · refine ⟨a, .failed, ha, .failed hFailure, ?_, ?_⟩
    · rw [hRun]
      exact enterAll_concat _ _ _
    · simp [hRun]
  · refine ⟨_, .done, ha, .done, ?_, ?_⟩
    · rw [hRun]
      exact enterAll_concat _ _ _
    · simp [hRun]

end

/-! ## Successive runs -/

/-- The progress of a pipeline after runs one after another, each with what the programs and the
files are by then. -/
def progressAfter (p : Pipeline) (calls : List (Machine × World)) : Progress :=
  calls.foldl (fun progress call => (p.run call.1 ⟨progress, call.2⟩).1.progress) Progress.idle

/-- A run starts anew, whatever the runs before it came to. -/
theorem restart_progressAfter (p : Pipeline) (calls : List (Machine × World)) :
    (p.progressAfter calls).restart = Progress.idle := by
  induction calls using List.reverseRecOn with
  | nil => rfl
  | append_singleton calls call _ =>
      obtain ⟨machine, w⟩ := call
      have hLast : p.progressAfter (calls ++ [(machine, w)]) =
          (p.run machine ⟨p.progressAfter calls, w⟩).1.progress := by
        rw [progressAfter, List.foldl_append]
        rfl
      obtain ⟨a, last, -, hEnds, hProgress, -⟩ :=
        p.history_run machine (p.progressAfter calls) w
      have hNot : last ≠ .idle := by
        intro hIdle
        have hTerminal := hEnds.isTerminal
        rw [hIdle] at hTerminal
        cases hTerminal
      rw [hLast, hProgress, Progress.restart, if_neg hNot]

/-! ## Phases and outcomes -/

section

variable {p : Pipeline} {machine : Machine} {w : World}

theorem exists_entering_instrumenting_iff :
    (∃ b, p.Reaches machine w b ∧ .instrumenting ∈ b.entering) ↔
      ∃ sel, Selection.ofRoots w.tree w.cwd p.plan.extensions p.plan.roots = .ok sel := by
  constructor
  · rintro ⟨b, hb, hEntering⟩
    cases b with
    | selected w' sel => exact ⟨sel, (reaches_selected_iff.1 hb).2⟩
    | _ => simp [Point.entering] at hEntering
  · rintro ⟨sel, hSelected⟩
    exact ⟨.selected w sel, reaches_selected_iff.2 ⟨rfl, hSelected⟩, List.mem_cons_self⟩

theorem reaches_written_iff_steps {w' : World} {sel : Selection} {i : Instrumentation} :
    p.Reaches machine w (.written w' sel i) ↔
      Selection.ofRoots w.tree w.cwd p.plan.extensions p.plan.roots = .ok sel ∧
        ∃ w₁, p.engine.instrument machine sel.instrument w = (w₁, .ok i) ∧
          (writing w₁ sel i).failure = none ∧ w' = afterWriting w₁ sel i := by
  simp only [reaches_written_iff, reaches_instrumented_iff, reaches_selected_iff, true_and,
    and_assoc, exists_and_left]

theorem exists_entering_generating_iff :
    (∃ b, p.Reaches machine w b ∧ .generating ∈ b.entering) ↔
      ∃ sel, Selection.ofRoots w.tree w.cwd p.plan.extensions p.plan.roots = .ok sel ∧
        ∃ w₁ i, p.engine.instrument machine sel.instrument w = (w₁, .ok i) ∧
          (writing w₁ sel i).failure = none := by
  constructor
  · rintro ⟨b, hb, hEntering⟩
    cases b with
    | written w' sel i =>
        obtain ⟨hSelected, w₁, hInstrument, hWrite, -⟩ := reaches_written_iff_steps.1 hb
        exact ⟨sel, hSelected, w₁, i, hInstrument, hWrite⟩
    | _ => simp [Point.entering] at hEntering
  · rintro ⟨sel, hSelected, w₁, i, hInstrument, hWrite⟩
    exact ⟨.written _ sel i, reaches_written_iff_steps.2 ⟨hSelected, w₁, hInstrument, hWrite, rfl⟩,
      List.mem_cons_self⟩

theorem exists_entering_testing_iff :
    (∃ b, p.Reaches machine w b ∧ .testing ∈ b.entering) ↔
      ∃ sel, Selection.ofRoots w.tree w.cwd p.plan.extensions p.plan.roots = .ok sel ∧
        ∃ w₁ i, p.engine.instrument machine sel.instrument w = (w₁, .ok i) ∧
          (writing w₁ sel i).failure = none ∧
            ∃ n, (p.site.run machine p.plan.generate none (afterWriting w₁ sel i)).result =
              .ok n := by
  constructor
  · rintro ⟨b, hb, hEntering⟩
    cases b with
    | generated w' sel i x =>
        obtain ⟨w₂, hWritten, hSucceeds, -⟩ := reaches_generated_iff.1 hb
        obtain ⟨hSelected, w₁, hInstrument, hWrite, rfl⟩ := reaches_written_iff_steps.1 hWritten
        exact ⟨sel, hSelected, w₁, i, hInstrument, hWrite,
          (StageSite.exists_succeeds_iff none).1 ⟨x, hSucceeds⟩⟩
    | _ => simp [Point.entering] at hEntering
  · rintro ⟨sel, hSelected, w₁, i, hInstrument, hWrite, hGenerated⟩
    obtain ⟨x, hSucceeds⟩ := (StageSite.exists_succeeds_iff none).2 hGenerated
    have hWritten : p.Reaches machine w (.written (afterWriting w₁ sel i) sel i) :=
      reaches_written_iff_steps.2 ⟨hSelected, w₁, hInstrument, hWrite, rfl⟩
    exact ⟨_, reaches_generated_iff.2 ⟨_, hWritten, hSucceeds, rfl⟩, List.mem_cons_self⟩

end

/-- **The history of each of many runs.** Whatever the runs before came to, a run begins idle and
leaves no trace of them. It moves from phase to phase as it may, to one of the two at the end, which
is `done` exactly if there is a report. It instrumented exactly if the selection succeeded, went on
to the first stage exactly if also all sources were instrumented and all shadows written, and to the
second exactly if also the first one succeeded. -/
theorem run_history (p : Pipeline) (calls : List (Machine × World)) (machine : Machine)
    (w : World) :
    let after := p.run machine ⟨p.progressAfter calls, w⟩
    let phase := after.1.progress.phase
    let history := after.1.progress.history
    after = p.run machine ⟨Progress.idle, w⟩ ∧
      history.head? = some .idle ∧ .idle ∉ history.tail ∧
      history.getLast? = some phase ∧ (history.IsChain fun a b => a.canMoveTo b = true) ∧
      phase.isTerminal = true ∧ (phase = .done ↔ ∃ report, after.2 = .ok report) ∧
      (.instrumenting ∈ history ↔
        ∃ sel, Selection.ofRoots w.tree w.cwd p.plan.extensions p.plan.roots = .ok sel) ∧
      (.generating ∈ history ↔
        ∃ sel, Selection.ofRoots w.tree w.cwd p.plan.extensions p.plan.roots = .ok sel ∧
          ∃ w₁ i, p.engine.instrument machine sel.instrument w = (w₁, .ok i) ∧
            (writing w₁ sel i).failure = none) ∧
      (.testing ∈ history ↔
        ∃ sel, Selection.ofRoots w.tree w.cwd p.plan.extensions p.plan.roots = .ok sel ∧
          ∃ w₁ i, p.engine.instrument machine sel.instrument w = (w₁, .ok i) ∧
            (writing w₁ sel i).failure = none ∧
              ∃ n, (p.site.run machine p.plan.generate none (afterWriting w₁ sel i)).result =
                .ok n) := by
  intro after phase history
  have hAnew : after = p.run machine ⟨Progress.idle, w⟩ := by
    simp only [after, run, p.restart_progressAfter]
    rfl
  obtain ⟨a, last, ha, hEnds, hProgress, hDone⟩ :=
    p.history_run machine (p.progressAfter calls) w
  rw [restart_progressAfter] at hProgress
  have hPhase : phase = last := congrArg Progress.phase hProgress
  have hHistory : history = .idle :: (a.phases ++ [last]) := congrArg Progress.history hProgress
  have hMem {next : Phase} (hFirst : next ≠ .idle) (hLast : next.isTerminal = false) :
      next ∈ history ↔ ∃ b, p.Reaches machine w b ∧ next ∈ b.entering := by
    rw [hHistory]
    exact hEnds.mem_history_iff ha hFirst hLast
  have hLastNot : Phase.idle ≠ last := by
    rintro rfl
    cases hEnds.isTerminal
  refine ⟨hAnew, ?_, ?_, ?_, ?_, ?_, ?_, ?_, ?_, ?_⟩
  · rw [hHistory]
    rfl
  · rw [hHistory, List.tail_cons, List.mem_append, List.mem_singleton]
    exact not_or.2 ⟨idle_not_mem_phases a, hLastNot⟩
  · rw [hHistory, hPhase, ← List.cons_append, List.getLast?_concat]
  · rw [hHistory]
    exact hEnds.isChain
  · rw [hPhase]
    exact hEnds.isTerminal
  · rw [hPhase]
    exact hDone
  · exact (hMem (by decide) rfl).trans exists_entering_instrumenting_iff
  · exact (hMem (by decide) rfl).trans exists_entering_generating_iff
  · exact (hMem (by decide) rfl).trans exists_entering_testing_iff

end CoverRun.Pipeline

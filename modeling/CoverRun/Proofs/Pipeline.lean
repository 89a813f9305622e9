import CoverRun.Pipeline
import CoverRun.Proofs.Shadow
import CoverRun.Proofs.Stage
import Mathlib.Logic.Relation

/-!
# Runs step by step

A run goes through points, each with what the run has by then. A step that succeeds leads to the
next point (`Pipeline.Step`), one that fails ends the run (`Pipeline.Failure`), and there is one or
the other at each point but the last. So a run follows the steps to the point where it ends
(`Pipeline.run_cases`), and any point that can be reached is one that it has passed
(`Pipeline.Reaches.leads`).
-/

namespace CoverRun.Pipeline

/-! ## Points and steps -/

/-- How far a run has come, and what it has by then. -/
inductive Point where
  | ready (w : World)
  | selected (w : World) (sel : Selection)
  | instrumented (w : World) (sel : Selection) (i : Instrumentation)
  | written (w : World) (sel : Selection) (i : Instrumentation)
  | generated (w : World) (sel : Selection) (i : Instrumentation) (x : Execution)
  | tested (w : World) (sel : Selection) (i : Instrumentation) (x y : Execution)

namespace Point

/-- The world at a point. -/
def world : Point → World
  | ready w => w
  | selected w _ => w
  | instrumented w _ _ => w
  | written w _ _ => w
  | generated w _ _ _ => w
  | tested w _ _ _ _ => w

/-- The phases before a point is left. -/
def passed : Point → List Phase
  | ready _ => []
  | selected .. => [.selecting]
  | instrumented .. => [.selecting, .instrumenting]
  | written .. => [.selecting, .instrumenting]
  | generated .. => [.selecting, .instrumenting, .generating]
  | tested .. => [.selecting, .instrumenting, .generating, .testing]

/-- The phase that is entered when a point is left. Writing is no phase of its own. -/
def entering : Point → List Phase
  | ready _ => [.selecting]
  | selected .. => [.instrumenting]
  | instrumented .. => []
  | written .. => [.generating]
  | generated .. => [.testing]
  | tested .. => []

/-- The phases of a run that ends at a point, but for its last one. -/
def phases (a : Point) : List Phase := a.passed ++ a.entering

/-- The number of steps to the last point. -/
def left : Point → Nat
  | ready _ => 5
  | selected .. => 4
  | instrumented .. => 3
  | written .. => 2
  | generated .. => 1
  | tested .. => 0

end Point

/-- What writing the shadows of a selection comes to. -/
def writing (w : World) (sel : Selection) (i : Instrumentation) : Shadow.Writing :=
  Shadow.writeAll w.tree w.cwd (Instrumentation.shadowTexts i.files sel.passThrough)

/-- The world after shadows were written, all or some. -/
def afterWriting (w : World) (sel : Selection) (i : Instrumentation) : World :=
  World.record { w with tree := (writing w sel i).tree }
    ((writing w sel i).written.map .fileWritten)

/-- A step of a run that succeeds. -/
inductive Step (p : Pipeline) (machine : Machine) : Point → Point → Prop
  | select {w : World} {sel : Selection}
      (selects : Selection.ofRoots w.tree w.cwd p.plan.extensions p.plan.roots = .ok sel) :
      Step p machine (.ready w) (.selected w sel)
  | instrument {w w' : World} {sel : Selection} {i : Instrumentation}
      (instruments : p.engine.instrument machine sel.instrument w = (w', .ok i)) :
      Step p machine (.selected w sel) (.instrumented w' sel i)
  | write {w : World} {sel : Selection} {i : Instrumentation}
      (writes : (writing w sel i).failure = none) :
      Step p machine (.instrumented w sel i) (.written (afterWriting w sel i) sel i)
  | generate {w : World} {sel : Selection} {i : Instrumentation} {x : Execution}
      (succeeds : p.site.Succeeds machine p.plan.generate w x) :
      Step p machine (.written w sel i) (.generated (StageSite.after p.plan.generate x w) sel i x)
  | test {w : World} {sel : Selection} {i : Instrumentation} {x y : Execution}
      (succeeds : p.site.Succeeds machine p.plan.test w y) :
      Step p machine (.generated w sel i x) (.tested (StageSite.after p.plan.test y w) sel i x y)

/-- A step of a run that fails, the world after it and the error. -/
inductive Failure (p : Pipeline) (machine : Machine) : Point → World → RunError → Prop
  | select {w : World} {e : SelectionError}
      (fails : Selection.ofRoots w.tree w.cwd p.plan.extensions p.plan.roots = .error e) :
      Failure p machine (.ready w) w (.selection e)
  | instrument {w w' : World} {sel : Selection} {e : EngineError}
      (fails : p.engine.instrument machine sel.instrument w = (w', .error e)) :
      Failure p machine (.selected w sel) w' (.engine e)
  | write {w : World} {sel : Selection} {i : Instrumentation} {e : ShadowError}
      (fails : (writing w sel i).failure = some e) :
      Failure p machine (.instrumented w sel i) (afterWriting w sel i) (.shadow e)
  | generate {w w' : World} {sel : Selection} {i : Instrumentation} {e : StageError}
      (fails : p.site.Fails machine p.plan.generate w w' e) :
      Failure p machine (.written w sel i) w' (.stage e)
  | test {w w' : World} {sel : Selection} {i : Instrumentation} {x : Execution} {e : StageError}
      (fails : p.site.Fails machine p.plan.test w w' e) :
      Failure p machine (.generated w sel i x) w' (.stage e)

/-- Any number of steps. -/
abbrev Leads (p : Pipeline) (machine : Machine) : Point → Point → Prop :=
  Relation.ReflTransGen (Step p machine)

/-- A run that begins in a world comes to a point. -/
def Reaches (p : Pipeline) (machine : Machine) (w : World) (a : Point) : Prop :=
  Leads p machine (.ready w) a

/-- What a run that was tested reports. -/
def report (p : Pipeline) (sel : Selection) (i : Instrumentation) (shadows : List Path)
    (x y : Execution) : RunReport :=
  let tally := (Tally.start p.plan.sentinel i.table).ingestAll (StageSite.linesBy y)
  ⟨i.files.length, sel.passThrough.length, shadows, (StageSite.linesBy x).length,
    (StageSite.linesBy y).length, tally.table, tally.counts⟩

/-- The paths of all shadows of a selection. -/
def shadowPaths (sel : Selection) (i : Instrumentation) : List Path :=
  (Instrumentation.shadowTexts i.files sel.passThrough).map fun s => Shadow.namePath s.source

/-! ## The next step -/

section

variable {p : Pipeline} {machine : Machine}

/-- At each point but the last there is a step, or the run ends. -/
theorem exists_step_or_failure (p : Pipeline) (machine : Machine) (a : Point) :
    (∃ b, Step p machine a b) ∨ (∃ w e, Failure p machine a w e) ∨ a.left = 0 := by
  cases a with
  | ready w =>
      cases hSelect : Selection.ofRoots w.tree w.cwd p.plan.extensions p.plan.roots with
      | ok sel => exact Or.inl ⟨_, .select hSelect⟩
      | error e => exact Or.inr (Or.inl ⟨_, _, .select hSelect⟩)
  | selected w sel =>
      rcases hInstrument : p.engine.instrument machine sel.instrument w with ⟨w', result⟩
      cases result with
      | ok i => exact Or.inl ⟨_, .instrument hInstrument⟩
      | error e => exact Or.inr (Or.inl ⟨_, _, .instrument hInstrument⟩)
  | instrumented w sel i =>
      cases hWrite : (writing w sel i).failure with
      | none => exact Or.inl ⟨_, .write hWrite⟩
      | some e => exact Or.inr (Or.inl ⟨_, _, .write hWrite⟩)
  | written w sel i =>
      rcases p.site.succeeds_or_fails machine p.plan.generate w with ⟨x, hx⟩ | ⟨w', e, hFails⟩
      · exact Or.inl ⟨_, .generate hx⟩
      · exact Or.inr (Or.inl ⟨_, _, .generate hFails⟩)
  | generated w sel i x =>
      rcases p.site.succeeds_or_fails machine p.plan.test w with ⟨y, hy⟩ | ⟨w', e, hFails⟩
      · exact Or.inl ⟨_, .test hy⟩
      · exact Or.inr (Or.inl ⟨_, _, .test hFails⟩)
  | tested w sel i x y => exact Or.inr (Or.inr rfl)

theorem Step.left_lt {a b : Point} (h : Step p machine a b) : b.left < a.left := by
  cases h <;> exact Nat.lt_succ_self _

theorem Step.passed_eq {a b : Point} (h : Step p machine a b) :
    b.passed = a.passed ++ a.entering := by
  cases h <;> rfl

theorem Step.unique {a b c : Point} (hb : Step p machine a b) (hc : Step p machine a c) :
    b = c := by
  cases hb with
  | select selects =>
      cases hc with
      | select selects' => rw [Except.ok.inj (selects.symm.trans selects')]
  | instrument instruments =>
      cases hc with
      | instrument instruments' =>
          obtain ⟨hWorld, hResult⟩ := Prod.mk.inj (instruments.symm.trans instruments')
          rw [hWorld, Except.ok.inj hResult]
  | write writes =>
      cases hc with
      | write writes' => rfl
  | generate succeeds =>
      cases hc with
      | generate succeeds' => rw [succeeds.unique succeeds']
  | test succeeds =>
      cases hc with
      | test succeeds' => rw [succeeds.unique succeeds']

theorem Failure.not_step {a b : Point} {w : World} {e : RunError} (h : Failure p machine a w e) :
    ¬ Step p machine a b := by
  intro hb
  cases h with
  | select fails =>
      cases hb with
      | select selects => cases fails.symm.trans selects
  | instrument fails =>
      cases hb with
      | instrument instruments => cases fails.symm.trans instruments
  | write fails =>
      cases hb with
      | write writes => cases fails.symm.trans writes
  | generate fails =>
      cases hb with
      | generate succeeds => exact fails.not_succeeds _ succeeds
  | test fails =>
      cases hb with
      | test succeeds => exact fails.not_succeeds _ succeeds

theorem exists_end (p : Pipeline) (machine : Machine) (a : Point) : ∃ b, Leads p machine a b ∧
    ((∃ w e, Failure p machine b w e) ∨ b.left = 0) := by
  -- each step leaves fewer to the last point
  induction hn : a.left using Nat.strongRecOn generalizing a with
  | ind n ih =>
    rcases exists_step_or_failure p machine a with ⟨b, hb⟩ | hEnd
    · obtain ⟨c, hc, hEnd⟩ := ih b.left (hn ▸ hb.left_lt) b rfl
      exact ⟨c, .head hb hc, hEnd⟩
    · exact ⟨a, .refl, hEnd⟩

/-- **A run has passed every point that can be reached** when it comes to one without a step. -/
theorem Reaches.leads {w : World} {a b : Point} (ha : p.Reaches machine w a)
    (hEnd : ∀ c, ¬ Step p machine a c) (hb : p.Reaches machine w b) : Leads p machine b a := by
  have hUnique : Relator.RightUnique (Step p machine) := fun _ _ _ => Step.unique
  rcases Relation.ReflTransGen.total_of_right_unique hUnique ha hb with h | h
  · rcases Relation.ReflTransGen.cases_head h with rfl | ⟨c, hc, -⟩
    · exact .refl
    · exact absurd hc (hEnd c)
  · exact h

end

/-! ## What a run comes to -/

/-- Moves on through phases. -/
def enterAll (progress : Progress) (phases : List Phase) : Progress :=
  phases.foldl Progress.enter progress

theorem enterAll_append (progress : Progress) (phases phases' : List Phase) :
    enterAll progress (phases ++ phases') = enterAll (enterAll progress phases) phases' :=
  List.foldl_append ..

theorem history_enterAll (progress : Progress) (phases : List Phase) :
    (enterAll progress phases).history = progress.history ++ phases := by
  induction phases generalizing progress with
  | nil => exact (List.append_nil _).symm
  | cons phase phases ih =>
      change (enterAll (progress.enter phase) phases).history = _
      rw [ih, Progress.enter, List.append_assoc]
      rfl

/-- How a run goes on from a point. -/
def resume (p : Pipeline) (machine : Machine) (progress : Progress) :
    Point → Run × Except RunError RunReport
  | .ready w => p.select machine ⟨progress, w⟩
  | .selected w sel => p.instrument machine sel ⟨progress, w⟩
  | .instrumented w sel i => p.write machine sel i ⟨progress, w⟩
  | .written w sel i => p.generate machine sel i (shadowPaths sel i) ⟨progress, w⟩
  | .generated w sel i x =>
    p.test machine sel i (shadowPaths sel i) (StageSite.linesBy x).length ⟨progress, w⟩
  | .tested w sel i x y => (⟨progress, w⟩, .ok (p.report sel i (shadowPaths sel i) x y))

section

variable {p : Pipeline} {machine : Machine}

theorem resume_step {a b : Point} (h : Step p machine a b) (progress : Progress) :
    p.resume machine progress a = p.resume machine (enterAll progress a.entering) b := by
  cases h with
  | @select w sel selects =>
      rw [resume, select]
      simp only [Run.enter, selects]
      rfl
  | @instrument w w' sel i instruments =>
      rw [resume, instrument]
      simp only [Run.enter, instruments]
      rfl
  | @write w sel i writes =>
      have hShadows := Shadow.written_writeAll.2 writes
      have hResult : (writing w sel i).result = .ok (shadowPaths sel i) := by
        rw [Shadow.Writing.result, writes]
        exact congrArg Except.ok hShadows
      rw [writing] at hResult
      rw [resume, write]
      simp only [hResult]
      rfl
  | @generate w sel i x succeeds =>
      rw [resume, generate]
      simp only [Run.enter, StageSite.run_of_succeeds succeeds]
      rfl
  | @test w sel i x y succeeds =>
      rw [resume, test]
      simp only [Run.enter, StageSite.run_of_succeeds succeeds]
      rfl

theorem resume_failure {a : Point} {w : World} {e : RunError} (h : Failure p machine a w e)
    (progress : Progress) :
    p.resume machine progress a = (⟨enterAll progress a.entering, w⟩, .error e) := by
  cases h with
  | select fails =>
      rw [resume, select]
      simp only [Run.enter, fails]
      rfl
  | instrument fails =>
      rw [resume, instrument]
      simp only [Run.enter, fails]
      rfl
  | @write w sel i e fails =>
      have hResult : (writing w sel i).result = .error e := by
        rw [Shadow.Writing.result, fails]
      rw [writing] at hResult
      rw [resume, write]
      simp only [hResult]
      rfl
  | generate fails =>
      obtain ⟨tally, hRun⟩ := StageSite.run_of_fails fails none
      rw [resume, generate]
      simp only [Run.enter, hRun]
      rfl
  | @test w w' sel i x e fails =>
      obtain ⟨tally, hRun⟩ :=
        StageSite.run_of_fails fails (some (Tally.start p.plan.sentinel i.table))
      rw [resume, test]
      simp only [Run.enter, hRun]
      rfl

/-- A run goes on from every point that it comes to. -/
theorem select_eq_resume {w : World} {a : Point} (h : p.Reaches machine w a)
    (progress : Progress) :
    p.select machine ⟨progress, w⟩ = p.resume machine (enterAll progress a.passed) a := by
  induction h with
  | refl => rfl
  | @tail a b _ step ih =>
      rw [ih, resume_step step, step.passed_eq, enterAll_append]

theorem run_of_failure {w w' : World} {a : Point} {e : RunError} (ha : p.Reaches machine w a)
    (h : Failure p machine a w' e) (progress : Progress) :
    p.run machine ⟨progress, w⟩ =
      (⟨enterAll progress.restart (a.phases ++ [.failed]), w'⟩, .error e) := by
  rw [run]
  simp only [select_eq_resume ha, resume_failure h, ← enterAll_append]
  rw [Point.phases, enterAll_append _ _ [.failed]]
  rfl

theorem run_of_tested {w w' : World} {sel : Selection} {i : Instrumentation} {x y : Execution}
    (h : p.Reaches machine w (.tested w' sel i x y)) (progress : Progress) :
    p.run machine ⟨progress, w⟩ =
      (⟨enterAll progress.restart ((Point.tested w' sel i x y).phases ++ [.done]), w'⟩,
        .ok (p.report sel i (shadowPaths sel i) x y)) := by
  rw [run]
  simp only [select_eq_resume h, resume]
  rw [Point.phases, enterAll_append _ _ [.done]]
  rfl

/-- **What a run comes to.** It fails at a point that it came to, or it is tested. -/
theorem run_cases (p : Pipeline) (machine : Machine) (progress : Progress) (w : World) :
    (∃ a w' e, p.Reaches machine w a ∧ Failure p machine a w' e ∧
      p.run machine ⟨progress, w⟩ =
        (⟨enterAll progress.restart (a.phases ++ [.failed]), w'⟩, .error e)) ∨
      ∃ w' sel i x y, p.Reaches machine w (.tested w' sel i x y) ∧
        p.run machine ⟨progress, w⟩ =
          (⟨enterAll progress.restart ((Point.tested w' sel i x y).phases ++ [.done]), w'⟩,
            .ok (p.report sel i (shadowPaths sel i) x y)) := by
  obtain ⟨a, ha, ⟨w', e, hFailure⟩ | hLast⟩ := exists_end p machine (.ready w)
  · exact Or.inl ⟨a, w', e, ha, hFailure, run_of_failure ha hFailure progress⟩
  · cases a with
    | tested w' sel i x y => exact Or.inr ⟨w', sel, i, x, y, ha, run_of_tested ha progress⟩
    | _ => cases hLast

end

/-! ## Points that are reached -/

section

variable {p : Pipeline} {machine : Machine} {w w' : World} {sel : Selection} {i : Instrumentation}
  {x y : Execution}

theorem reaches_selected_iff :
    p.Reaches machine w (.selected w' sel) ↔
      w' = w ∧ Selection.ofRoots w.tree w.cwd p.plan.extensions p.plan.roots = .ok sel := by
  constructor
  · intro h
    rcases Relation.ReflTransGen.cases_tail h with h | ⟨a, ha, step⟩
    · cases h
    · cases step with
      | select selects =>
          rcases Relation.ReflTransGen.cases_tail ha with ha | ⟨b, -, step⟩
          · cases ha
            exact ⟨rfl, selects⟩
          · cases step
  · rintro ⟨rfl, selects⟩
    exact .single (.select selects)

theorem reaches_instrumented_iff :
    p.Reaches machine w (.instrumented w' sel i) ↔ p.Reaches machine w (.selected w sel) ∧
      p.engine.instrument machine sel.instrument w = (w', .ok i) := by
  constructor
  · intro h
    rcases Relation.ReflTransGen.cases_tail h with h | ⟨a, ha, step⟩
    · cases h
    · cases step with
      | instrument instruments =>
          obtain ⟨rfl, -⟩ := reaches_selected_iff.1 ha
          exact ⟨ha, instruments⟩
  · rintro ⟨ha, instruments⟩
    exact .tail ha (.instrument instruments)

theorem reaches_written_iff :
    p.Reaches machine w (.written w' sel i) ↔ ∃ w₁, p.Reaches machine w (.instrumented w₁ sel i) ∧
      (writing w₁ sel i).failure = none ∧ w' = afterWriting w₁ sel i := by
  constructor
  · intro h
    rcases Relation.ReflTransGen.cases_tail h with h | ⟨a, ha, step⟩
    · cases h
    · cases step with
      | write writes => exact ⟨_, ha, writes, rfl⟩
  · rintro ⟨w₁, ha, writes, rfl⟩
    exact .tail ha (.write writes)

theorem reaches_generated_iff :
    p.Reaches machine w (.generated w' sel i x) ↔ ∃ w₁, p.Reaches machine w (.written w₁ sel i) ∧
      p.site.Succeeds machine p.plan.generate w₁ x ∧
        w' = StageSite.after p.plan.generate x w₁ := by
  constructor
  · intro h
    rcases Relation.ReflTransGen.cases_tail h with h | ⟨a, ha, step⟩
    · cases h
    · cases step with
      | generate succeeds => exact ⟨_, ha, succeeds, rfl⟩
  · rintro ⟨w₁, ha, succeeds, rfl⟩
    exact .tail ha (.generate succeeds)

theorem reaches_tested_iff :
    p.Reaches machine w (.tested w' sel i x y) ↔ ∃ w₁,
      p.Reaches machine w (.generated w₁ sel i x) ∧ p.site.Succeeds machine p.plan.test w₁ y ∧
        w' = StageSite.after p.plan.test y w₁ := by
  constructor
  · intro h
    rcases Relation.ReflTransGen.cases_tail h with h | ⟨a, ha, step⟩
    · cases h
    · cases step with
      | test succeeds => exact ⟨_, ha, succeeds, rfl⟩
  · rintro ⟨w₁, ha, succeeds, rfl⟩
    exact .tail ha (.test succeeds)

end

end CoverRun.Pipeline

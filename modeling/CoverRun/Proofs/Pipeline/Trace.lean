import CoverRun.Proofs.Instrumentation
import CoverRun.Proofs.Pipeline

/-!
# What a run does

The journal at a point is the trace of the point: the instrumenter, the shadows and the stages, as
far as the run has come (`Pipeline.Reaches.journal_eq`). The step that ends a run adds what its
point allows. So whatever a run does tells of a point that it came to, and no file is written once
a stage was started (`Pipeline.Traces`). The tree is what the step left that ended the run
(`Pipeline.Failure.tree_eq`).
-/

namespace CoverRun.Pipeline

namespace Point

/-- What was done before the stages when a run comes to a point. -/
def prepared : Point → List Effect
  | ready _ => []
  | selected .. => []
  | instrumented _ sel _ => Engine.effects sel.instrument
  | written _ sel i => Engine.effects sel.instrument ++ (shadowPaths sel i).map .fileWritten
  | generated _ sel i _ => Engine.effects sel.instrument ++ (shadowPaths sel i).map .fileWritten
  | tested _ sel i _ _ => Engine.effects sel.instrument ++ (shadowPaths sel i).map .fileWritten

/-- What the stages did when a run comes to a point. -/
def staged (p : Pipeline) : Point → List Effect
  | generated _ _ _ x => StageSite.effects p.plan.generate x
  | tested _ _ _ x y => StageSite.effects p.plan.generate x ++ StageSite.effects p.plan.test y
  | _ => []

/-- All that was done when a run comes to a point. -/
def trace (p : Pipeline) (a : Point) : List Effect := a.prepared ++ a.staged p

/-- What the step from a point may do. -/
inductive May (p : Pipeline) : Point → Effect → Prop
  | instrument {w : World} {sel : Selection} : May p (.selected w sel) .instrumenterStarted
  | write {w : World} {sel : Selection} {i : Instrumentation} {path : Path}
      (mem : path ∈ shadowPaths sel i) : May p (.instrumented w sel i) (.fileWritten path)
  | generate {w : World} {sel : Selection} {i : Instrumentation} {e : Effect}
      (ofStage : e.OfStage p.plan.generate.name) : May p (.written w sel i) e
  | test {w : World} {sel : Selection} {i : Instrumentation} {x : Execution} {e : Effect}
      (ofStage : e.OfStage p.plan.test.name) : May p (.generated w sel i x) e

theorem may_of_mem_effects {p : Pipeline} {w : World} {sel : Selection} {e : Effect}
    (h : e ∈ Engine.effects sel.instrument) : May p (.selected w sel) e := by
  rw [Engine.effects] at h
  split at h
  · cases h
  · rw [List.mem_singleton.1 h]
    exact .instrument

theorem may_of_mem_map {p : Pipeline} {w : World} {sel : Selection} {i : Instrumentation}
    {paths : List Path} (hPaths : paths <+: shadowPaths sel i) {e : Effect}
    (h : e ∈ paths.map .fileWritten) : May p (.instrumented w sel i) e := by
  obtain ⟨path, hPath, rfl⟩ := List.mem_map.1 h
  exact .write (List.IsPrefix.subset hPaths hPath)

end Point

section

variable {p : Pipeline} {machine : Machine}

/-! ## Steps -/

theorem written_afterWriting {w : World} {sel : Selection} {i : Instrumentation} :
    (writing w sel i).written <+: shadowPaths sel i ∧
      ((writing w sel i).failure = none → (writing w sel i).written = shadowPaths sel i) :=
  Shadow.written_writeAll

/-- **What a step does** is what its point allows. -/
theorem Step.exists_added {a b : Point} (h : Step p machine a b) :
    ∃ added, b.world.journal = a.world.journal ++ added ∧ b.trace p = a.trace p ++ added ∧
      ∀ e ∈ added, a.May p e := by
  cases h with
  | select selects => exact ⟨[], (List.append_nil _).symm, rfl, by simp⟩
  | @instrument w w' sel i instruments =>
      have hJournal := p.engine.journal_instrument machine sel.instrument w
      rw [instruments] at hJournal
      exact ⟨_, hJournal, List.append_nil _, fun e => Point.may_of_mem_effects⟩
  | @write w sel i writes =>
      have hWritten := written_afterWriting.2 writes
      refine ⟨(shadowPaths sel i).map .fileWritten, ?_, ?_,
        fun e => Point.may_of_mem_map List.prefix_rfl⟩
      · rw [← hWritten]
        rfl
      · simp only [Point.trace, Point.prepared, Point.staged, List.append_nil]
  | @generate w sel i x succeeds =>
      refine ⟨StageSite.effects p.plan.generate x, rfl, ?_,
        fun e he => .generate (StageSite.ofStage_of_mem_effects he)⟩
      simp only [Point.trace, Point.prepared, Point.staged, List.append_nil]
  | @test w sel i x y succeeds =>
      refine ⟨StageSite.effects p.plan.test y, rfl, ?_,
        fun e he => .test (StageSite.ofStage_of_mem_effects he)⟩
      simp only [Point.trace, Point.prepared, Point.staged, List.append_assoc]

theorem Failure.exists_added {a : Point} {w : World} {e : RunError} (h : Failure p machine a w e) :
    ∃ added, w.journal = a.world.journal ++ added ∧ ∀ f ∈ added, a.May p f := by
  cases h with
  | select fails => exact ⟨[], (List.append_nil _).symm, by simp⟩
  | @instrument w w' sel e fails =>
      have hJournal := p.engine.journal_instrument machine sel.instrument w
      rw [fails] at hJournal
      exact ⟨_, hJournal, fun e => Point.may_of_mem_effects⟩
  | @write w sel i e fails =>
      exact ⟨_, rfl, fun e => Point.may_of_mem_map written_afterWriting.1⟩
  | generate fails =>
      obtain ⟨added, hJournal, hAdded⟩ := fails.exists_effects
      exact ⟨added, hJournal, fun f hf => .generate (hAdded f hf)⟩
  | test fails =>
      obtain ⟨added, hJournal, hAdded⟩ := fails.exists_effects
      exact ⟨added, hJournal, fun f hf => .test (hAdded f hf)⟩

/-! ## Runs -/

/-- **The journal at a point is the trace of the point.** -/
theorem Reaches.journal_eq {w : World} {a : Point} (h : p.Reaches machine w a) :
    a.world.journal = w.journal ++ a.trace p := by
  induction h with
  | refl => exact (List.append_nil _).symm
  | tail _ step ih =>
      obtain ⟨added, hJournal, hTrace, -⟩ := step.exists_added
      rw [hJournal, ih, hTrace, List.append_assoc]

theorem Reaches.exists_may {w : World} {a : Point} (h : p.Reaches machine w a) {e : Effect}
    (he : e ∈ a.trace p) : ∃ b, p.Reaches machine w b ∧ b.May p e := by
  induction h with
  | refl => cases he
  | @tail a b earlier step ih =>
      obtain ⟨added, -, hTrace, hAdded⟩ := step.exists_added
      rw [hTrace, List.mem_append] at he
      rcases he with he | he
      · exact ih he
      · exact ⟨a, earlier, hAdded e he⟩

/-- Effects that a run can have: each was allowed at a point that it came to, and no file was
written once a stage was started. -/
structure Traces (p : Pipeline) (machine : Machine) (w : World) (effects : List Effect) : Prop where
  allowed : ∀ e ∈ effects, ∃ b, p.Reaches machine w b ∧ b.May p e
  apart : effects.Pairwise fun e f => ∀ stage path, e = .stageStarted stage → f ≠ .fileWritten path

theorem pairwise_of_apart {early late : List Effect}
    (hEarly : ∀ stage, .stageStarted stage ∉ early) (hLate : ∀ path, .fileWritten path ∉ late) :
    (early ++ late).Pairwise fun e f => ∀ stage path, e = .stageStarted stage →
      f ≠ .fileWritten path := by
  refine List.pairwise_append.2 ⟨?_, ?_, ?_⟩
  · refine List.pairwise_of_forall_mem_list fun e he f _ stage path hStage => ?_
    exact absurd (hStage ▸ he) (hEarly stage)
  · refine List.pairwise_of_forall_mem_list fun e _ f hf stage path _ hPath => ?_
    exact absurd (hPath ▸ hf) (hLate path)
  · intro e he f _ stage path hStage
    exact absurd (hStage ▸ he) (hEarly stage)

theorem stageStarted_not_mem_prepared (a : Point) (stage : String) :
    .stageStarted stage ∉ a.prepared := by
  have hEngine (targets : List SourceFile) : .stageStarted stage ∉ Engine.effects targets := by
    rw [Engine.effects]
    split <;> simp
  cases a <;> simp [Point.prepared, hEngine]

theorem fileWritten_not_mem_staged (a : Point) (path : Path) :
    .fileWritten path ∉ a.staged p := by
  have hStage (command : StageCommand) (x : Execution) :
      .fileWritten path ∉ StageSite.effects command x := by
    intro h
    cases StageSite.ofStage_of_mem_effects h
  cases a <;> simp [Point.staged, hStage]

theorem Reaches.traces {w : World} {a : Point} (h : p.Reaches machine w a) :
    Traces p machine w (a.trace p) :=
  ⟨fun _ => h.exists_may,
    pairwise_of_apart (stageStarted_not_mem_prepared a) (fileWritten_not_mem_staged a)⟩

/-- Nothing but a file is written by a point without stages, nothing but a stage by one with. -/
theorem Point.May.apart {a : Point} {added : List Effect} (h : ∀ e ∈ added, a.May p e) :
    (a.staged p = [] ∧ ∀ stage, .stageStarted stage ∉ added) ∨
      ∀ path, .fileWritten path ∉ added := by
  cases a with
  | ready w => exact Or.inr fun path hPath => by cases h _ hPath
  | selected w sel => exact Or.inr fun path hPath => by cases h _ hPath
  | instrumented w sel i => exact Or.inl ⟨rfl, fun stage hStage => by cases h _ hStage⟩
  | written w sel i =>
      refine Or.inr fun path hPath => ?_
      cases h _ hPath with
      | generate ofStage => cases ofStage
  | generated w sel i x =>
      refine Or.inr fun path hPath => ?_
      cases h _ hPath with
      | test ofStage => cases ofStage
  | tested w sel i x y => exact Or.inr fun path hPath => by cases h _ hPath

/-- **What a run does that fails.** -/
theorem Failure.exists_traces {w w' : World} {a : Point} {e : RunError}
    (ha : p.Reaches machine w a) (h : Failure p machine a w' e) :
    ∃ effects, w'.journal = w.journal ++ effects ∧ Traces p machine w effects := by
  obtain ⟨added, hJournal, hAdded⟩ := h.exists_added
  refine ⟨a.trace p ++ added, ?_, ?_, ?_⟩
  · rw [hJournal, ha.journal_eq, List.append_assoc]
  · intro f hf
    rcases List.mem_append.1 hf with hf | hf
    · exact ha.exists_may hf
    · exact ⟨a, ha, hAdded f hf⟩
  · rcases Point.May.apart hAdded with ⟨hNone, hAdded⟩ | hAdded
    · have hEarly (stage : String) : .stageStarted stage ∉ a.prepared ++ added := fun hMem =>
        (List.mem_append.1 hMem).elim (stageStarted_not_mem_prepared a stage) (hAdded stage)
      rw [Point.trace, hNone, List.append_nil, ← List.append_nil (a.prepared ++ added)]
      exact pairwise_of_apart hEarly (by simp)
    · have hLate (path : Path) : .fileWritten path ∉ a.staged p ++ added := fun hMem =>
        (List.mem_append.1 hMem).elim (fileWritten_not_mem_staged a path) (hAdded path)
      rw [Point.trace, List.append_assoc]
      exact pairwise_of_apart (stageStarted_not_mem_prepared a) hLate

/-! ## What is left -/

/-- The tree that a step which fails at a point leaves: that of the point, after the command that
was to run, or with the shadows that were written. -/
def Point.remains (p : Pipeline) (machine : Machine) : Point → FileTree
  | .ready w => w.tree
  | .selected w sel => treeAfter machine (p.engine.launch sel.instrument) w.tree
  | .instrumented w sel i => (writing w sel i).tree
  | .written w _ _ => treeAfter machine (p.site.launch p.plan.generate) w.tree
  | .generated w _ _ _ => treeAfter machine (p.site.launch p.plan.test) w.tree
  | .tested w _ _ _ _ => w.tree

theorem tree_of_instrument_error {w w' : World} {targets : List SourceFile} {e : EngineError}
    (h : p.engine.instrument machine targets w = (w', .error e)) :
    w'.tree = treeAfter machine (p.engine.launch targets) w.tree := by
  rw [Engine.instrument] at h
  split at h
  · cases (Prod.mk.inj h).2
  · simp only [World.tree_record] at h
    rw [treeAfter]
    cases hStart : machine (p.engine.launch targets) w.tree with
    | error cause =>
        simp only [hStart] at h
        rw [← (Prod.mk.inj h).1, World.tree_record]
    | ok x =>
        simp only [hStart] at h
        rw [← (Prod.mk.inj h).1]

/-- **What a run that fails leaves.** -/
theorem Failure.tree_eq {a : Point} {w : World} {e : RunError} (h : Failure p machine a w e) :
    w.tree = a.remains p machine := by
  cases h with
  | select fails => rfl
  | instrument fails => exact tree_of_instrument_error fails
  | write fails => rfl
  | generate fails => exact fails.tree_eq
  | test fails => exact fails.tree_eq

/-! ## What effects tell -/

namespace Traces

variable {w : World} {effects : List Effect}

theorem exists_instrumented (h : Traces p machine w effects) {path : Path}
    (hMem : .fileWritten path ∈ effects) : ∃ w₁ sel i,
      p.Reaches machine w (.instrumented w₁ sel i) ∧ path ∈ shadowPaths sel i := by
  obtain ⟨b, hb, hMay⟩ := h.allowed _ hMem
  cases hMay with
  | @write w₁ sel i _ mem => exact ⟨w₁, sel, i, hb, mem⟩
  | generate ofStage => cases ofStage
  | test ofStage => cases ofStage

theorem exists_written (h : Traces p machine w effects) {stage : String}
    (hMem : .stageStarted stage ∈ effects) :
    (∃ w₁ sel i, p.Reaches machine w (.written w₁ sel i)) ∧
      (stage = p.plan.generate.name ∨
        ∃ w₁ sel i x, p.Reaches machine w (.generated w₁ sel i x)) := by
  obtain ⟨b, hb, hMay⟩ := h.allowed _ hMem
  cases hMay with
  | @generate w₁ sel i _ ofStage =>
      refine ⟨⟨w₁, sel, i, hb⟩, Or.inl ?_⟩
      cases ofStage
      rfl
  | @test w₁ sel i x _ ofStage =>
      obtain ⟨w₂, hWritten, -⟩ := reaches_generated_iff.1 hb
      exact ⟨⟨w₂, sel, i, hWritten⟩, Or.inr ⟨w₁, sel, i, x, hb⟩⟩

theorem not_mem_of_isPrefix (h : Traces p machine w effects) {before : List Effect} {path : Path}
    (hPrefix : before ++ [.fileWritten path] <+: effects) (stage : String) :
    .stageStarted stage ∉ before := by
  obtain ⟨rest, rfl⟩ := hPrefix
  have hBefore := (List.pairwise_append.1 (List.pairwise_append.1 h.apart).1).2.2
  intro hStage
  exact hBefore _ hStage _ List.mem_cons_self stage path rfl rfl

end Traces

end

end CoverRun.Pipeline

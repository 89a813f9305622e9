import CoverRun.Plan
import CoverRun.Proofs.Outcome
import CoverRun.Proofs.Path

/-!
# Accepted settings

Settings make a plan exactly if every check passes (`Plan.ofSettings_eq_ok_iff`). The roots of a
plan are those of the settings, resolved, and no two of them are the same (`Plan.rootsOf_spec`).
-/

namespace CoverRun.Plan

open Outcome

/-! ## Checks -/

/-- The settings pass every check and come to this plan. -/
structure Accepts (project : Path) (s : Settings) (o : Overrides) (plan : Plan) : Prop where
  project_eq : plan.project = project
  roots : rootsOf project s.roots = .ok plan.roots
  generate : commandOf .generate s.stages.generate = .ok plan.generate
  test : commandOf .test s.stages.test = .ok plan.test
  sentinel : s.coverage.sentinel ≠ ""
  flag : isFlag s.coverage.flag = true
  extensions : extensionsOf s.instrumenter.extensions ≠ []
  extensions_eq : plan.extensions = extensionsOf s.instrumenter.extensions
  stageLimit_eq : plan.stageLimit = (either o.timeout s.stages.timeout).filter (· != 0)
  environment_eq : plan.environment = environmentOf s.stages.environment s.coverage.flag
  sentinel_eq : plan.sentinel = s.coverage.sentinel
  output_eq : plan.output = resolve project (o.output.getD s.coverage.output)
  instrumenter_eq : plan.instrumenter =
    (either o.instrumenter s.instrumenter.command).filter fun c => !Blank.isBlankText c
  instrumenterLimit_eq : plan.instrumenterLimit =
    if s.instrumenter.timeout = 0 then 1 else s.instrumenter.timeout

/-- **Settings make a plan exactly if they pass every check.** -/
theorem ofSettings_eq_ok_iff {project : Path} {s : Settings} {o : Overrides} {plan : Plan} :
    ofSettings project s o = .ok plan ↔ Accepts project s o plan := by
  constructor
  · intro h
    rw [ofSettings] at h
    cases hRoots : rootsOf project s.roots with
    | error e => rw [hRoots] at h; cases h
    | ok roots =>
    cases hGenerate : commandOf .generate s.stages.generate with
    | error e => rw [hRoots, hGenerate] at h; cases h
    | ok generate =>
    cases hTest : commandOf .test s.stages.test with
    | error e => rw [hRoots, hGenerate, hTest] at h; cases h
    | ok test =>
    rw [hRoots, hGenerate, hTest] at h
    simp only [bind, Except.bind, pure, Except.pure] at h
    by_cases hSentinel : s.coverage.sentinel = ""
    · rw [if_pos hSentinel] at h
      cases h
    rw [if_neg hSentinel] at h
    by_cases hFlag : isFlag s.coverage.flag = true
    · by_cases hExtensions : extensionsOf s.instrumenter.extensions = []
      · rw [hFlag, hExtensions] at h
        cases h
      · rw [hFlag, if_neg hExtensions] at h
        obtain rfl := Except.ok.inj h
        exact ⟨rfl, hRoots, hGenerate, hTest, hSentinel, hFlag, hExtensions, rfl, rfl, rfl, rfl,
          rfl, rfl, rfl⟩
    · rw [Bool.not_eq_true] at hFlag
      rw [hFlag] at h
      cases h
  · intro h
    obtain ⟨project, roots, extensions, generate, test, stageLimit, environment, sentinel, output,
      instrumenter, instrumenterLimit⟩ := plan
    obtain ⟨hProject, hRoots, hGenerate, hTest, hSentinel, hFlag, hExtensions, hBare, hLimit,
      hEnvironment, hPlanSentinel, hOutput, hInstrumenter, hInstrumenterLimit⟩ := h
    simp only at *
    subst hProject hBare hLimit hEnvironment hPlanSentinel hOutput hInstrumenter hInstrumenterLimit
    rw [ofSettings, hRoots, hGenerate, hTest]
    simp only [bind, Except.bind, pure, Except.pure, hFlag, if_neg hSentinel, if_neg hExtensions]
    rfl

/-! ## Roots -/

theorem components_resolve (project path : Path) :
    (resolve project path).components = (project.join path).components :=
  Path.components_ofComponents (Path.isWritten_components _)

theorem ofComponents_resolve (project path : Path) :
    Path.ofComponents (resolve project path).components = resolve project path := by
  rw [components_resolve]
  rfl

theorem path_of_ofTexts {path : Path} {texts : List String} {root : SourceRoot}
    (h : SourceRoot.ofTexts path texts = .ok root) : root.path = path := by
  obtain ⟨skip, -, hRoot⟩ := bind_eq_ok_iff.1 h
  exact congrArg SourceRoot.path (Except.ok.inj hRoot).symm

/-- The roots are read one by one, and no two lead to the same place, nor one to a place that was
seen. -/
theorem rootsFrom_spec {project : Path} {seen : List Path} {rs : List RootSettings}
    {roots : List SourceRoot} (h : rootsFrom project seen rs = .ok roots) :
    List.Forall₂ (fun r root => SourceRoot.ofTexts (resolve project r.path) r.skip = .ok root)
        rs roots ∧
      (roots.map (·.path.normalize)).Nodup ∧ ∀ root ∈ roots, root.path.normalize ∉ seen := by
  induction rs generalizing seen roots with
  | nil =>
      cases h
      simp
  | cons r rs ih =>
      rw [rootsFrom] at h
      split at h
      · cases h
      · next hNew =>
        split at h
        · cases h
        · next root hRoot =>
          obtain ⟨rest, hRest, hEq⟩ := bind_eq_ok_iff.1 h
          obtain rfl := Except.ok.inj hEq
          obtain ⟨hRead, hNodup, hUnseen⟩ := ih hRest
          have hPath : root.path = resolve project r.path := path_of_ofTexts hRoot
          refine ⟨.cons hRoot hRead, ?_, ?_⟩
          · rw [List.map_cons, List.nodup_cons]
            refine ⟨fun hMem => ?_, hNodup⟩
            obtain ⟨other, hOther, hSame⟩ := List.mem_map.1 hMem
            refine hUnseen other hOther ?_
            rw [hSame, hPath]
            exact List.mem_cons_self
          · intro other hOther
            rcases List.mem_cons.1 hOther with rfl | hOther
            · rwa [hPath]
            · exact fun hMem => hUnseen other hOther (List.mem_cons_of_mem _ hMem)

theorem rootsOf_eq_ok_iff {project : Path} {rs : List RootSettings} {roots : List SourceRoot} :
    rootsOf project rs = .ok roots ↔ rs ≠ [] ∧ rootsFrom project [] rs = .ok roots := by
  rw [rootsOf]
  by_cases h : rs = [] <;> simp [h]

/-- **The roots of a plan are those of the settings, and no two lead to the same place by their
text.** -/
theorem rootsOf_spec {project : Path} {rs : List RootSettings} {roots : List SourceRoot}
    (h : rootsOf project rs = .ok roots) :
    roots.map (·.path) = rs.map (fun r => resolve project r.path) ∧
      (roots.map (·.path.normalize)).Nodup := by
  obtain ⟨hRead, hNodup, -⟩ := rootsFrom_spec (rootsOf_eq_ok_iff.1 h).2
  refine ⟨?_, hNodup⟩
  rw [← List.forall₂_eq_eq_eq, List.forall₂_map_left_iff, List.forall₂_map_right_iff]
  exact (hRead.imp fun _ _ => path_of_ofTexts).flip

theorem Accepts.exists_resolve {project : Path} {s : Settings} {o : Overrides} {plan : Plan}
    (h : Accepts project s o plan) {root : SourceRoot} (hRoot : root ∈ plan.roots) :
    ∃ r ∈ s.roots, root.path = resolve project r.path := by
  have hMem : root.path ∈ s.roots.map fun r => resolve project r.path :=
    (rootsOf_spec h.roots).1 ▸ List.mem_map_of_mem hRoot
  obtain ⟨r, hr, hPath⟩ := List.mem_map.1 hMem
  exact ⟨r, hr, hPath.symm⟩

theorem Accepts.ofComponents_root {project : Path} {s : Settings} {o : Overrides} {plan : Plan}
    (h : Accepts project s o plan) {root : SourceRoot} (hRoot : root ∈ plan.roots) :
    Path.ofComponents root.path.components = root.path := by
  obtain ⟨r, -, hPath⟩ := h.exists_resolve hRoot
  rw [hPath, ofComponents_resolve]

theorem Accepts.pairwise_roots {project : Path} {s : Settings} {o : Overrides} {plan : Plan}
    (h : Accepts project s o plan) :
    plan.roots.Pairwise fun a b => a.path.components ≠ b.path.components := by
  have hNodup := (rootsOf_spec h.roots).2
  rw [List.Nodup, List.pairwise_map] at hNodup
  exact hNodup.imp fun hne hEq => hne (by rw [Path.normalize, Path.normalize, hEq])

end CoverRun.Plan

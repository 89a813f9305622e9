import CoverRun.Proofs.Plan.Roots

/-!
# The checks on settings

Settings are checked in a fixed order (`Plan.checks`): they make a plan exactly if all checks hold,
and otherwise the first that does not is reported (`Plan.ofSettings_outcome`).
-/

namespace CoverRun.Plan

open Outcome

/-- A condition on settings, with what is reported where it does not hold. -/
structure Check where
  holds : Prop
  reports : PlanError → Prop

/-- The first of several checks that does not hold reports this error. -/
def FirstFault (cs : List Check) (e : PlanError) : Prop :=
  ∃ before c after, cs = before ++ c :: after ∧ (∀ c' ∈ before, c'.holds) ∧ ¬ c.holds ∧ c.reports e

/-- A step comes to something exactly if several checks hold, and otherwise fails as the first that
does not reports. -/
structure Enforces {α : Type} (x : Except PlanError α) (cs : List Check) : Prop where
  exists_ok_iff : (∃ a, x = .ok a) ↔ ∀ c ∈ cs, c.holds
  eq_error_iff : ∀ e, x = .error e ↔ FirstFault cs e

theorem not_firstFault_nil {e : PlanError} : ¬ FirstFault [] e := by
  rintro ⟨before, c, after, hSplit, -⟩
  simp at hSplit

theorem firstFault_cons {c : Check} {cs : List Check} {e : PlanError} :
    FirstFault (c :: cs) e ↔ ¬ c.holds ∧ c.reports e ∨ c.holds ∧ FirstFault cs e := by
  rw [FirstFault, exists_split_cons]
  simp only [List.forall_mem_cons]
  refine or_congr ⟨And.right, fun hFault => ⟨List.forall_mem_nil _, hFault⟩⟩ ⟨?_, ?_⟩
  · rintro ⟨before, c', after, hSplit, ⟨hHolds, hBefore⟩, hFault⟩
    exact ⟨hHolds, before, c', after, hSplit, hBefore, hFault⟩
  · rintro ⟨hHolds, before, c', after, hSplit, hBefore, hFault⟩
    exact ⟨before, c', after, hSplit, ⟨hHolds, hBefore⟩, hFault⟩

theorem firstFault_append {cs cs' : List Check} {e : PlanError} :
    FirstFault (cs ++ cs') e ↔ FirstFault cs e ∨ (∀ c ∈ cs, c.holds) ∧ FirstFault cs' e := by
  induction cs with
  | nil => simp [not_firstFault_nil]
  | cons c cs ih =>
      rw [List.cons_append, firstFault_cons, ih, firstFault_cons, List.forall_mem_cons]
      tauto

namespace Enforces

variable {α β : Type} {x : Except PlanError α} {f : α → Except PlanError β} {cs cs' : List Check}

theorem nil (a : α) : Enforces (.ok a) [] where
  exists_ok_iff := by simp
  eq_error_iff e := by simp [not_firstFault_nil]

/-- The checks of a step come before those of what follows it. -/
theorem bind (h : Enforces x cs) (h' : ∀ a, Enforces (f a) cs') :
    Enforces (x >>= f) (cs ++ cs') where
  exists_ok_iff := by
    rw [List.forall_mem_append, ← h.exists_ok_iff]
    simp only [bind_eq_ok_iff]
    constructor
    · rintro ⟨b, a, ha, hb⟩
      exact ⟨⟨a, ha⟩, (h' a).exists_ok_iff.1 ⟨b, hb⟩⟩
    · rintro ⟨⟨a, ha⟩, hHolds⟩
      obtain ⟨b, hb⟩ := (h' a).exists_ok_iff.2 hHolds
      exact ⟨b, a, ha, hb⟩
  eq_error_iff e := by
    rw [bind_eq_error_iff, firstFault_append, ← h.eq_error_iff, ← h.exists_ok_iff]
    refine or_congr_right ?_
    constructor
    · rintro ⟨a, ha, hError⟩
      exact ⟨⟨a, ha⟩, ((h' a).eq_error_iff e).1 hError⟩
    · rintro ⟨⟨a, ha⟩, hFault⟩
      exact ⟨a, ha, ((h' a).eq_error_iff e).2 hFault⟩

theorem fail {q : Prop} (hFails : ¬ q) (e : PlanError) :
    Enforces (.error e : Except PlanError α) (⟨q, (· = e)⟩ :: cs) :=
  ⟨by simp [hFails], fun e' => by simp [firstFault_cons, hFails, eq_comm]⟩

theorem pass {q : Prop} {reports : PlanError → Prop} (hHolds : q) (h : Enforces x cs) :
    Enforces x (⟨q, reports⟩ :: cs) :=
  ⟨by simp [hHolds, h.exists_ok_iff], fun e => by simp [firstFault_cons, hHolds, h.eq_error_iff]⟩

theorem guard {p q : Prop} [Decidable p] (hFails : p ↔ ¬ q) (e : PlanError) (h : Enforces x cs) :
    Enforces (if p then .error e else x) (⟨q, (· = e)⟩ :: cs) := by
  by_cases hp : p
  · rw [if_pos hp]
    exact fail (hFails.1 hp) e
  · rw [if_neg hp]
    exact h.pass (not_not.1 (mt hFails.2 hp))

end Enforces

/-! ## What is checked -/

/-- Words begin with a program, which is not blank. -/
def BeginWithProgram (words : List String) : Prop :=
  ∃ program arguments, words = program :: arguments ∧ ∃ c ∈ program.toList, Blank.isBlank c = false

/-- A text can name a variable. -/
structure NamesVariable (flag : String) : Prop where
  not_empty : flag ≠ ""
  no_equals : '=' ∉ flag.toList
  no_nul : '\x00' ∉ flag.toList

/-- Some text is more than dots. -/
def MoreThanDots (texts : List String) : Prop := ∃ text ∈ texts, ∃ c ∈ text.toList, c ≠ '.'

/-- The checks on settings in their order. -/
def checks (project : Path) (s : Settings) : List Check :=
  [⟨s.roots ≠ [], (· = .noRoots)⟩,
    ⟨SoundRoots project s.roots, RootFault project s.roots⟩,
    ⟨BeginWithProgram s.stages.generate, (· = .emptyCommand .generate)⟩,
    ⟨BeginWithProgram s.stages.test, (· = .emptyCommand .test)⟩,
    ⟨s.coverage.sentinel ≠ "", (· = .emptySentinel)⟩,
    ⟨NamesVariable s.coverage.flag, (· = .badFlag s.coverage.flag)⟩,
    ⟨MoreThanDots s.instrumenter.extensions, (· = .noExtensions)⟩]

theorem isFlag_iff {flag : String} : isFlag flag = true ↔ NamesVariable flag := by
  rw [isFlag, Bool.and_eq_true, bne_iff_ne, List.all_eq_true]
  constructor
  · rintro ⟨hEmpty, hAll⟩
    refine ⟨hEmpty, fun hMem => ?_, fun hMem => ?_⟩
    · exact absurd (hAll _ hMem) (by decide)
    · exact absurd (hAll _ hMem) (by decide)
  · rintro ⟨hEmpty, hEquals, hNul⟩
    refine ⟨hEmpty, fun c hc => ?_⟩
    rw [Bool.and_eq_true, bne_iff_ne, bne_iff_ne]
    exact ⟨fun h => hEquals (h ▸ hc), fun h => hNul (h ▸ hc)⟩

theorem bareExtension_ne_empty_iff {text : String} :
    bareExtension text ≠ "" ↔ ∃ c ∈ text.toList, c ≠ '.' := by
  rw [bareExtension, ne_eq, String.ofList_eq_empty_iff, List.dropWhile_eq_nil_iff]
  simp

theorem extensionsOf_eq_nil_iff {texts : List String} :
    extensionsOf texts = [] ↔ ¬ MoreThanDots texts := by
  rw [extensionsOf, List.filter_eq_nil_iff, List.forall_mem_map, MoreThanDots]
  simp only [bne_iff_ne, bareExtension_ne_empty_iff, not_exists, not_and]

theorem enforces_rootsOf (project : Path) (rs : List RootSettings) :
    Enforces (rootsOf project rs)
      [⟨rs ≠ [], (· = .noRoots)⟩, ⟨SoundRoots project rs, RootFault project rs⟩] := by
  refine Enforces.guard not_not.symm _ ⟨?_, fun e => ?_⟩
  · rw [List.forall_mem_singleton, exists_rootsFrom_iff]
  · rw [rootsFrom_eq_error_iff, firstFault_cons]
    simpa [not_firstFault_nil] using RootFault.not_soundRoots

theorem enforces_commandOf (stage : StageName) (words : List String) :
    Enforces (commandOf stage words) [⟨BeginWithProgram words, (· = .emptyCommand stage)⟩] := by
  cases words with
  | nil => exact .fail (by simp [BeginWithProgram]) _
  | cons program arguments =>
      have hBlank : Blank.isBlankText program = true ↔
          ¬ BeginWithProgram (program :: arguments) := by
        simp [BeginWithProgram, Blank.isBlankText]
      have hCommand : commandOf stage (program :: arguments) =
          if Blank.isBlankText program then .error (.emptyCommand stage)
          else .ok ⟨stage.text, program, arguments⟩ := by
        rw [commandOf, StageCommand.ofWords?]
        cases Blank.isBlankText program <;> rfl
      rw [hCommand]
      exact .guard hBlank _ (.nil _)

theorem enforces_ofSettings (project : Path) (s : Settings) (o : Overrides) :
    Enforces (ofSettings project s o) (checks project s) := by
  have hFlag : (!isFlag s.coverage.flag) = true ↔ ¬ NamesVariable s.coverage.flag := by
    rw [← isFlag_iff, Bool.not_eq_true', Bool.not_eq_true]
  rw [ofSettings]
  refine (enforces_rootsOf project s.roots).bind fun roots => ?_
  refine (enforces_commandOf .generate s.stages.generate).bind fun generate => ?_
  refine (enforces_commandOf .test s.stages.test).bind fun test => ?_
  refine Enforces.guard not_not.symm _ ?_
  refine Enforces.guard hFlag _ ?_
  exact Enforces.guard extensionsOf_eq_nil_iff _ (.nil _)

/-! ## What passes -/

/-- A text without the dots before it, of which something is left. -/
def IsBare (text e : String) : Prop :=
  e ≠ "" ∧ e.toList.head? ≠ some '.' ∧ ∃ n, text.toList = List.replicate n '.' ++ e.toList

theorem bareExtension_eq_iff {text e : String} : bareExtension text = e ↔
    e.toList.head? ≠ some '.' ∧ ∃ n, text.toList = List.replicate n '.' ++ e.toList := by
  constructor
  · rintro rfl
    rw [bareExtension, String.toList_ofList]
    refine ⟨fun hHead => ?_, (text.toList.takeWhile (· == '.')).length, ?_⟩
    · have hNot := List.head?_dropWhile_not (· == '.') text.toList
      rw [hHead] at hNot
      cases hNot
    · have hDots : ∀ c ∈ text.toList.takeWhile (· == '.'), c = '.' := fun c hc =>
        beq_iff_eq.1 (List.mem_takeWhile_imp (p := (· == '.')) hc)
      rw [← List.eq_replicate_of_mem hDots, List.takeWhile_append_dropWhile]
  · rintro ⟨hHead, n, hText⟩
    have hDots : ∀ c ∈ List.replicate n '.', (c == '.') = true := fun c hc =>
      beq_iff_eq.2 (List.eq_of_mem_replicate hc)
    have hBare : e.toList.dropWhile (· == '.') = e.toList := by
      cases hChars : e.toList with
      | nil => rfl
      | cons c cs =>
          rw [hChars] at hHead
          exact List.dropWhile_cons_of_neg (by simpa using hHead)
    rw [bareExtension, hText, List.dropWhile_append_of_pos hDots, hBare, String.ofList_toList]

theorem mem_extensionsOf {texts : List String} {e : String} :
    e ∈ extensionsOf texts ↔ ∃ text ∈ texts, IsBare text e := by
  simp only [extensionsOf, List.mem_filter, List.mem_map, bne_iff_ne, bareExtension_eq_iff, IsBare]
  constructor
  · rintro ⟨⟨text, hText, hBare⟩, hne⟩
    exact ⟨text, hText, hne, hBare⟩
  · rintro ⟨text, hText, hne, hBare⟩
    exact ⟨⟨text, hText, hBare⟩, hne⟩

/-- What a plan has of the settings and of what is given at the command line. -/
structure Carries (project : Path) (s : Settings) (o : Overrides) (plan : Plan) : Prop where
  roots : List.Forall₂ (fun r root => root.path = resolve project r.path ∧
    List.Forall₂ (fun text entry => SkipEntry.ofText text = .ok entry) r.skip root.skip)
    s.roots plan.roots
  extensions : ∀ e, e ∈ plan.extensions ↔ ∃ text ∈ s.instrumenter.extensions, IsBare text e
  instrumenterLimit : plan.instrumenterLimit.toNat = max 1 s.instrumenter.timeout.toNat
  stageLimit : ∀ n, plan.stageLimit = some n ↔
    n ≠ 0 ∧ (o.timeout = some n ∨ o.timeout = none ∧ s.stages.timeout = some n)
  output : ∃ file, plan.output = resolve project file ∧
    (o.output = some file ∨ o.output = none ∧ file = s.coverage.output)

theorem either_eq_some_iff {α : Type} {given settings : Option α} {a : α} :
    either given settings = some a ↔ given = some a ∨ given = none ∧ settings = some a := by
  cases given <;> simp [either]

theorem Accepts.carries {project : Path} {s : Settings} {o : Overrides} {plan : Plan}
    (h : Accepts project s o plan) : Carries project s o plan where
  roots := by
    refine (rootsFrom_spec (rootsOf_eq_ok_iff.1 h.roots).2).1.imp fun r root hRoot => ?_
    exact SourceRoot.ofTexts_eq_ok_iff.1 hRoot
  extensions e := by
    rw [h.extensions_eq, mem_extensionsOf]
  instrumenterLimit := by
    rw [h.instrumenterLimit_eq]
    split
    · next hZero =>
      rw [hZero]
      rfl
    · next hne =>
      have hPos : s.instrumenter.timeout.toNat ≠ 0 := fun h => hne (UInt64.toNat.inj h)
      omega
  stageLimit n := by
    rw [h.stageLimit_eq, Option.filter_eq_some_iff, either_eq_some_iff, bne_iff_ne]
    exact and_comm
  output := by
    rw [h.output_eq]
    cases o.output <;> simp

/-- **Settings make a plan exactly if all checks hold, and otherwise the first that does not is
reported.** -/
theorem ofSettings_outcome (project : Path) (s : Settings) (o : Overrides) :
    ((∃ plan, ofSettings project s o = .ok plan) ↔ ∀ c ∈ checks project s, c.holds) ∧
      (∀ e, ofSettings project s o = .error e ↔ FirstFault (checks project s) e) ∧
      ∀ plan, ofSettings project s o = .ok plan → Carries project s o plan :=
  ⟨(enforces_ofSettings project s o).exists_ok_iff, (enforces_ofSettings project s o).eq_error_iff,
    fun _ h => (ofSettings_eq_ok_iff.1 h).carries⟩

/-- Settings with several faults: a skip entry that leads out of its root, a second root that leads
to the same place, and two empty commands. -/
def faulty : Settings where
  roots := [⟨"a", ["b", "../c"]⟩, ⟨"./a", []⟩]
  stages := ⟨[], [" "], none, OrderedMap.empty⟩
  coverage := ⟨"", "", "report"⟩
  instrumenter := ⟨none, ["."], 0⟩

theorem ofSettings_outcome_faulty :
    FirstFault (checks "/p" faulty) (.skip ⟨"/p/a", "../c", .notInside⟩) ∧
      ∃ plan, ofSettings "/p" Settings.standard Overrides.none = .ok plan ∧
        Carries "/p" Settings.standard Overrides.none plan := by
  have hFault : ofSettings "/p" faulty Overrides.none =
      .error (.skip ⟨"/p/a", "../c", .notInside⟩) := by
    decide +kernel
  have hStandard : (ofSettings "/p" Settings.standard Overrides.none).toOption.isSome := by
    decide +kernel
  obtain ⟨plan, hPlan⟩ := Option.isSome_iff_exists.1 hStandard
  have hOk := eq_ok_of_toOption hPlan
  exact ⟨((ofSettings_outcome "/p" faulty Overrides.none).2.1 _).1 hFault, plan, hOk,
    (ofSettings_outcome "/p" Settings.standard Overrides.none).2.2 plan hOk⟩

end CoverRun.Plan

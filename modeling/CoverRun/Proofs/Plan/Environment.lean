import CoverRun.Proofs.OrderedMap
import CoverRun.Proofs.Plan.Checks

/-!
# The coverage variable of a plan

A process receives its variables as texts `NAME=VALUE`, and whatever comes before the first `=` of a
text is the name. The coverage variable is on in every plan, and of the texts that give it a value
the first one says so. But a name of the settings may itself begin with the coverage variable and
`=`. Each variable with such a name comes as one more text that gives the coverage variable a value
(`Plan.ofSettings_environment`).
-/

namespace CoverRun

open KeyOrder

namespace StageEnvironment

/-- How a text that gives a variable a value begins. -/
def assignment (flag : String) : List Char := (flag ++ "=").toList

/-- The texts that give a variable a value. -/
def textsFor (e : StageEnvironment) (flag : String) : List String :=
  e.texts.filter fun text => (assignment flag).isPrefixOf text.toList

/-- The variables whose names begin like a text that gives another one a value. -/
def posingAs (e : StageEnvironment) (flag : String) : StageEnvironment :=
  e.filter fun name _ => (assignment flag).isPrefixOf name.toList

theorem prefix_assignment_iff {flag name rest : List Char} (h : '=' ∉ flag) :
    flag ++ ['='] <+: name ++ '=' :: rest ↔ name = flag ∨ flag ++ ['='] <+: name := by
  induction flag generalizing name with
  | nil => cases name <;> simp [List.cons_prefix_cons, eq_comm]
  | cons c flag ih =>
      simp only [List.mem_cons, not_or] at h
      cases name with
      | nil => simp [List.cons_prefix_cons, Ne.symm h.1]
      | cons d name =>
          simp only [List.cons_append, List.cons_prefix_cons, List.cons.injEq, ih h.2]
          rw [eq_comm (a := c), ← and_or_left]

/-- A text gives a variable a value exactly if it is that of the variable or of one that poses as
it. -/
theorem assigns_iff {flag name value : String} (h : '=' ∉ flag.toList) :
    assignment flag <+: (name ++ "=" ++ value).toList ↔
      name = flag ∨ assignment flag <+: name.toList := by
  have hText : (name ++ "=" ++ value).toList = name.toList ++ '=' :: value.toList := by simp
  have hFlag : assignment flag = flag.toList ++ ['='] := by simp [assignment]
  rw [hText, hFlag, prefix_assignment_iff h, String.toList_inj]

/-- A variable that poses as another one comes after it. -/
theorem before_of_assignment {flag name : String} (h : assignment flag <+: name.toList) :
    before flag name = true := by
  have hFlag : flag.toList <+: assignment flag := by
    rw [assignment, String.toList_append]
    exact List.prefix_append _ _
  have hne : name ≠ flag := by
    rintro rfl
    have hLength := h.length_le
    simp only [assignment, String.toList_append, List.length_append] at hLength
    exact absurd hLength (by simp)
  refine before_total (decide_eq_false fun hLess => ?_) hne
  exact (hFlag.trans h).le (String.lt_iff.1 hLess)

/-- **The texts for a variable that is set**: its own comes first, and then those of the variables
that pose as it. -/
theorem textsFor_insert (e : StageEnvironment) {flag : String} (h : '=' ∉ flag.toList)
    (value : String) :
    textsFor (e.insert flag value) flag = (flag ++ "=" ++ value) :: (posingAs e flag).texts := by
  have hAssigns (v : String × String) :
      (assignment flag).isPrefixOf (v.1 ++ "=" ++ v.2).toList = true ↔
        v.1 = flag ∨ assignment flag <+: v.1.toList := by
    rw [List.isPrefixOf_iff_prefix, assigns_iff h]
  have hBefore : (e.entries.filter fun v => before v.1 flag).filter
      (fun v => (assignment flag).isPrefixOf (v.1 ++ "=" ++ v.2).toList) = [] := by
    rw [List.filter_eq_nil_iff]
    intro v hv hText
    have hEarlier : before v.1 flag = true := (List.mem_filter.1 hv).2
    rcases (hAssigns v).1 hText with hSame | hPoses
    · exact ne_of_before hEarlier hSame
    · exact ne_of_before (before_trans hEarlier (before_of_assignment hPoses)) rfl
  have hAfter : (e.entries.filter fun v => before flag v.1).filter
      (fun v => (assignment flag).isPrefixOf (v.1 ++ "=" ++ v.2).toList) =
        (posingAs e flag).entries := by
    rw [List.filter_filter, posingAs, OrderedMap.filter]
    refine List.filter_congr fun v _ => ?_
    rw [Bool.eq_iff_iff, Bool.and_eq_true, hAssigns, List.isPrefixOf_iff_prefix]
    constructor
    · rintro ⟨hSame | hPoses, hLater⟩
      · exact absurd hSame.symm (ne_of_before hLater)
      · exact hPoses
    · intro hPoses
      exact ⟨Or.inr hPoses, before_of_assignment hPoses⟩
  have hOwn : (assignment flag).isPrefixOf (flag ++ "=" ++ value).toList = true :=
    (hAssigns (flag, value)).2 (Or.inl rfl)
  rw [textsFor, texts, OrderedMap.entries_insert, List.filter_map]
  simp only [Function.comp_def, List.filter_append, List.filter_cons, hBefore, hAfter, hOwn,
    if_true, List.nil_append, List.map_cons]
  rfl

end StageEnvironment

namespace Plan

open StageEnvironment

variable {project : Path} {s : Settings} {o : Overrides} {plan : Plan}

/-- **The coverage variable is on and the other variables are those of the settings.** The texts
that give the coverage variable a value are that it is on and then one for each variable of the
settings that poses as it; so there is just one exactly if no name of the settings begins with the
coverage variable and `=`. -/
theorem ofSettings_environment (h : ofSettings project s o = .ok plan) :
    plan.environment.find? s.coverage.flag = some "true" ∧
      (∀ name, name ≠ s.coverage.flag →
        plan.environment.find? name = s.stages.environment.find? name) ∧
      textsFor plan.environment s.coverage.flag =
        (s.coverage.flag ++ "=true") :: (posingAs s.stages.environment s.coverage.flag).texts ∧
      (textsFor plan.environment s.coverage.flag = [s.coverage.flag ++ "=true"] ↔
        ∀ name ∈ s.stages.environment.keys, ¬ assignment s.coverage.flag <+: name.toList) := by
  have hAccepts := ofSettings_eq_ok_iff.1 h
  have hFlag : NamesVariable s.coverage.flag := isFlag_iff.1 hAccepts.flag
  have hTexts := textsFor_insert s.stages.environment hFlag.no_equals StageEnvironment.on
  have hOn : s.coverage.flag ++ "=" ++ StageEnvironment.on = s.coverage.flag ++ "=true" := by
    rw [String.append_assoc]
    rfl
  rw [hOn] at hTexts
  rw [hAccepts.environment_eq, environmentOf]
  refine ⟨?_, fun name hne => ?_, hTexts, ?_⟩
  · rw [OrderedMap.find?_insert, if_pos rfl]
    rfl
  · rw [OrderedMap.find?_insert, if_neg hne]
  · rw [hTexts, List.cons_eq_cons, texts, List.map_eq_nil_iff, posingAs, OrderedMap.filter,
      List.filter_eq_nil_iff, OrderedMap.keys, List.forall_mem_map]
    simp only [true_and, List.isPrefixOf_iff_prefix]

/-- Names that equal the coverage variable, extend it, and pose as it. -/
theorem ofSettings_environment_posing :
    let environment := ((OrderedMap.empty.insert "ETHIER_COVERAGE" "false").insert
      "ETHIER_COVERAGE=x" "y").insert "ETHIER_COVERAGE2" "z"
    let s : Settings :=
      { Settings.standard with stages := { Settings.defaultStages with environment } }
    ∃ plan, ofSettings "/p" s Overrides.none = .ok plan ∧
      plan.environment.find? "ETHIER_COVERAGE" = some "true" ∧
      plan.environment.find? "ETHIER_COVERAGE2" = some "z" ∧
      textsFor plan.environment "ETHIER_COVERAGE" =
        ["ETHIER_COVERAGE=true", "ETHIER_COVERAGE=x=y"] := by
  intro environment s
  have hAccepted : (ofSettings "/p" s Overrides.none).toOption.isSome := by decide +kernel
  obtain ⟨plan, hPlan⟩ := Option.isSome_iff_exists.1 hAccepted
  have hOk := Outcome.eq_ok_of_toOption hPlan
  obtain ⟨hOn, hOthers, hTexts, -⟩ := ofSettings_environment hOk
  have hPosing : (posingAs s.stages.environment s.coverage.flag).texts =
      ["ETHIER_COVERAGE=x=y"] := by decide +kernel
  rw [hPosing] at hTexts
  exact ⟨plan, hOk, hOn, (hOthers _ (by decide +kernel)).trans (by decide +kernel), hTexts⟩

end Plan

end CoverRun

import CoverRun.Proofs.Outcome
import CoverRun.Selection.SourceRoot

/-!
# Which skip lists are read

A text is read as a skip entry exactly if it leads to something inside the root and, if it has a
wildcard, its names make a glob (`SkipEntry.exists_ofText_iff`). A skip list is read exactly if all
its texts are (`SourceRoot.exists_ofTexts_iff`), and otherwise the first that is not is its fault
(`SourceRoot.ofTexts_eq_error_iff`).
-/

namespace CoverRun

open Outcome CoverRun.Path

/-! ## Skip entries -/

namespace SkipEntry

/-- The names among components. -/
def namesOf (cs : List Component) : List FileName :=
  cs.filterMap fun c =>
    match c with
    | .name n => some n
    | _ => none

/-- A text leads to something inside a root. -/
structure LeadsInside (text : String) : Prop where
  named : ∃ n, Component.name n ∈ (Path.ofText text).components
  inside : ∀ c ∈ (Path.ofText text).components, c ≠ .parent ∧ c ≠ .root

/-- A text has a wildcard. -/
def IsWild (text : String) : Prop := '*' ∈ text.toList ∨ '?' ∈ text.toList ∨ '[' ∈ text.toList

/-- What is made of the names of a text if it has a wildcard. -/
def globOf (text : String) : Except GlobError Glob :=
  Glob.ofText (patternText (namesOf (Path.ofText text).components))

/-- A text can stand in a skip list. -/
structure Admissible (text : String) : Prop extends LeadsInside text where
  compiles : IsWild text → ∃ g, globOf text = .ok g

/-- A text is refused in a skip list. -/
inductive Refused (text : String) : SkipFault → Prop
  | notInside (outside : ¬ LeadsInside text) : Refused text .notInside
  | badGlob {e : GlobError} (inside : LeadsInside text) (wild : IsWild text)
      (fails : globOf text = .error e) : Refused text (.badGlob e)

theorem hasWildcard_iff {text : String} : hasWildcard text = true ↔ IsWild text := by
  rw [hasWildcard, List.any_eq_true, IsWild]
  constructor
  · rintro ⟨c, hc, hWild⟩
    simp only [Bool.or_eq_true, beq_iff_eq] at hWild
    rcases hWild with (rfl | rfl) | rfl
    · exact Or.inl hc
    · exact Or.inr (Or.inl hc)
    · exact Or.inr (Or.inr hc)
  · rintro (hc | hc | hc)
    · exact ⟨_, hc, rfl⟩
    · exact ⟨_, hc, rfl⟩
    · exact ⟨_, hc, rfl⟩

theorem namesInside?_eq (cs : List Component) : namesInside? cs =
    if ∀ c ∈ cs, c ≠ .parent ∧ c ≠ .root then some (namesOf cs) else none := by
  induction cs with
  | nil => rfl
  | cons c cs ih =>
      cases c with
      | name n =>
          rw [namesInside?, ih]
          by_cases h : ∀ c ∈ cs, c ≠ .parent ∧ c ≠ .root <;> simp [h, namesOf]
      | current => simp [namesInside?, ih, namesOf]
      | parent => simp [namesInside?]
      | root => simp [namesInside?]

theorem mem_namesOf {cs : List Component} {n : FileName} :
    n ∈ namesOf cs ↔ Component.name n ∈ cs := by
  rw [namesOf, List.mem_filterMap]
  constructor
  · rintro ⟨c, hc, hName⟩
    cases c with
    | name m => exact Option.some.inj hName ▸ hc
    | _ => cases hName
  · exact fun h => ⟨_, h, rfl⟩

theorem ofText_of_outside {text : String} (h : ¬ LeadsInside text) :
    ofText text = .error .notInside := by
  rw [ofText, namesInside?_eq]
  by_cases hInside : ∀ c ∈ (Path.ofText text).components, c ≠ .parent ∧ c ≠ .root
  · have hNames : namesOf (Path.ofText text).components = [] :=
      List.eq_nil_iff_forall_not_mem.2 fun n hn => h ⟨⟨n, mem_namesOf.1 hn⟩, hInside⟩
    rw [if_pos hInside, hNames]
  · rw [if_neg hInside]

theorem ofText_of_inside {text : String} (h : LeadsInside text) :
    ofText text =
      if hasWildcard text then
        match globOf text with
        | .ok g => .ok ⟨text, namesOf (Path.ofText text).components, some g⟩
        | .error e => .error (.badGlob e)
      else .ok ⟨text, namesOf (Path.ofText text).components, none⟩ := by
  rw [ofText, namesInside?_eq, if_pos h.inside, globOf]
  cases hNames : namesOf (Path.ofText text).components with
  | nil =>
      obtain ⟨n, hn⟩ := h.named
      exact absurd (hNames ▸ mem_namesOf.2 hn) List.not_mem_nil
  | cons n ns => rfl

/-- **A text is read as a skip entry exactly if it is admissible.** -/
theorem exists_ofText_iff {text : String} :
    (∃ entry, ofText text = .ok entry) ↔ Admissible text := by
  by_cases hInside : LeadsInside text
  · rw [ofText_of_inside hInside]
    by_cases hWild : hasWildcard text = true
    · rw [if_pos hWild]
      cases hGlob : globOf text with
      | ok g => simpa using ⟨hInside, fun _ => ⟨g, hGlob⟩⟩
      | error e =>
          simp only [reduceCtorEq, exists_false, false_iff]
          intro h
          obtain ⟨g, hg⟩ := h.compiles (hasWildcard_iff.1 hWild)
          rw [hGlob] at hg
          cases hg
    · rw [if_neg hWild]
      simpa using ⟨hInside, fun h => absurd (hasWildcard_iff.2 h) hWild⟩
  · rw [ofText_of_outside hInside]
    simpa using fun h => hInside h.toLeadsInside

/-- **A text is refused for what is wrong with it.** -/
theorem ofText_eq_error_iff {text : String} {fault : SkipFault} :
    ofText text = .error fault ↔ Refused text fault := by
  constructor
  · intro h
    by_cases hInside : LeadsInside text
    · rw [ofText_of_inside hInside] at h
      split at h
      · next hWild =>
        split at h
        · cases h
        · next e hGlob =>
          obtain rfl := Except.error.inj h
          exact .badGlob hInside (hasWildcard_iff.1 hWild) hGlob
      · cases h
    · rw [ofText_of_outside hInside] at h
      obtain rfl := Except.error.inj h
      exact .notInside hInside
  · rintro (hOutside | ⟨hInside, hWild, hGlob⟩)
    · exact ofText_of_outside hOutside
    · rw [ofText_of_inside hInside, if_pos (hasWildcard_iff.2 hWild), hGlob]

end SkipEntry

/-! ## Skip lists -/

namespace SourceRoot

variable {path : Path} {texts : List String}

/-- Reads one entry of a skip list. -/
def readEntry (path : Path) (text : String) : Except SkipError SkipEntry :=
  (SkipEntry.ofText text).mapError fun fault => ⟨path, text, fault⟩

theorem readEntry_eq_ok_iff {text : String} {entry : SkipEntry} :
    readEntry path text = .ok entry ↔ SkipEntry.ofText text = .ok entry := by
  rw [readEntry]
  cases SkipEntry.ofText text <;> simp [Except.mapError]

theorem readEntry_eq_error_iff {text : String} {e : SkipError} :
    readEntry path text = .error e ↔
      ∃ fault, SkipEntry.Refused text fault ∧ e = ⟨path, text, fault⟩ := by
  simp only [← SkipEntry.ofText_eq_error_iff, readEntry]
  cases SkipEntry.ofText text <;> simp [Except.mapError, eq_comm]

theorem exists_readEntry_iff {text : String} :
    (∃ entry, readEntry path text = .ok entry) ↔ SkipEntry.Admissible text := by
  simp only [readEntry_eq_ok_iff, SkipEntry.exists_ofText_iff]

theorem ofTexts_eq_map : ofTexts path texts = (texts.mapM (readEntry path)).map (⟨path, ·⟩) := by
  have hMap : ∀ x : Except SkipError (List SkipEntry),
      (x >>= fun skip => pure ⟨path, skip⟩) = x.map fun skip => SourceRoot.mk path skip := by
    rintro (e | skip) <;> rfl
  rw [ofTexts, hMap]
  refine congrArg (fun read : String → Except SkipError SkipEntry => (texts.mapM read).map _)
    (funext fun text => ?_)
  rw [readEntry]
  cases SkipEntry.ofText text <;> rfl

theorem ofTexts_eq_ok_iff {root : SourceRoot} :
    ofTexts path texts = .ok root ↔ root.path = path ∧
      List.Forall₂ (fun text entry => SkipEntry.ofText text = .ok entry) texts root.skip := by
  simp only [ofTexts_eq_map, map_eq_ok_iff, mapM_eq_ok_iff, readEntry_eq_ok_iff]
  constructor
  · rintro ⟨skip, hSkip, rfl⟩
    exact ⟨rfl, hSkip⟩
  · rintro ⟨rfl, hSkip⟩
    exact ⟨root.skip, hSkip, rfl⟩

/-- A skip list is read exactly if all its texts are admissible. -/
theorem exists_ofTexts_iff :
    (∃ root, ofTexts path texts = .ok root) ↔ ∀ text ∈ texts, SkipEntry.Admissible text := by
  simp only [← @exists_readEntry_iff path, ← exists_mapM_iff, ofTexts_eq_map,
    map_eq_ok_iff]
  exact ⟨fun ⟨_, skip, hSkip, _⟩ => ⟨skip, hSkip⟩, fun ⟨skip, hSkip⟩ => ⟨_, skip, hSkip, rfl⟩⟩

theorem ofTexts_eq_error_iff {e : SkipError} :
    ofTexts path texts = .error e ↔ ∃ before text after fault, texts = before ++ text :: after ∧
      (∀ t ∈ before, SkipEntry.Admissible t) ∧ SkipEntry.Refused text fault ∧
      e = ⟨path, text, fault⟩ := by
  simp only [ofTexts_eq_map, map_eq_error_iff, mapM_eq_error_iff, exists_readEntry_iff,
    readEntry_eq_error_iff, ← exists_and_left]

end SourceRoot

end CoverRun

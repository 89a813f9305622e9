import CoverRun.Proofs.Plan
import CoverRun.Proofs.Selection.SkipList
import Mathlib.Data.List.Nodup

/-!
# Which roots are read

Roots are read exactly if they lead to different places and all that is to be skipped in them is
admissible (`Plan.exists_rootsFrom_iff`). Otherwise the error is what is wrong with the first root
that is not sound after those before it: that it leads where one of them does, or else its first
skip entry that is refused (`Plan.rootsFrom_eq_error_iff`). What was seen when a root is read are
the places of the roots before it (`Plan.rootsFrom_append`).
-/

namespace CoverRun.Plan

variable {project : Path}

/-- Where a root leads by its text. -/
def placeOf (project : Path) (r : RootSettings) : Path := (resolve project r.path).normalize

/-- Roots lead to different places, and all that is to be skipped in them is admissible. -/
structure SoundRoots (project : Path) (rs : List RootSettings) : Prop where
  apart : (rs.map (placeOf project)).Nodup
  admissible : ∀ r ∈ rs, ∀ text ∈ r.skip, SkipEntry.Admissible text

/-- What is wrong with a root after others: that one of them leads to the same place, or else the
first text of its skip list that is refused. -/
inductive FaultAfter (project : Path) (before : List RootSettings) (r : RootSettings) :
    PlanError → Prop
  | duplicate (old : placeOf project r ∈ before.map (placeOf project)) :
      FaultAfter project before r (.duplicateRoot r.path)
  | skip {texts more : List String} {text : String} {fault : SkipFault}
      (new : placeOf project r ∉ before.map (placeOf project))
      (list : r.skip = texts ++ text :: more) (admissible : ∀ t ∈ texts, SkipEntry.Admissible t)
      (refused : SkipEntry.Refused text fault) :
      FaultAfter project before r (.skip ⟨resolve project r.path, text, fault⟩)

/-- What is wrong with the first of several roots that is not sound after those before it. -/
def RootFault (project : Path) (rs : List RootSettings) (e : PlanError) : Prop :=
  ∃ before r after, rs = before ++ r :: after ∧ SoundRoots project before ∧
    FaultAfter project before r e

theorem soundRoots_append_singleton {rs : List RootSettings} {r : RootSettings} :
    SoundRoots project (rs ++ [r]) ↔ SoundRoots project rs ∧
      placeOf project r ∉ rs.map (placeOf project) ∧
      ∀ text ∈ r.skip, SkipEntry.Admissible text := by
  constructor
  · rintro ⟨hApart, hAdmissible⟩
    rw [List.map_append, List.map_singleton, ← List.concat_eq_append, List.nodup_concat] at hApart
    obtain ⟨hFront, hLast⟩ := List.forall_mem_append.1 hAdmissible
    exact ⟨⟨hApart.2, hFront⟩, hApart.1, List.forall_mem_singleton.1 hLast⟩
  · rintro ⟨⟨hApart, hFront⟩, hNew, hLast⟩
    refine ⟨?_, List.forall_mem_append.2 ⟨hFront, List.forall_mem_singleton.2 hLast⟩⟩
    rw [List.map_append, List.map_singleton, ← List.concat_eq_append, List.nodup_concat]
    exact ⟨hNew, hApart⟩

theorem SoundRoots.of_append {rs rs' : List RootSettings} (h : SoundRoots project (rs ++ rs')) :
    SoundRoots project rs where
  apart := by
    have hApart := h.apart
    rw [List.map_append] at hApart
    exact hApart.of_append_left
  admissible r hr := h.admissible r (List.mem_append_left rs' hr)

/-- A root after sound ones is sound with them, or there is something wrong with it. -/
theorem SoundRoots.append_singleton_or_fault {rs : List RootSettings} (h : SoundRoots project rs)
    (r : RootSettings) : SoundRoots project (rs ++ [r]) ∨ ∃ e, FaultAfter project rs r e := by
  by_cases hNew : placeOf project r ∈ rs.map (placeOf project)
  · exact Or.inr ⟨_, .duplicate hNew⟩
  cases hRead : SourceRoot.ofTexts (resolve project r.path) r.skip with
  | ok root =>
      have hAdmissible := SourceRoot.exists_ofTexts_iff.1 ⟨root, hRead⟩
      exact Or.inl (soundRoots_append_singleton.2 ⟨h, hNew, hAdmissible⟩)
  | error e =>
      obtain ⟨texts, text, more, fault, hList, hBefore, hRefused, rfl⟩ :=
        SourceRoot.ofTexts_eq_error_iff.1 hRead
      exact Or.inr ⟨_, .skip hNew hList hBefore hRefused⟩

theorem FaultAfter.not_soundRoots {before : List RootSettings} {r : RootSettings} {e : PlanError}
    (h : FaultAfter project before r e) : ¬ SoundRoots project (before ++ [r]) := by
  intro hSound
  obtain ⟨-, hNew, hAdmissible⟩ := soundRoots_append_singleton.1 hSound
  cases h with
  | duplicate hOld => exact hNew hOld
  | @skip texts more text fault _ hList _ hRefused =>
      have hMem : text ∈ r.skip := hList ▸ List.mem_append_right texts List.mem_cons_self
      obtain ⟨entry, hEntry⟩ := SkipEntry.exists_ofText_iff.2 (hAdmissible text hMem)
      rw [SkipEntry.ofText_eq_error_iff.2 hRefused] at hEntry
      cases hEntry

theorem RootFault.not_soundRoots {rs : List RootSettings} {e : PlanError}
    (h : RootFault project rs e) : ¬ SoundRoots project rs := by
  obtain ⟨before, r, after, rfl, -, hFault⟩ := h
  rw [← List.singleton_append, ← List.append_assoc]
  exact fun hSound => hFault.not_soundRoots hSound.of_append

/-- **Roots are sound, or there is a first one with which something is wrong.** -/
theorem soundRoots_or_rootFault (project : Path) (rs : List RootSettings) :
    SoundRoots project rs ∨ ∃ e, RootFault project rs e := by
  -- a root is judged against those before it, so the last one is added to what is judged already
  induction rs using List.reverseRecOn with
  | nil => exact Or.inl ⟨List.nodup_nil, List.forall_mem_nil _⟩
  | append_singleton rs r ih =>
      rcases ih with hSound | ⟨e, before, r', after, rfl, hBefore, hFault⟩
      · rcases hSound.append_singleton_or_fault r with hAll | ⟨e, hFault⟩
        · exact Or.inl hAll
        · exact Or.inr ⟨e, rs, r, [], rfl, hSound, hFault⟩
      · refine Or.inr ⟨e, before, r', after ++ [r], ?_, hBefore, hFault⟩
        rw [List.append_assoc, List.cons_append]

theorem rootsFrom_cons {seen : List Path} {r : RootSettings} {root : SourceRoot}
    (hNew : placeOf project r ∉ seen)
    (hRoot : SourceRoot.ofTexts (resolve project r.path) r.skip = .ok root)
    (rs : List RootSettings) : rootsFrom project seen (r :: rs) =
      (rootsFrom project (placeOf project r :: seen) rs).map (root :: ·) := by
  rw [placeOf] at hNew ⊢
  rw [rootsFrom, if_neg hNew, hRoot]
  cases rootsFrom project ((resolve project r.path).normalize :: seen) rs <;> rfl

theorem rootsFrom_append {before front : List RootSettings}
    (h : SoundRoots project (before ++ front)) (rs : List RootSettings) :
    ∃ roots, rootsFrom project (before.map (placeOf project)).reverse (front ++ rs) =
      (rootsFrom project ((before ++ front).map (placeOf project)).reverse rs).map
        (roots ++ ·) := by
  induction front generalizing before with
  | nil =>
      refine ⟨[], ?_⟩
      rw [List.nil_append, List.append_nil]
      cases rootsFrom project (before.map (placeOf project)).reverse rs <;> rfl
  | cons r front ih =>
      rw [← List.singleton_append, ← List.append_assoc] at h
      obtain ⟨-, hNew, hAdmissible⟩ := soundRoots_append_singleton.1 h.of_append
      obtain ⟨root, hRoot⟩ := (@SourceRoot.exists_ofTexts_iff (resolve project r.path) _).2
        hAdmissible
      obtain ⟨roots, hRoots⟩ := ih h
      have hUnseen : placeOf project r ∉ (before.map (placeOf project)).reverse :=
        mt List.mem_reverse.1 hNew
      refine ⟨root :: roots, ?_⟩
      rw [List.map_append, List.map_singleton, List.reverse_append, List.reverse_singleton,
        List.singleton_append, List.append_assoc, List.singleton_append] at hRoots
      rw [List.cons_append, rootsFrom_cons hUnseen hRoot, hRoots]
      cases rootsFrom project ((before ++ r :: front).map (placeOf project)).reverse rs <;> rfl

theorem rootsFrom_of_faultAfter {before : List RootSettings} {r : RootSettings} {e : PlanError}
    (h : FaultAfter project before r e) (after : List RootSettings) :
    rootsFrom project (before.map (placeOf project)).reverse (r :: after) = .error e := by
  rw [rootsFrom]
  cases h with
  | duplicate hOld => exact if_pos (List.mem_reverse.2 hOld)
  | @skip texts more text fault hNew hList hBefore hRefused =>
      have hRead : SourceRoot.ofTexts (resolve project r.path) r.skip =
          .error ⟨resolve project r.path, text, fault⟩ :=
        SourceRoot.ofTexts_eq_error_iff.2
          ⟨texts, text, more, fault, hList, hBefore, hRefused, rfl⟩
      rw [placeOf, ← List.mem_reverse] at hNew
      rw [if_neg hNew, hRead]

theorem exists_rootsFrom_of_soundRoots {rs : List RootSettings} (h : SoundRoots project rs) :
    ∃ roots, rootsFrom project [] rs = .ok roots := by
  obtain ⟨roots, hRoots⟩ := @rootsFrom_append project [] rs h []
  rw [List.append_nil] at hRoots
  exact ⟨roots ++ [], hRoots⟩

theorem rootsFrom_of_rootFault {rs : List RootSettings} {e : PlanError}
    (h : RootFault project rs e) : rootsFrom project [] rs = .error e := by
  obtain ⟨before, r, after, rfl, hSound, hFault⟩ := h
  obtain ⟨roots, hRoots⟩ := @rootsFrom_append project [] before hSound (r :: after)
  rw [List.nil_append, rootsFrom_of_faultAfter hFault after] at hRoots
  exact hRoots

/-- **Roots are read exactly if they are sound.** -/
theorem exists_rootsFrom_iff {rs : List RootSettings} :
    (∃ roots, rootsFrom project [] rs = .ok roots) ↔ SoundRoots project rs := by
  refine ⟨fun ⟨roots, hRoots⟩ => ?_, exists_rootsFrom_of_soundRoots⟩
  rcases soundRoots_or_rootFault project rs with hSound | ⟨e, hFault⟩
  · exact hSound
  · rw [rootsFrom_of_rootFault hFault] at hRoots
    cases hRoots

/-- **What is wrong with the first root that is not sound is the error.** -/
theorem rootsFrom_eq_error_iff {rs : List RootSettings} {e : PlanError} :
    rootsFrom project [] rs = .error e ↔ RootFault project rs e := by
  refine ⟨fun h => ?_, rootsFrom_of_rootFault⟩
  rcases soundRoots_or_rootFault project rs with hSound | ⟨e', hFault⟩
  · obtain ⟨roots, hRoots⟩ := exists_rootsFrom_of_soundRoots hSound
    rw [h] at hRoots
    cases hRoots
  · rw [rootsFrom_of_rootFault hFault] at h
    obtain rfl := Except.error.inj h
    exact hFault

end CoverRun.Plan

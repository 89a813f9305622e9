import CoverRun.Proofs.Path

/-!
# Normal paths

Carrying out `.` and `..` leaves names, after the root if the path is absolute (`Path.Carried`). So
the components of a normal path are the ones that were left (`Path.components_normalize`), and
nothing is left to carry out in it (`Path.normalize_normalize`).
-/

namespace CoverRun.Path

/-- Components that were carried out, last first: names, after the root if at all. -/
inductive Carried : List Component → Prop
  | start : Carried []
  | root : Carried [.root]
  | name {done : List Component} {n : FileName} (before : Carried done) (named : IsName n) :
      Carried (.name n :: done)

theorem Carried.step {done : List Component} (h : Carried done) {c : Component} (hc : IsStep c) :
    Carried (collapse.step done c) := by
  cases c with
  | root => cases hc
  | current => cases hc
  | parent =>
      cases h with
      | start => exact .start
      | root => exact .root
      | name before _ => exact before
  | name n => exact .name h hc

theorem Carried.foldl {done cs : List Component} (h : Carried done) (hcs : ∀ c ∈ cs, IsStep c) :
    Carried (cs.foldl collapse.step done) := by
  induction cs generalizing done with
  | nil => exact h
  | cons c cs ih =>
      obtain ⟨hc, hLater⟩ := List.forall_mem_cons.1 hcs
      exact ih (h.step hc) hLater

theorem carried_components (p : Path) : Carried (p.components.foldl collapse.step []) := by
  have hWritten := isWritten_components p
  cases hComponents : p.components with
  | nil => exact .start
  | cons c cs =>
      rw [hComponents] at hWritten
      obtain ⟨hFirst, hSteps⟩ := hWritten
      rw [List.foldl_cons]
      refine Carried.foldl ?_ hSteps
      rcases hFirst with rfl | rfl | hStep
      · exact .root
      · exact .start
      · exact Carried.start.step hStep

theorem Carried.foldl_reverse {done : List Component} (h : Carried done) :
    done.reverse.foldl collapse.step [] = done := by
  induction h with
  | start => rfl
  | root => rfl
  | name _ _ ih =>
      rw [List.reverse_cons, List.foldl_append, ih]
      rfl

theorem IsWritten.concat {cs : List Component} (h : IsWritten cs) {c : Component} (hc : IsStep c) :
    IsWritten (cs ++ [c]) := by
  cases cs with
  | nil => exact isWritten_of_steps (List.forall_mem_singleton.2 hc)
  | cons first cs =>
      exact ⟨h.1, List.forall_mem_append.2 ⟨h.2, List.forall_mem_singleton.2 hc⟩⟩

theorem Carried.isWritten {done : List Component} (h : Carried done) : IsWritten done.reverse := by
  induction h with
  | start => trivial
  | root => exact ⟨Or.inl rfl, List.forall_mem_nil _⟩
  | name _ named ih =>
      rw [List.reverse_cons]
      exact ih.concat named

/-- **A normal path has the components that are left.** -/
theorem components_normalize (p : Path) : p.normalize.components = collapse p.components :=
  components_ofComponents (carried_components p).isWritten

theorem collapse_collapse (p : Path) : collapse (collapse p.components) = collapse p.components :=
  congrArg List.reverse (carried_components p).foldl_reverse

/-- **A normal path stays as it is.** -/
theorem normalize_normalize (p : Path) : p.normalize.normalize = p.normalize := by
  show ofComponents (collapse p.normalize.components) = ofComponents (collapse p.components)
  rw [components_normalize, collapse_collapse]

end CoverRun.Path

import CoverRun.Proofs.FileTree.Linkless

/-!
# Normal paths of directories

Carrying out `.` and `..` by the text alone is right where no links stand and the path leads to a
directory: what is left are the names of its location (`FileTree.collapse_of_directory`). So two
absolute paths to one directory have the same normal path (`FileTree.normalize_eq_of_directory`).
-/

namespace CoverRun.FileTree

open CoverRun.Path

/-- The components of a location that were carried out, last first. -/
def doneAt (loc : Location) : List Component := (loc.map .name).reverse ++ [.root]

theorem doneAt_concat (loc : Location) (name : FileName) :
    doneAt (loc ++ [name]) = .name name :: doneAt loc := by
  simp [doneAt]

/-- One step back leads to the directory above, and from the root nowhere else. -/
theorem step_parent (loc : Location) :
    collapse.step (doneAt loc) .parent = doneAt loc.dropLast := by
  rcases List.eq_nil_or_concat loc with rfl | ⟨front, name, rfl⟩
  · rfl
  · rw [List.concat_eq_append, doneAt_concat, List.dropLast_concat]
    rfl

/-- **Steps are carried out as they lead from directory to directory.** -/
theorem foldl_step_of_descend {t : FileTree} {loc dir : Location} {cs : List Component}
    (hSteps : ∀ c ∈ cs, IsStep c) (h : descend t loc (cs.filterMap stepName?) = some dir) :
    cs.foldl collapse.step (doneAt loc) = doneAt dir := by
  induction cs generalizing loc with
  | nil =>
      obtain rfl := Option.some.inj h
      rfl
  | cons c cs ih =>
      obtain ⟨hStep, hLater⟩ := List.forall_mem_cons.1 hSteps
      rw [List.foldl_cons]
      cases c with
      | root => cases hStep
      | current => cases hStep
      | parent =>
          rw [step_parent]
          exact ih hLater h
      | name n =>
          change descend t loc (n :: cs.filterMap stepName?) = some dir at h
          rw [descend, if_neg hStep.not_current, if_neg hStep.not_parent] at h
          split at h
          · have hDone : collapse.step (doneAt loc) (.name n) = doneAt (loc ++ [n]) := by
              rw [doneAt_concat]
              rfl
            rw [hDone]
            exact ih hLater h
          · cases h

section

variable {t : FileTree} (hLinks : t.NoLinks) {cwd dir : Location} {p : Path}

include hLinks

/-- **The components of a path to a directory come to the names of its location.** -/
theorem collapse_of_directory (hAbsolute : p.isAbsolute = true)
    (hDirectory : t.directory? cwd p = some dir) :
    collapse p.components = .root :: dir.map .name := by
  obtain ⟨-, hWay⟩ := (directory?_iff_descend hLinks).1 hDirectory
  obtain ⟨cs, hComponents⟩ := List.head?_eq_some_iff.1 (isAbsolute_iff.1 hAbsolute)
  have hSteps : ∀ c ∈ cs, IsStep c := by
    have hWritten := isWritten_components p
    rw [hComponents] at hWritten
    exact hWritten.2
  rw [← descend_filter, filter_namesOf, hComponents, origin, if_pos hAbsolute,
    List.filterMap_cons_none rfl] at hWay
  have hFold : (Component.root :: cs).foldl collapse.step [] = doneAt dir :=
    foldl_step_of_descend hSteps hWay
  rw [hComponents, collapse, hFold, doneAt, List.reverse_append, List.reverse_reverse]
  rfl

theorem normalize_eq_of_directory {p' : Path} (hp : p.isAbsolute = true)
    (hp' : p'.isAbsolute = true) (hDirectory : t.directory? cwd p = some dir)
    (hDirectory' : t.directory? cwd p' = some dir) : p.normalize = p'.normalize := by
  rw [Path.normalize, Path.normalize, collapse_of_directory hLinks hp hDirectory,
    collapse_of_directory hLinks hp' hDirectory']

end

end CoverRun.FileTree

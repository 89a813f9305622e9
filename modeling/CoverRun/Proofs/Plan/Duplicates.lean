import CoverRun.Proofs.FileTree.Normal
import CoverRun.Proofs.Path.Normal
import CoverRun.Proofs.Plan.Load
import CoverRun.Proofs.Plan.Roots

/-!
# Roots that are configured twice

Roots are compared by their normal paths, before any of them is looked up. Where no links stand,
that is as good as looking: the normal paths of two roots are the same exactly if both lead to the
same directory (`Plan.placeOf_eq_iff`).
-/

namespace CoverRun.Plan

open FileTree

variable {project : Path}

theorem rootsFrom_eq_duplicate_iff {seen : List Path} {r : RootSettings} :
    rootsFrom project seen [r] = .error (.duplicateRoot r.path) ↔ placeOf project r ∈ seen := by
  rw [rootsFrom, placeOf]
  constructor
  · intro h
    by_contra hNew
    simp only [if_neg hNew] at h
    split at h
    · cases h
    · cases h
  · intro hSeen
    exact if_pos hSeen

section

variable {t : FileTree} (hLinks : t.NoLinks) {cwd : Location}
  (hProject : project.isAbsolute = true) {r r' : RootSettings} {dir dir' : Location}

include hLinks hProject

/-- The normal path of a root has the names of the directory that the root leads to. -/
theorem components_placeOf (h : t.directory? cwd (resolve project r.path) = some dir) :
    (placeOf project r).components = .root :: dir.map .name := by
  rw [placeOf, Path.components_normalize]
  exact collapse_of_directory hLinks (isAbsolute_resolve hProject r.path) h

/-- **Two roots come to the same normal path exactly if they lead to the same directory**, and
exactly then the later one is refused. What is normal stays as it is. -/
theorem placeOf_eq_iff (hDir : t.directory? cwd (resolve project r.path) = some dir)
    (hDir' : t.directory? cwd (resolve project r'.path) = some dir') :
    (placeOf project r = placeOf project r' ↔ dir = dir') ∧
      (rootsFrom project [placeOf project r] [r'] = .error (.duplicateRoot r'.path) ↔
        dir = dir') ∧
      ∀ p : Path, p.normalize.normalize = p.normalize := by
  have hPlaces : placeOf project r = placeOf project r' ↔ dir = dir' := by
    constructor
    · intro hEq
      have hNames : Path.Component.root :: dir.map .name = .root :: dir'.map .name := by
        rw [← components_placeOf hLinks hProject hDir, hEq,
          components_placeOf hLinks hProject hDir']
      exact Path.map_name_injective (List.tail_eq_of_cons_eq hNames)
    · rintro rfl
      exact normalize_eq_of_directory hLinks (isAbsolute_resolve hProject r.path)
        (isAbsolute_resolve hProject r'.path) hDir hDir'
  refine ⟨hPlaces, ?_, Path.normalize_normalize⟩
  rw [rootsFrom_eq_duplicate_iff, List.mem_singleton, eq_comm, hPlaces]

end

/-- Two directories, one of which is reached across the other, and past the root. -/
theorem placeOf_eq_iff_roundabout :
    let t := ((FileTree.empty.place ["p"] .directory).place ["p", "a"] .directory).place
      ["p", "b"] .directory
    let a : RootSettings := ⟨"a", []⟩
    let b : RootSettings := ⟨"./a/..//b/", []⟩
    let b' : RootSettings := ⟨"/../p/./b", ["../c"]⟩
    t.directory? [] (resolve "/p" a.path) = some (["p", "a"] : Location) ∧
      t.directory? [] (resolve "/p" b.path) = some (["p", "b"] : Location) ∧
      t.directory? [] (resolve "/p" b'.path) = some (["p", "b"] : Location) ∧
      placeOf "/p" a ≠ placeOf "/p" b ∧ placeOf "/p" b = placeOf "/p" b' ∧
      rootsFrom "/p" [placeOf "/p" b] [b'] = .error (.duplicateRoot "/../p/./b") := by
  intro t a b b'
  have hLinks : t.NoLinks := noLinks_of_entries (by decide +kernel)
  have hDirectory {path : Path} {dir : Location} (hPassable : IsPassable path)
      (hWay : descend t (origin [] path) (namesOf path) = some dir) :
      t.directory? [] path = some dir :=
    (directory?_iff_descend hLinks).2 ⟨hPassable, hWay⟩
  have hA : t.directory? [] (resolve "/p" a.path) = some (["p", "a"] : Location) :=
    hDirectory ⟨by decide +kernel, by decide +kernel, by decide +kernel⟩ (by decide +kernel)
  have hB : t.directory? [] (resolve "/p" b.path) = some (["p", "b"] : Location) :=
    hDirectory ⟨by decide +kernel, by decide +kernel, by decide +kernel⟩ (by decide +kernel)
  have hB' : t.directory? [] (resolve "/p" b'.path) = some (["p", "b"] : Location) :=
    hDirectory ⟨by decide +kernel, by decide +kernel, by decide +kernel⟩ (by decide +kernel)
  have hApart := (placeOf_eq_iff hLinks (by decide +kernel) hA hB).1
  obtain ⟨hSame, hRefused, -⟩ := placeOf_eq_iff hLinks (by decide +kernel) hB hB'
  exact ⟨hA, hB, hB', mt hApart.1 (by decide), hSame.2 rfl, hRefused.2 rfl⟩

end CoverRun.Plan

import CoverRun.Proofs.FileTree.Linkless
import CoverRun.Proofs.FileTree.WellFormed

/-!
# Trees with files put over them

`Overlay t locs u` says that `u` is `t` but for files at some locations, where `t` has files or
nothing. Writing files one after another makes one (`overlay_place`, `Overlay.trans`), taking them
away again leads back (`Overlay.drop`, `Overlay.eq`), and no directory comes or goes meanwhile
(`Overlay.directory_iff`). A tree with files lies over the tree without them (`overlay_without`).
-/

namespace CoverRun.FileTree

/-- One tree is another one with files put at some locations. -/
structure Overlay (t : FileTree) (locs : List Location) (u : FileTree) : Prop where
  below : [] ∉ locs
  admits : ∀ loc ∈ locs, t.find? loc = none ∨ ∃ content, t.find? loc = some (.file content)
  file : ∀ loc ∈ locs, ∃ content, u.find? loc = some (.file content)
  same : ∀ loc ∉ locs, u.entries.find? loc = t.entries.find? loc

theorem find?_drop {t : FileTree} {loc : Location} (hne : loc ≠ []) (loc' : Location) :
    (t.drop loc).find? loc' = if loc' = loc then none else t.find? loc' := by
  rw [find?, drop, find?, OrderedMap.find?_erase]
  by_cases hRoot : loc' = []
  · subst hRoot
    simp [Ne.symm hne]
  · simp [hRoot]

section

variable {t u v : FileTree} {locs locs' : List Location}

theorem Overlay.find?_eq (h : Overlay t locs u) {loc : Location} (hLoc : loc ∉ locs) :
    u.find? loc = t.find? loc := by
  rw [find?, find?, h.same loc hLoc]

/-- Only locations at which something has changed count. -/
theorem Overlay.changed (h : Overlay t locs u) :
    Overlay t (locs.filter fun loc => u.find? loc ≠ t.find? loc) u := by
  refine ⟨fun hMem => h.below (List.mem_filter.1 hMem).1,
    fun loc hLoc => h.admits loc (List.mem_filter.1 hLoc).1,
    fun loc hLoc => h.file loc (List.mem_filter.1 hLoc).1, fun loc hNot => ?_⟩
  by_cases hLoc : loc ∈ locs
  · have hSame : u.find? loc = t.find? loc := by
      by_contra hChanged
      exact hNot (List.mem_filter.2 ⟨hLoc, decide_eq_true hChanged⟩)
    have hne : loc ≠ [] := fun hEmpty => h.below (hEmpty ▸ hLoc)
    rwa [find?, find?, if_neg hne, if_neg hne] at hSame
  · exact h.same loc hLoc

theorem overlay_refl (t : FileTree) : Overlay t [] t :=
  ⟨List.not_mem_nil, fun _ h => absurd h List.not_mem_nil, fun _ h => absurd h List.not_mem_nil,
    fun _ _ => rfl⟩

theorem Overlay.eq (h : Overlay t [] u) : u = t :=
  congrArg FileTree.mk (OrderedMap.ext_find? fun loc => h.same loc List.not_mem_nil)

theorem overlay_place {loc : Location} (hne : loc ≠ [])
    (h : t.find? loc = none ∨ ∃ content, t.find? loc = some (.file content)) (content : Bytes) :
    Overlay t [loc] (t.place loc (.file content)) where
  below := fun hRoot => hne (List.mem_singleton.1 hRoot).symm
  admits := fun loc' hLoc => by rwa [List.mem_singleton.1 hLoc]
  file := fun loc' hLoc => ⟨content, by rw [find?_place hne, if_pos (List.mem_singleton.1 hLoc)]⟩
  same := fun loc' hLoc => by
    rw [place, OrderedMap.find?_insert, if_neg (mt List.mem_singleton.2 hLoc)]

theorem Overlay.trans (h : Overlay t locs u) (h' : Overlay u locs' v) :
    Overlay t (locs ++ locs') v := by
  refine ⟨fun hRoot => ?_, fun loc hLoc => ?_, fun loc hLoc => ?_, fun loc hLoc => ?_⟩
  · exact (List.mem_append.1 hRoot).elim h.below h'.below
  · by_cases hEarlier : loc ∈ locs
    · exact h.admits loc hEarlier
    · have hLater := (List.mem_append.1 hLoc).resolve_left hEarlier
      rw [← h.find?_eq hEarlier]
      exact h'.admits loc hLater
  · by_cases hLater : loc ∈ locs'
    · exact h'.file loc hLater
    · have hEarlier := (List.mem_append.1 hLoc).resolve_right hLater
      rw [h'.find?_eq hLater]
      exact h.file loc hEarlier
  · rw [List.mem_append, not_or] at hLoc
    rw [h'.same loc hLoc.2, h.same loc hLoc.1]

theorem Overlay.drop (h : Overlay t locs u) {loc : Location} (hLoc : loc ∈ locs)
    (hFree : t.find? loc = none) : Overlay t (locs.filter (· ≠ loc)) (u.drop loc) := by
  have hne : loc ≠ [] := fun hRoot => h.below (hRoot ▸ hLoc)
  have hMem (loc' : Location) : loc' ∈ locs.filter (· ≠ loc) ↔ loc' ∈ locs ∧ loc' ≠ loc := by
    simp
  refine ⟨fun hRoot => ?_, fun loc' hLoc' => ?_, fun loc' hLoc' => ?_, fun loc' hLoc' => ?_⟩
  · exact h.below ((hMem []).1 hRoot).1
  · exact h.admits loc' ((hMem loc').1 hLoc').1
  · obtain ⟨hOld, hOther⟩ := (hMem loc').1 hLoc'
    rw [find?_drop hne, if_neg hOther]
    exact h.file loc' hOld
  · rw [FileTree.drop, OrderedMap.find?_erase]
    split
    · next hEq =>
      rw [find?, if_neg hne] at hFree
      rw [hEq, hFree]
    · next hOther => exact h.same loc' fun hOld => hLoc' ((hMem loc').2 ⟨hOld, hOther⟩)

/-- **Files come, directories stay.** -/
theorem Overlay.directory_iff (h : Overlay t locs u) (loc : Location) :
    t.find? loc = some .directory ↔ u.find? loc = some .directory := by
  by_cases hLoc : loc ∈ locs
  · obtain ⟨content, hFile⟩ := h.file loc hLoc
    rw [hFile]
    rcases h.admits loc hLoc with hFree | ⟨old, hOld⟩
    · simp [hFree]
    · simp [hOld]
  · rw [h.find?_eq hLoc]

theorem Overlay.noLinks (h : Overlay t locs u) (hLinks : t.NoLinks) : u.NoLinks := by
  intro loc target hFind
  by_cases hLoc : loc ∈ locs
  · obtain ⟨content, hFile⟩ := h.file loc hLoc
    rw [hFile] at hFind
    cases hFind
  · rw [h.find?_eq hLoc] at hFind
    exact hLinks loc target hFind

theorem Overlay.descend_eq (h : Overlay t locs u) (loc : Location) (names : List FileName) :
    descend u loc names = descend t loc names :=
  (descend_congr h.directory_iff).symm

/-- **A path leads to the same directory as before.** -/
theorem Overlay.directory?_eq (h : Overlay t locs u) (hLinks : t.NoLinks) (cwd : Location)
    (p : Path) : u.directory? cwd p = t.directory? cwd p := by
  apply Option.ext
  intro loc
  rw [directory?_iff_descend (h.noLinks hLinks), directory?_iff_descend hLinks, h.descend_eq]

/-! ## Without some files -/

/-- The tree without what stands at some locations. -/
def without (t : FileTree) (locs : List Location) : FileTree :=
  ⟨t.entries.filter fun loc _ => decide (loc ∉ locs)⟩

theorem find?_without (hRoot : [] ∉ locs) (loc : Location) :
    (t.without locs).find? loc = if loc ∈ locs then none else t.find? loc := by
  rw [find?, without, OrderedMap.find?_filter, find?]
  by_cases hEmpty : loc = []
  · subst hEmpty
    simp [hRoot]
  · by_cases hLoc : loc ∈ locs <;> simp [hEmpty, hLoc]

/-- A tree lies over itself without some of its files. -/
theorem overlay_without (h : ∀ loc ∈ locs, ∃ content, t.find? loc = some (.file content)) :
    Overlay (t.without locs) locs t := by
  have hRoot : [] ∉ locs := fun hMem => by
    obtain ⟨content, hFile⟩ := h [] hMem
    cases hFile
  refine ⟨hRoot, fun loc hLoc => Or.inl ?_, h, fun loc hLoc => ?_⟩
  · rw [find?_without hRoot, if_pos hLoc]
  · rw [without, OrderedMap.find?_filter, if_pos (by simpa using hLoc)]

end

end CoverRun.FileTree

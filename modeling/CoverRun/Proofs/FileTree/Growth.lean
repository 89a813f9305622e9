import CoverRun.Proofs.FileTree.Linkless
import CoverRun.Proofs.FileTree.WellFormed

/-!
# Trees that grow

A tree grows when something is put where nothing was (`growsTo_place`). What a path led to before it
leads to afterwards, links or not (`FileTree.GrowsTo.walk`, `FileTree.GrowsTo.directory?`). Creating
a directory in one that is there grows the tree or leaves it as it is, and never goes further up
(`makeDirectories_join_iff`).
-/

namespace CoverRun.FileTree

open CoverRun.Path

/-- What stands in one tree stands in the other one too. -/
def GrowsTo (t u : FileTree) : Prop := ∀ loc e, t.find? loc = some e → u.find? loc = some e

section

variable {t u v : FileTree}

theorem GrowsTo.refl (t : FileTree) : t.GrowsTo t := fun _ _ hFind => hFind

theorem GrowsTo.trans (h : t.GrowsTo u) (h' : u.GrowsTo v) : t.GrowsTo v :=
  fun loc e hFind => h' loc e (h loc e hFind)

theorem growsTo_place {loc : Location} (hFree : t.find? loc = none) (e : Entry) :
    t.GrowsTo (t.place loc e) := by
  have hne : loc ≠ [] := by
    rintro rfl
    cases hFree
  intro loc' e' hFind
  rw [find?_place hne]
  split
  · next hEq =>
    rw [hEq, hFree] at hFind
    cases hFind
  · exact hFind

/-- **A walk to something leads there also in a tree that has grown.** -/
theorem GrowsTo.walk (h : t.GrowsTo u) {last : LastName} {slashed : Bool} {links : Nat}
    {loc place : Location} {names : List FileName} {e : Entry}
    (hWalk : FileTree.walk t last slashed links loc names = .ok (.present place e)) :
    FileTree.walk u last slashed links loc names = .ok (.present place e) := by
  fun_induction FileTree.walk t last slashed links loc names with
  | case1 => rwa [FileTree.walk]
  | case2 slashed links loc name names hCurrent ih =>
      rw [FileTree.walk, if_pos hCurrent]
      exact ih hWalk
  | case3 slashed links loc name names hCurrent hParent ih =>
      rw [FileTree.walk, if_neg hCurrent, if_pos hParent]
      exact ih hWalk
  | case8 slashed links loc name names hCurrent hParent hCreated hShort child hFind ih =>
      have hThere : u.find? (loc ++ [name]) = some .directory := h child _ hFind
      rw [FileTree.walk, if_neg hCurrent, if_neg hParent, if_neg hCreated, if_neg hShort]
      simp only [hThere]
      exact ih hWalk
  | case9 slashed links loc name names hCurrent hParent hCreated hShort child content hFind hLast =>
      have hThere : u.find? (loc ++ [name]) = some (.file content) := h child _ hFind
      rw [FileTree.walk, if_neg hCurrent, if_neg hParent, if_neg hCreated, if_neg hShort]
      simp only [hThere]
      rwa [if_pos hLast]
  | case11 slashed links loc name names hCurrent hParent hCreated hShort child target hFind
      hStops =>
      have hThere : u.find? (loc ++ [name]) = some (.link target) := h child _ hFind
      rw [FileTree.walk, if_neg hCurrent, if_neg hParent, if_neg hCreated, if_neg hShort]
      simp only [hThere]
      rwa [if_pos hStops]
  | case13 slashed loc name names hCurrent hParent hCreated hShort child target hFind hGoes links
      ih =>
      have hThere : u.find? (loc ++ [name]) = some (.link target) := h child _ hFind
      rw [FileTree.walk, if_neg hCurrent, if_neg hParent, if_neg hCreated, if_neg hShort]
      simp only [hThere]
      rw [if_neg hGoes]
      simpa using ih (by simpa using hWalk)
  | _ => cases hWalk

variable {cwd place : Location} {p : Path}

theorem GrowsTo.resolve (h : t.GrowsTo u) {last : LastName} {e : Entry}
    (hResolve : t.resolve cwd p last = .ok (.present place e)) :
    u.resolve cwd p last = .ok (.present place e) := by
  have hPassable := isPassable_of_resolve hResolve
  rw [resolve_of_isPassable hPassable] at hResolve ⊢
  exact h.walk hResolve

theorem GrowsTo.directory? (h : t.GrowsTo u) (hDirectory : t.directory? cwd p = some place) :
    u.directory? cwd p = some place :=
  directory?_eq_some_iff.2 (h.resolve (directory?_eq_some_iff.1 hDirectory))

end

/-! ## In a directory -/

/-- A path that cannot be handed over fails in the same way in every tree, and not because something
is missing. -/
theorem exists_error_of_not_isPassable {p : Path} (hText : p.bytes ≠ []) (h : ¬ IsPassable p) :
    ∃ error, error ≠ FileError.notFound ∧
      ∀ (t : FileTree) cwd last, t.resolve cwd p last = .error error := by
  by_cases hNul : p.bytes.contains 0 = true
  · refine ⟨.nulInPath, by simp, fun t cwd last => ?_⟩
    rw [resolve, if_neg hText, if_pos hNul]
  · have hLong : pathLimit ≤ p.bytes.length := by
      by_contra hShort
      exact h ⟨hText, Bool.eq_false_iff.2 hNul, Nat.not_le.1 hShort⟩
    refine ⟨.nameTooLong, by simp, fun t cwd last => ?_⟩
    rw [resolve, if_neg hText, if_neg hNul, if_pos hLong]

section

variable {t u : FileTree} {cwd loc : Location} {p : Path} {name : FileName}
  (hDirectory : t.directory? cwd p = some loc) (hName : IsName name)
  (hShort : name.bytes.length ≤ nameLimit)

include hDirectory hName hShort

/-- **A name after the path of a directory leads to what stands under it there.** -/
theorem resolve_join (hNoLink : ∀ target, t.find? (loc ++ [name]) ≠ some (.link target))
    (hPassable : IsPassable (p.join ⟨name.bytes⟩)) (last : LastName) :
    t.resolve cwd (p.join ⟨name.bytes⟩) last = .ok (t.lookUp loc name) := by
  obtain ⟨hText, hWalk⟩ := walk_of_resolve (directory?_eq_some_iff.1 hDirectory)
  obtain ⟨links, hOn⟩ := walk_append hWalk
  have hLast : t.walk last false links loc [name] = .ok (t.lookUp loc name) :=
    walk_last ⟨hName.not_current, hName.not_parent, hShort⟩ hNoLink last links
  rw [resolve_of_isPassable hPassable, isSlashed_join p hName, namesOf_join hText hName, origin,
    isAbsolute_join hText hName.isAbsolute, hOn last false [name] (List.cons_ne_nil name []), hLast]

theorem directory?_join (hFind : t.find? (loc ++ [name]) = some .directory)
    (hPassable : IsPassable (p.join ⟨name.bytes⟩)) :
    t.directory? cwd (p.join ⟨name.bytes⟩) = some (loc ++ [name]) := by
  rw [directory?_eq_some_iff,
    resolve_join hDirectory hName hShort (by simp [hFind]) hPassable, lookUp_of_some hFind]

variable (hNoLink : ∀ target, t.find? (loc ++ [name]) ≠ some (.link target))

include hNoLink

theorem lacksParent_join : t.lacksParent cwd (p.join ⟨name.bytes⟩) = false := by
  obtain ⟨hText, -⟩ := walk_of_resolve (directory?_eq_some_iff.1 hDirectory)
  by_cases hPassable : IsPassable (p.join ⟨name.bytes⟩)
  · have hResolve := resolve_join hDirectory hName hShort hNoLink hPassable .named
    cases hFind : t.find? (loc ++ [name]) with
    | none => rw [lacksParent, makeDirectory, hResolve, lookUp_of_none hFind]
    | some e => rw [lacksParent, makeDirectory, hResolve, lookUp_of_some hFind]
  · obtain ⟨error, hOther, hError⟩ :=
      exists_error_of_not_isPassable (bytes_join_ne hText hName.isAbsolute) hPassable
    rw [lacksParent, makeDirectory, hError]
    cases error <;> first | rfl | exact absurd rfl hOther

theorem makeDirectories_join :
    t.makeDirectories cwd (p.join ⟨name.bytes⟩) = t.settleDirectory cwd (p.join ⟨name.bytes⟩) := by
  obtain ⟨hText, -⟩ := walk_of_resolve (directory?_eq_some_iff.1 hDirectory)
  have hComponents : (p.join ⟨name.bytes⟩).components ≠ [] :=
    components_ne_nil (bytes_join_ne hText hName.isAbsolute)
  have hParent := lacksParent_join hDirectory hName hShort hNoLink
  rw [makeDirectories]
  cases (p.join ⟨name.bytes⟩).ancestors with
  | nil => rw [makeMissing, if_neg hComponents]
  | cons parent further =>
      rw [makeMissing, if_neg hComponents, hParent, if_neg Bool.false_ne_true]

/-- **A directory is created in one that is there**, unless it is there already, and exactly if
nothing else stands under its name. -/
theorem makeDirectories_join_iff :
    t.makeDirectories cwd (p.join ⟨name.bytes⟩) = (u, .ok ()) ↔ IsPassable (p.join ⟨name.bytes⟩) ∧
      (t.find? (loc ++ [name]) = some .directory ∧ u = t ∨
        t.find? (loc ++ [name]) = none ∧ u = t.place (loc ++ [name]) .directory) := by
  obtain ⟨hText, -⟩ := walk_of_resolve (directory?_eq_some_iff.1 hDirectory)
  rw [makeDirectories_join hDirectory hName hShort hNoLink, settleDirectory]
  by_cases hPassable : IsPassable (p.join ⟨name.bytes⟩)
  · have hResolve := resolve_join hDirectory hName hShort hNoLink hPassable
    cases hFind : t.find? (loc ++ [name]) with
    | none => simp [makeDirectory, hResolve, lookUp_of_none hFind, hPassable, eq_comm]
    | some e =>
        cases e with
        | directory =>
            simp [makeDirectory, FileTree.directory?, hResolve, lookUp_of_some hFind, hPassable,
              eq_comm]
        | file content =>
            simp [makeDirectory, FileTree.directory?, hResolve, lookUp_of_some hFind]
        | link target => exact absurd hFind (hNoLink target)
  · obtain ⟨error, -, hError⟩ :=
      exists_error_of_not_isPassable (bytes_join_ne hText hName.isAbsolute) hPassable
    simp [makeDirectory, FileTree.directory?, hError, hPassable]

end

end CoverRun.FileTree

import CoverRun.Proofs.FileTree

/-!
# Trees stay well formed

Where a path leads is what stands there (`walk_holds`). So a tree in which each entry stands in a
directory, under a name, stays one when files are written and removed and directories are created.
-/

namespace CoverRun.FileTree

open CoverRun.Path

/-! ## Where a path leads -/

/-- A target as it is found in a tree. -/
def Target.Holds (t : FileTree) : Target → Prop
  | .present loc e => t.find? loc = some e
  | .absent parent name =>
    t.find? parent = some .directory ∧ t.find? (parent ++ [name]) = none ∧ IsName name

/-- What can stand between separators. -/
def IsPiece (name : FileName) : Prop := name.bytes ≠ [] ∧ slash ∉ name.bytes

theorem isPiece_namesOf (p : Path) : ∀ n ∈ namesOf p, IsPiece n := by
  intro n hn
  obtain ⟨piece, hPiece, rfl⟩ := List.mem_map.1 hn
  obtain ⟨hMem, hNonempty⟩ := List.mem_filter.1 hPiece
  exact ⟨by simpa using hNonempty, not_mem_pieces p.bytes piece hMem⟩

theorem Rooted.find?_dropLast {t : FileTree} (h : t.Rooted) {loc : Location}
    (hLoc : t.find? loc = some .directory) : t.find? loc.dropLast = some .directory := by
  by_cases hne : loc = []
  · subst hne
    exact hLoc
  · exact (h _ ((find?_eq_some_iff hne).1 hLoc)).2

/-- **Where a walk leads is what stands there.** -/
theorem walk_holds {t : FileTree} (hRooted : t.Rooted) {last : LastName} {slashed : Bool}
    {links : Nat} {loc : Location} {names : List FileName} {target : Target}
    (hLoc : t.find? loc = some .directory) (hNames : ∀ n ∈ names, IsPiece n)
    (h : walk t last slashed links loc names = .ok target) : target.Holds t := by
  fun_induction walk t last slashed links loc names with
  | case1 slashed links loc =>
      cases h
      exact hLoc
  | case2 slashed links loc name names _ ih =>
      exact ih hLoc (fun n hn => hNames n (List.mem_cons_of_mem _ hn)) h
  | case3 slashed links loc name names _ _ ih =>
      exact ih (hRooted.find?_dropLast hLoc) (fun n hn => hNames n (List.mem_cons_of_mem _ hn)) h
  | case6 slashed links loc name hCurrent hParent _ child hFind _ =>
      obtain rfl := Except.ok.inj h
      obtain ⟨hNonempty, hSlash⟩ := hNames name List.mem_cons_self
      exact ⟨hLoc, hFind, hNonempty, hCurrent, hParent, hSlash⟩
  | case8 slashed links loc name names _ _ _ _ child hFind ih =>
      exact ih hFind (fun n hn => hNames n (List.mem_cons_of_mem _ hn)) h
  | case9 slashed links loc name names _ _ _ _ child content hFind _ =>
      obtain rfl := Except.ok.inj h
      exact hFind
  | case11 slashed links loc name names _ _ _ _ child target' hFind _ =>
      obtain rfl := Except.ok.inj h
      exact hFind
  | case13 slashed loc name names _ _ _ _ child target' hFind _ links ih =>
      refine ih ?_ ?_ (by simpa using h)
      · split
        · rfl
        · exact hLoc
      · intro n hn
        rcases List.mem_append.1 hn with hn | hn
        · exact isPiece_namesOf target' n hn
        · exact hNames n (List.mem_cons_of_mem _ hn)
  | _ => cases h

theorem resolve_holds {t : FileTree} (hRooted : t.Rooted) {cwd : Location}
    (hCwd : t.find? cwd = some .directory) {p : Path} {last : LastName} {target : Target}
    (h : t.resolve cwd p last = .ok target) : target.Holds t := by
  refine walk_holds hRooted ?_ (isPiece_namesOf p) (walk_of_resolve h).2
  split
  · rfl
  · exact hCwd

/-! ## Changes -/

theorem find?_place {t : FileTree} {loc : Location} (hne : loc ≠ []) (e : Entry)
    (loc' : Location) :
    (t.place loc e).find? loc' = if loc' = loc then some e else t.find? loc' := by
  rw [find?, place, find?, OrderedMap.find?_insert]
  by_cases hRoot : loc' = []
  · subst hRoot
    simp [Ne.symm hne]
  · simp [hRoot]

/-- A tree stays well formed when something is put into a directory under a name, unless it takes
the place of a directory without being one. -/
theorem WellFormed.place {t : FileTree} (h : t.WellFormed) {loc : Location} (hne : loc ≠ [])
    (hParent : t.find? loc.dropLast = some .directory) (hNames : ∀ n ∈ loc, IsName n) {e : Entry}
    (hKeeps : t.find? loc = some .directory → e = .directory) : (t.place loc e).WellFormed := by
  have hMem : ∀ e' ∈ (t.place loc e).entries.entries, e' = (loc, e) ∨ e' ∈ t.entries.entries :=
    fun _ he' => Entries.mem_put he'
  have hDirectory (loc' : Location) (hFind : t.find? loc' = some .directory) :
      (t.place loc e).find? loc' = some .directory := by
    rw [find?_place hne]
    split
    · next hEq =>
      subst hEq
      rw [hKeeps hFind]
    · exact hFind
  refine ⟨fun e' he' => ?_, fun e' he' => ?_⟩
  · rcases hMem e' he' with rfl | he'
    · exact ⟨hne, hDirectory _ hParent⟩
    · exact ⟨(h.rooted e' he').1, hDirectory _ (h.rooted e' he').2⟩
  · rcases hMem e' he' with rfl | he'
    · exact hNames
    · exact h.named e' he'

theorem WellFormed.drop {t : FileTree} (h : t.WellFormed) {loc : Location}
    (hFind : t.find? loc ≠ some .directory) : (t.drop loc).WellFormed := by
  have hMem : ∀ e ∈ (t.drop loc).entries.entries, e ∈ t.entries.entries := fun _ he =>
    (List.mem_filter.1 he).1
  have hDirectory (loc' : Location) (hDirectory : t.find? loc' = some .directory) :
      (t.drop loc).find? loc' = some .directory := by
    by_cases hRoot : loc' = []
    · exact if_pos hRoot
    · rw [find?_eq_some_iff hRoot] at hDirectory ⊢
      refine List.mem_filter.2 ⟨hDirectory, ?_⟩
      simp only [decide_eq_true_eq]
      rintro rfl
      exact hFind ((find?_eq_some_iff hRoot).2 hDirectory)
  exact ⟨fun e he => ⟨(h.rooted e (hMem e he)).1, hDirectory _ (h.rooted e (hMem e he)).2⟩,
    fun e he => h.named e (hMem e he)⟩

theorem WellFormed.named_of_find? {t : FileTree} (h : t.WellFormed) {loc : Location} {e : Entry}
    (hFind : t.find? loc = some e) : ∀ n ∈ loc, IsName n := by
  by_cases hne : loc = []
  · subst hne
    simp
  · exact h.named _ ((find?_eq_some_iff hne).1 hFind)

theorem WellFormed.place_absent {t : FileTree} (h : t.WellFormed) {parent : Location}
    {name : FileName} (hAbsent : (Target.absent parent name).Holds t) (e : Entry) :
    (t.place (parent ++ [name]) e).WellFormed := by
  obtain ⟨hParent, hFree, hName⟩ := hAbsent
  refine h.place (by simp) (by simpa using hParent) ?_ (by simp [hFree])
  intro n hn
  rcases List.mem_append.1 hn with hn | hn
  · exact h.named_of_find? hParent n hn
  · rwa [List.mem_singleton.1 hn]

section

variable {t t' : FileTree} {cwd : Location} {p : Path}

theorem WellFormed.write (h : t.WellFormed) (hCwd : t.find? cwd = some .directory)
    {content : Bytes} (hWrite : t.write cwd p content = .ok t') : t'.WellFormed := by
  rw [FileTree.write] at hWrite
  split at hWrite
  · next loc content' hResolve =>
    obtain rfl := Except.ok.inj hWrite
    have hFind : t.find? loc = some (.file content') := resolve_holds h.rooted hCwd hResolve
    have hne : loc ≠ [] := by
      rintro rfl
      cases hFind
    refine h.place hne (h.rooted _ ((find?_eq_some_iff hne).1 hFind)).2 (h.named_of_find? hFind) ?_
    simp [hFind]
  · cases hWrite
  · cases hWrite
  · next hResolve =>
    obtain rfl := Except.ok.inj hWrite
    exact h.place_absent (resolve_holds h.rooted hCwd hResolve) _
  · cases hWrite

theorem WellFormed.makeDirectory (h : t.WellFormed) (hCwd : t.find? cwd = some .directory)
    (hMake : t.makeDirectory cwd p = .ok t') : t'.WellFormed := by
  rw [FileTree.makeDirectory] at hMake
  split at hMake
  · cases hMake
  · next hResolve =>
    obtain rfl := Except.ok.inj hMake
    exact h.place_absent (resolve_holds h.rooted hCwd hResolve) _
  · cases hMake

theorem WellFormed.remove (h : t.WellFormed) (hCwd : t.find? cwd = some .directory)
    (hRemove : t.remove cwd p = .ok t') : t'.WellFormed := by
  rw [FileTree.remove] at hRemove
  split at hRemove
  · cases hRemove
  · next loc e hNot hResolve =>
    have hFind : t.find? loc = some e := resolve_holds h.rooted hCwd hResolve
    split at hRemove
    · cases hRemove
    · obtain rfl := Except.ok.inj hRemove
      refine h.drop ?_
      rw [hFind]
      rintro ⟨⟩
      exact hNot rfl
  · cases hRemove
  · cases hRemove

end

end CoverRun.FileTree

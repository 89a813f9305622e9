import CoverRun.Proofs.FileTree.Overlay

/-!
# Plain trees

A plain tree is what a disk can hold without links. It stays one when files are written
(`FileTree.Plain.write`), and a path that goes on from a directory by the names of an entry leads to
the entry (`FileTree.leadsTo_join`), unless it is too long.
-/

namespace CoverRun.FileTree

open CoverRun.Path

/-- Directories and files under names that can be stored. -/
structure Plain (t : FileTree) : Prop where
  wellFormed : t.WellFormed
  noLinks : t.NoLinks
  storable : ∀ e ∈ t.entries.entries, ∀ n ∈ e.1,
    n.bytes.length ≤ nameLimit ∧ 0 ∉ n.bytes

/-! ## Writing -/

theorem not_mem_of_mem_namesOf {p : Path} {b : UInt8} (h : b ∉ p.bytes) :
    ∀ n ∈ namesOf p, b ∉ n.bytes := by
  intro n hn hb
  obtain ⟨piece, hPiece, rfl⟩ := List.mem_map.1 hn
  exact h (mem_of_mem_pieces piece (List.mem_filter.1 hPiece).1 hb)

theorem IsPassable.nul_not_mem {p : Path} (h : IsPassable p) : 0 ∉ p.bytes := by
  simpa using h.noNul

section

variable {t u : FileTree} {cwd : Location} {p : Path}

theorem Plain.names (h : t.Plain) {loc : Location} {e : Entry} (hFind : t.find? loc = some e) :
    ∀ n ∈ loc, IsName n ∧ n.bytes.length ≤ nameLimit ∧ 0 ∉ n.bytes := by
  intro n hn
  have hMem := (find?_eq_some_iff (List.ne_nil_of_mem hn)).1 hFind
  exact ⟨h.wellFormed.named _ hMem n hn, h.storable _ hMem n hn⟩

theorem Plain.isShort (h : t.Plain) {loc : Location} {e : Entry} (hFind : t.find? loc = some e) :
    ∀ n ∈ loc, IsShort n := fun n hn =>
  have hName := h.names hFind n hn
  ⟨hName.1.not_current, hName.1.not_parent, hName.2.1⟩

theorem Plain.exists_place (h : t.Plain) (hCwd : t.find? cwd = some .directory) {content : Bytes}
    (hWrite : t.write cwd p content = .ok u) :
    ∃ loc, loc ≠ [] ∧ u = t.place loc (.file content) ∧
      (t.find? loc = none ∨ ∃ old, t.find? loc = some (.file old)) ∧
      ∀ n ∈ loc, n.bytes.length ≤ nameLimit ∧ 0 ∉ n.bytes := by
  rw [FileTree.write] at hWrite
  split at hWrite
  · next loc old hResolve =>
    have hFind : t.find? loc = some (.file old) := resolve_holds h.wellFormed.rooted hCwd hResolve
    have hne : loc ≠ [] := by
      rintro rfl
      cases hFind
    exact ⟨loc, hne, (Except.ok.inj hWrite).symm, Or.inr ⟨old, hFind⟩,
      fun n hn => (h.names hFind n hn).2⟩
  · cases hWrite
  · cases hWrite
  · next parent name hResolve =>
    obtain ⟨hParent, hFree, -⟩ : (Target.absent parent name).Holds t :=
      resolve_holds h.wellFormed.rooted hCwd hResolve
    obtain ⟨hMem, hShort⟩ := (leads_of_resolve h.noLinks hResolve).name_of_absent
    have hNul := not_mem_of_mem_namesOf (isPassable_of_resolve hResolve).nul_not_mem name hMem
    refine ⟨parent ++ [name], by simp, (Except.ok.inj hWrite).symm, Or.inl hFree, fun n hn => ?_⟩
    rcases List.mem_append.1 hn with hn | hn
    · exact (h.names hParent n hn).2
    · rw [List.mem_singleton.1 hn]
      exact ⟨hShort, hNul⟩
  · cases hWrite

/-- **A plain tree stays plain when a file is written.** -/
theorem Plain.write (h : t.Plain) (hCwd : t.find? cwd = some .directory) {content : Bytes}
    (hWrite : t.write cwd p content = .ok u) : u.Plain := by
  have hWellFormed := h.wellFormed.write hCwd hWrite
  obtain ⟨loc, hne, rfl, hAdmits, hNames⟩ := h.exists_place hCwd hWrite
  refine ⟨hWellFormed, (overlay_place hne hAdmits content).noLinks h.noLinks, fun e he => ?_⟩
  rcases Entries.mem_put he with rfl | hOld
  · exact hNames
  · exact h.storable e hOld

end

/-! ## Paths of entries -/

/-- A path leads to a name in a directory, if it is not too long. -/
structure LeadsTo (t : FileTree) (cwd : Location) (p : Path) (dir : Location) (name : FileName) :
    Prop where
  short : IsShort name
  nonempty : p.bytes ≠ []
  noNul : 0 ∉ p.bytes
  unslashed : isSlashed p = false
  way : ∃ front, namesOf p = front ++ [name] ∧ descend t (origin cwd p) front = some dir

section

variable {t u : FileTree} {cwd dir : Location} {p : Path} {name : FileName}

theorem LeadsTo.unique {dir' : Location} {name' : FileName} (h : LeadsTo t cwd p dir name)
    (h' : LeadsTo t cwd p dir' name') : dir = dir' ∧ name = name' := by
  obtain ⟨front, hNames, hWay⟩ := h.way
  obtain ⟨front', hNames', hWay'⟩ := h'.way
  obtain ⟨rfl, hName⟩ := List.append_inj' (hNames.symm.trans hNames') rfl
  exact ⟨Option.some.inj (hWay.symm.trans hWay'), List.head_eq_of_cons_eq hName⟩

theorem Overlay.leadsTo_iff {locs : List Location} (hOverlay : Overlay t locs u) :
    LeadsTo t cwd p dir name ↔ LeadsTo u cwd p dir name := by
  constructor
  · rintro ⟨hShort, hBytes, hNul, hSlashed, front, hNames, hWay⟩
    exact ⟨hShort, hBytes, hNul, hSlashed, front, hNames, (hOverlay.descend_eq _ _).trans hWay⟩
  · rintro ⟨hShort, hBytes, hNul, hSlashed, front, hNames, hWay⟩
    exact ⟨hShort, hBytes, hNul, hSlashed, front, hNames, (hOverlay.descend_eq _ _).symm.trans hWay⟩

theorem LeadsTo.resolve (h : LeadsTo t cwd p dir name)
    (hLength : p.bytes.length < pathLimit) (last : LastName) :
    t.resolve cwd p last = walk t last false linkLimit dir [name] := by
  obtain ⟨front, hNames, hWay⟩ := h.way
  rw [resolve_of_isPassable ⟨h.nonempty, by simpa using h.noNul, hLength⟩, hNames, h.unslashed]
  exact walk_of_descend hWay (Or.inl (List.cons_ne_nil name []))

theorem LeadsTo.resolve_file (h : LeadsTo t cwd p dir name)
    (hLength : p.bytes.length < pathLimit) {content : Bytes}
    (hFile : t.find? (dir ++ [name]) = some (.file content)) :
    t.resolve cwd p .named = .ok (.present (dir ++ [name]) (.file content)) := by
  rw [h.resolve hLength, walk_last h.short (by simp [hFile]), lookUp_of_some hFile]

theorem LeadsTo.remove_file (h : LeadsTo t cwd p dir name)
    (hLength : p.bytes.length < pathLimit) {content : Bytes}
    (hFile : t.find? (dir ++ [name]) = some (.file content)) :
    t.remove cwd p = .ok (t.drop (dir ++ [name])) := by
  simp [remove, h.resolve_file hLength hFile, h.unslashed]

theorem LeadsTo.remove_absent (h : LeadsTo t cwd p dir name)
    (hLength : p.bytes.length < pathLimit) (hFree : t.find? (dir ++ [name]) = none) :
    t.remove cwd p = .error .notFound := by
  have hResolve : t.resolve cwd p .named = .ok (.absent dir name) := by
    rw [h.resolve hLength, walk_last h.short (by simp [hFree]), lookUp_of_none hFree]
  rw [remove, hResolve]

theorem LeadsTo.write_file (h : LeadsTo t cwd p dir name)
    (hLength : p.bytes.length < pathLimit)
    (hAdmits : t.find? (dir ++ [name]) = none ∨ ∃ old, t.find? (dir ++ [name]) = some (.file old))
    (content : Bytes) : t.write cwd p content = .ok (t.place (dir ++ [name]) (.file content)) := by
  rcases hAdmits with hFree | ⟨old, hOld⟩
  · rw [FileTree.write, h.resolve hLength, walk_last h.short (by simp [hFree]),
      lookUp_of_none hFree]
  · rw [FileTree.write, h.resolve hLength, walk_last h.short (by simp [hOld]), lookUp_of_some hOld]

/-- A path that is too long cannot be removed, whatever stands there. -/
theorem LeadsTo.remove_long (h : LeadsTo t cwd p dir name)
    (hLength : pathLimit ≤ p.bytes.length) (u : FileTree) :
    u.remove cwd p = .error .nameTooLong := by
  have hResolve : u.resolve cwd p .named = .error .nameTooLong := by
    rw [FileTree.resolve, if_neg h.nonempty, if_neg (by simpa using h.noNul), if_pos hLength]
  rw [remove, hResolve]

end

theorem nul_not_mem_join {p : Path} (hp : 0 ∉ p.bytes) {names : List FileName}
    (h : ∀ n ∈ names, IsName n ∧ 0 ∉ n.bytes) :
    0 ∉ (p.join (ofNames names)).bytes := by
  have hNames : 0 ∉ (ofNames names).bytes := by
    intro hNul
    rcases mem_ofNames hNul with hSlash | ⟨n, hn, hb⟩
    · exact absurd hSlash (by decide)
    · exact (h n hn).2 hb
  have hSlash : slash ≠ 0 := by decide
  rw [join, isAbsolute_ofNames fun n hn => (h n hn).1]
  simp only [Bool.false_eq_true, if_false]
  split
  · simp [hp, hNames]
  · simp [hp, hNames, hSlash.symm]

/-- Names read from within a path end with the last name, read from within the path before it. -/
theorem exists_join_last {p : Path} (hp : p.bytes ≠ []) {names : List FileName} {name : FileName}
    (h : ∀ n ∈ names ++ [name], IsName n) :
    ∃ q : Path, p.join (ofNames (names ++ [name])) = q.join ⟨name.bytes⟩ ∧ q.bytes ≠ [] ∧
      q.components = p.components ++ names.map .name := by
  by_cases hEmpty : names = []
  · subst hEmpty
    exact ⟨p, by simp [ofNames], hp, by simp⟩
  · have hInit : ∀ n ∈ names, IsName n := fun n hn => h n (List.mem_append_left [name] hn)
    have hComponents := components_join_ofNames hp hInit
    refine ⟨p.join (ofNames names), join_ofNames_concat h hEmpty, ?_, hComponents⟩
    apply bytes_ne_of_components
    rw [hComponents]
    exact List.append_ne_nil_of_left_ne_nil (components_ne_nil hp) _

/-- **The path of an entry from within the path of a directory leads to it.** -/
theorem leadsTo_join {t : FileTree} (hPlain : t.Plain) {cwd dir : Location} {p : Path}
    (hDirectory : t.directory? cwd p = some dir) {names : List FileName} {name : FileName}
    {e : Entry} (hFind : t.find? (dir ++ names ++ [name]) = some e) :
    LeadsTo t cwd (p.join (ofNames (names ++ [name]))) (dir ++ names) name := by
  obtain ⟨hPassable, hWay⟩ := (directory?_iff_descend hPlain.noLinks).1 hDirectory
  have hNames : ∀ n ∈ names ++ [name], IsName n ∧ n.bytes.length ≤ nameLimit ∧
      0 ∉ n.bytes := fun n hn =>
    hPlain.names hFind n (by rw [List.append_assoc]; exact List.mem_append_right dir hn)
  have hName := hNames name (List.mem_append_right names List.mem_cons_self)
  obtain ⟨q, hJoin, hBytes, hComponents⟩ :=
    exists_join_last hPassable.nonempty fun n hn => (hNames n hn).1
  have hParent : t.find? (dir ++ names) = some .directory :=
    hPlain.wellFormed.rooted.find?_of_append (List.cons_ne_nil name []) hFind
  refine ⟨⟨hName.1.not_current, hName.1.not_parent, hName.2.1⟩, ?_,
    nul_not_mem_join hPassable.nul_not_mem fun n hn => ⟨(hNames n hn).1, (hNames n hn).2.2⟩, ?_,
    namesOf q, ?_, ?_⟩
  · rw [hJoin]
    exact bytes_join_ne hBytes hName.1.isAbsolute
  · rw [hJoin]
    exact isSlashed_join q hName.1
  · rw [hJoin, namesOf_join hBytes hName.1]
  · have hDown : descend t dir names = some (dir ++ names) :=
      descend_down hPlain.wellFormed.rooted (fun n hn => hPlain.isShort hFind n (by simp [hn]))
        hParent
    have hOrigin : origin cwd (q.join ⟨name.bytes⟩) = origin cwd q := by
      rw [origin, origin, isAbsolute_join hBytes hName.1.isAbsolute]
    rw [hJoin, hOrigin, descend_continued t cwd (components_ne_nil hPassable.nonempty) hComponents,
      hWay]
    exact hDown

end CoverRun.FileTree

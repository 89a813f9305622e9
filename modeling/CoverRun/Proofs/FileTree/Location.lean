import CoverRun.Proofs.FileTree.Linkless

/-!
# Locations under their own paths

The absolute path of a location leads to what stands there, from every working directory
(`directory?_path`, `write_path`), if the names are short and the path is.
-/

namespace CoverRun.FileTree

open CoverRun.Path

/-! ## The path of a location -/

/-- A location whose path can be looked up. -/
structure IsSpelled (loc : Location) : Prop where
  named : ∀ n ∈ loc, IsName n
  short : ∀ n ∈ loc, n.bytes.length ≤ nameLimit
  noNul : loc.path.bytes.contains 0 = false
  shortPath : loc.path.bytes.length < pathLimit

instance (loc : Location) : Decidable (IsSpelled loc) :=
  decidable_of_iff ((∀ n ∈ loc, IsName n) ∧ (∀ n ∈ loc, n.bytes.length ≤ nameLimit) ∧
      loc.path.bytes.contains 0 = false ∧ loc.path.bytes.length < pathLimit)
    ⟨fun ⟨h₁, h₂, h₃, h₄⟩ => ⟨h₁, h₂, h₃, h₄⟩, fun ⟨h₁, h₂, h₃, h₄⟩ => ⟨h₁, h₂, h₃, h₄⟩⟩

theorem IsSpelled.isShort {loc : Location} (h : IsSpelled loc) : ∀ n ∈ loc, IsShort n :=
  fun n hn => ⟨(h.named n hn).not_current, (h.named n hn).not_parent, h.short n hn⟩

theorem isAbsolute_path (loc : Location) : loc.path.isAbsolute = true := rfl

theorem bytes_path_ne (loc : Location) : loc.path.bytes ≠ [] := List.cons_ne_nil _ _

theorem namesOf_path {loc : Location} (h : ∀ n ∈ loc, IsName n) : namesOf loc.path = loc := by
  by_cases hne : loc = []
  · subst hne
    rfl
  · have hPieces : pieces slash loc.path.bytes = [] :: loc.map FileName.bytes := by
      rw [Location.path, pieces, if_pos rfl, pieces_ofNames h hne]
    have hNonempty : ∀ piece ∈ loc.map FileName.bytes, piece ≠ [] := by
      intro piece hPiece
      obtain ⟨n, hn, rfl⟩ := List.mem_map.1 hPiece
      exact (h n hn).nonempty
    rw [namesOf, hPieces, List.filter_cons_of_neg (by simp),
      List.filter_eq_self.2 (fun piece hPiece => decide_eq_true (hNonempty piece hPiece)),
      List.map_map]
    exact List.map_id loc

theorem isSlashed_path {loc : Location} (h : ∀ n ∈ loc, IsName n) (hne : loc ≠ []) :
    isSlashed loc.path = false := by
  obtain ⟨hNonempty, hLast⟩ := getLast?_ofNames h hne
  obtain ⟨c, hc⟩ := Option.isSome_iff_exists.1 (List.getLast?_isSome.2 hNonempty)
  rw [isSlashed, Location.path, beq_eq_false_iff_ne, List.getLast?_cons, hc]
  rw [hc] at hLast
  simpa using hLast

theorem IsSpelled.isPassable {loc : Location} (h : IsSpelled loc) : IsPassable loc.path :=
  ⟨bytes_path_ne loc, h.noNul, h.shortPath⟩

theorem resolve_path (t : FileTree) (cwd : Location) {loc : Location} (h : IsSpelled loc)
    (last : LastName) :
    t.resolve cwd loc.path last = walk t last (isSlashed loc.path) linkLimit [] loc := by
  rw [resolve_of_isPassable h.isPassable, origin, if_pos (isAbsolute_path loc),
    namesOf_path h.named]

/-! ## Down from directory to directory -/

/-- Short names lead down to a directory, and further names lead on from there. -/
theorem walk_down {t : FileTree} (hRooted : t.Rooted) {last : LastName} {slashed : Bool}
    {links : Nat} {loc names : Location} {rest : List FileName} (hNames : ∀ n ∈ names, IsShort n)
    (hOpen : rest ≠ [] ∨ last ≠ .created) (hFind : t.find? (loc ++ names) = some .directory) :
    walk t last slashed links loc (names ++ rest) =
      walk t last slashed links (loc ++ names) rest :=
  walk_of_descend (descend_down hRooted hNames hFind) hOpen

section

variable {t : FileTree} (hRooted : t.Rooted) (cwd : Location) {loc : Location} {name : FileName}

include hRooted

/-- **A directory is found under the path of its location.** -/
theorem directory?_path (h : IsSpelled loc) (hFind : t.find? loc = some .directory) :
    t.directory? cwd loc.path = some loc := by
  have hDown : walk t .followed (isSlashed loc.path) linkLimit [] (loc ++ []) =
      walk t .followed (isSlashed loc.path) linkLimit ([] ++ loc) [] :=
    walk_down hRooted h.isShort (Or.inr (by simp)) hFind
  rw [List.append_nil, List.nil_append, walk] at hDown
  rw [directory?_eq_some_iff, resolve_path t cwd h, hDown]

theorem resolve_path_concat (h : IsSpelled (loc ++ [name])) (hFind : t.find? loc = some .directory)
    (last : LastName) :
    t.resolve cwd (loc ++ [name]).path last = walk t last false linkLimit loc [name] := by
  have hShort : ∀ n ∈ loc, IsShort n := fun n hn => h.isShort n (List.mem_append_left [name] hn)
  rw [resolve_path t cwd h, isSlashed_path h.named (by simp)]
  exact walk_down hRooted hShort (Or.inl (by simp)) hFind

theorem resolve_path_absent (h : IsSpelled (loc ++ [name]))
    (hFind : t.find? loc = some .directory) (hFree : t.find? (loc ++ [name]) = none)
    (last : LastName) :
    t.resolve cwd (loc ++ [name]).path last = .ok (.absent loc name) := by
  have hName := h.isShort name (List.mem_append_right loc List.mem_cons_self)
  rw [resolve_path_concat hRooted cwd h hFind, walk_last hName (by simp [hFree]),
    lookUp_of_none hFree]

theorem resolve_path_file (h : IsSpelled (loc ++ [name])) (hFind : t.find? loc = some .directory)
    {content : Bytes} (hFile : t.find? (loc ++ [name]) = some (.file content)) (last : LastName) :
    t.resolve cwd (loc ++ [name]).path last = .ok (.present (loc ++ [name]) (.file content)) := by
  have hName := h.isShort name (List.mem_append_right loc List.mem_cons_self)
  rw [resolve_path_concat hRooted cwd h hFind, walk_last hName (by simp [hFile]),
    lookUp_of_some hFile]

/-- **A file is written under the path of its location**, new or over another file. -/
theorem write_path (h : IsSpelled (loc ++ [name])) (hFind : t.find? loc = some .directory)
    (hFree : t.find? (loc ++ [name]) = none ∨
      ∃ content, t.find? (loc ++ [name]) = some (.file content)) (content : Bytes) :
    t.write cwd (loc ++ [name]).path content = .ok (t.place (loc ++ [name]) (.file content)) := by
  rcases hFree with hFree | ⟨old, hFile⟩
  · rw [write, resolve_path_absent hRooted cwd h hFind hFree]
  · rw [write, resolve_path_file hRooted cwd h hFind hFile]

end

end CoverRun.FileTree

import CoverRun.Proofs.FileTree
import CoverRun.Proofs.Path.Parent

/-!
# Ways without links

Where no links stand, a way leads down and up from directory to directory (`FileTree.descend`), and
a walk is such a way with one last name to look up (`walk_of_descend`, `exists_descend`). Which way
it is depends on the directories of the tree and on the components of the path only
(`descend_congr`, `descend_namesOf`).
-/

namespace CoverRun.FileTree

open CoverRun.Path

/-- Only directories and files stand in the tree. -/
def NoLinks (t : FileTree) : Prop := ∀ loc target, t.find? loc ≠ some (.link target)

/-- Whether an entry is a link. -/
def Entry.isLink : Entry → Bool
  | .link _ => true
  | _ => false

theorem noLinks_of_entries {t : FileTree} (h : ∀ e ∈ t.entries.entries, e.2.isLink = false) :
    t.NoLinks := by
  intro loc target hFind
  by_cases hne : loc = []
  · subst hne
    cases hFind
  · exact Bool.noConfusion (h _ ((find?_eq_some_iff hne).1 hFind))

/-! ## From directory to directory -/

/-- The directory that names lead to from a directory, without following links. -/
def descend (t : FileTree) (loc : Location) : List FileName → Option Location
  | [] => some loc
  | name :: rest =>
    if name.bytes = [dot] then descend t loc rest
    else if name.bytes = [dot, dot] then descend t loc.dropLast rest
    else if name.bytes.length ≤ nameLimit ∧ t.find? (loc ++ [name]) = some .directory then
      descend t (loc ++ [name]) rest
    else none

section

variable {t : FileTree} {last : LastName} {slashed : Bool} {links : Nat} {loc dir : Location}
  {names rest : List FileName}

theorem descend_append : descend t loc (names ++ rest) =
    (descend t loc names).bind fun dir => descend t dir rest := by
  induction names generalizing loc with
  | nil => rfl
  | cons name names ih =>
      simp only [List.cons_append, descend]
      split
      · exact ih
      split
      · exact ih
      split
      · exact ih
      · rfl

/-- The names `.` lead nowhere. -/
theorem descend_filter :
    descend t loc (names.filter fun n => n.bytes ≠ [dot]) = descend t loc names := by
  induction names generalizing loc with
  | nil => rfl
  | cons name names ih =>
      by_cases hCurrent : name.bytes = [dot]
      · rw [List.filter_cons_of_neg (by simpa using hCurrent), descend, if_pos hCurrent, ih]
      · rw [List.filter_cons_of_pos (by simpa using hCurrent)]
        simp only [descend, ih]

theorem descend_congr {u : FileTree}
    (h : ∀ loc, t.find? loc = some .directory ↔ u.find? loc = some .directory) :
    descend t loc names = descend u loc names := by
  induction names generalizing loc with
  | nil => rfl
  | cons name names ih => simp only [descend, h, ih]

theorem descend_down (hRooted : t.Rooted) (hNames : ∀ n ∈ names, IsShort n)
    (hFind : t.find? (loc ++ names) = some .directory) :
    descend t loc names = some (loc ++ names) := by
  induction names generalizing loc with
  | nil => rw [descend, List.append_nil]
  | cons name names ih =>
      have hName := hNames name List.mem_cons_self
      have hSplit : loc ++ name :: names = loc ++ [name] ++ names := by simp
      rw [hSplit] at hFind ⊢
      have hHere : t.find? (loc ++ [name]) = some .directory := by
        by_cases hEmpty : names = []
        · subst hEmpty
          simpa using hFind
        · exact hRooted.find?_of_append hEmpty hFind
      rw [descend, if_neg hName.not_current, if_neg hName.not_parent, if_pos ⟨hName.short, hHere⟩]
      exact ih (fun n hn => hNames n (List.mem_cons_of_mem name hn)) hFind

/-- **A walk goes on from where its first names lead.** -/
theorem walk_of_descend (h : descend t loc names = some dir)
    (hOpen : rest ≠ [] ∨ last ≠ .created) :
    walk t last slashed links loc (names ++ rest) = walk t last slashed links dir rest := by
  induction names generalizing loc with
  | nil =>
      obtain rfl := Option.some.inj h
      rfl
  | cons name names ih =>
      rw [descend] at h
      rw [List.cons_append]
      split at h
      · next hCurrent =>
        rw [walk, if_pos hCurrent]
        exact ih h
      next hCurrent =>
      split at h
      · next hParent =>
        rw [walk, if_neg hCurrent, if_pos hParent]
        exact ih h
      next hParent =>
      split at h
      · next hChild =>
        have hOpen' : names ++ rest ≠ [] ∨ last ≠ .created :=
          hOpen.imp_left (List.append_ne_nil_of_right_ne_nil names)
        rw [walk_into ⟨hCurrent, hParent, hChild.1⟩ hOpen' hChild.2]
        exact ih h
      · cases h

/-- What a walk without links comes to: a directory, or a file or a free name in the directory that
all names but the last one lead to. -/
inductive Leads (t : FileTree) (loc : Location) : List FileName → Target → Prop
  | directory {names : List FileName} {dir : Location} (way : descend t loc names = some dir) :
      Leads t loc names (.present dir .directory)
  | file {names : List FileName} {name : FileName} {dir : Location} {content : Bytes}
      (way : descend t loc names = some dir)
      (stands : t.find? (dir ++ [name]) = some (.file content)) :
      Leads t loc (names ++ [name]) (.present (dir ++ [name]) (.file content))
  | absent {names : List FileName} {name : FileName} {dir : Location}
      (way : descend t loc names = some dir) (free : t.find? (dir ++ [name]) = none)
      (short : name.bytes.length ≤ nameLimit) :
      Leads t loc (names ++ [name]) (.absent dir name)

/-- A name that leads to a directory can come first. -/
theorem Leads.cons {loc' : Location} {name : FileName} {target : Target}
    (h : Leads t loc' names target)
    (hName : ∀ rest, descend t loc (name :: rest) = descend t loc' rest) :
    Leads t loc (name :: names) target := by
  cases h with
  | directory way => exact .directory ((hName _).trans way)
  | file way stands => exact .file ((hName _).trans way) stands
  | absent way free short => exact .absent ((hName _).trans way) free short

theorem Leads.descend_eq (h : Leads t loc names (.present dir .directory)) :
    descend t loc names = some dir := by
  cases h with
  | directory way => exact way

theorem Leads.of_file {name : FileName} {loc' : Location} {content : Bytes}
    (h : Leads t loc (names ++ [name]) (.present loc' (.file content))) :
    ∃ dir, descend t loc names = some dir ∧ loc' = dir ++ [name] ∧
      t.find? (dir ++ [name]) = some (.file content) := by
  generalize hNames : names ++ [name] = all at h
  cases h with
  | file way stands =>
      obtain ⟨rfl, hName⟩ := List.append_inj' hNames rfl
      obtain rfl := List.head_eq_of_cons_eq hName
      exact ⟨_, way, rfl, stands⟩

theorem Leads.of_absent {name name' : FileName} {dir : Location}
    (h : Leads t loc (names ++ [name]) (.absent dir name')) :
    descend t loc names = some dir ∧ name' = name ∧ t.find? (dir ++ [name]) = none := by
  generalize hNames : names ++ [name] = all at h
  cases h with
  | absent way free short =>
      obtain ⟨rfl, hName⟩ := List.append_inj' hNames rfl
      obtain rfl := List.head_eq_of_cons_eq hName
      exact ⟨way, rfl, free⟩

theorem Leads.name_of_absent {name : FileName} {dir : Location}
    (h : Leads t loc names (.absent dir name)) :
    name ∈ names ∧ name.bytes.length ≤ nameLimit := by
  cases h with
  | absent way free short => exact ⟨List.mem_append_right _ List.mem_cons_self, short⟩

/-- **A walk without links goes from directory to directory up to its last name.** -/
theorem leads_of_walk (hLinks : t.NoLinks) {target : Target}
    (h : walk t last slashed links loc names = .ok target) :
    Leads t loc names target := by
  induction names generalizing loc with
  | nil =>
      rw [walk] at h
      obtain rfl := Except.ok.inj h
      exact .directory rfl
  | cons name names ih =>
      rw [walk] at h
      split at h
      · next hCurrent => exact (ih h).cons fun rest => by rw [descend, if_pos hCurrent]
      next hCurrent =>
      split at h
      · next hParent =>
        exact (ih h).cons fun rest => by rw [descend, if_neg hCurrent, if_pos hParent]
      next hParent =>
      split at h
      · cases h
      split at h
      · cases h
      next hShort =>
      cases hFind : t.find? (loc ++ [name]) with
      | none =>
          simp only [hFind] at h
          split at h
          · next hLast =>
            subst hLast
            obtain rfl := Except.ok.inj h
            exact @Leads.absent t loc [] name loc rfl hFind (Nat.not_lt.1 hShort)
          · cases h
      | some e =>
          cases e with
          | directory =>
              simp only [hFind] at h
              refine (ih h).cons fun rest => ?_
              rw [descend, if_neg hCurrent, if_neg hParent, if_pos ⟨Nat.not_lt.1 hShort, hFind⟩]
          | file content =>
              simp only [hFind] at h
              split at h
              · next hLast =>
                obtain ⟨rfl, -⟩ := hLast
                obtain rfl := Except.ok.inj h
                exact @Leads.file t loc [] name loc content rfl hFind
              · cases h
          | link target' => exact absurd hFind (hLinks _ target')

end

/-! ## Ways of paths -/

/-- Where the names of a path are read from. -/
def origin (cwd : Location) (p : Path) : Location := if p.isAbsolute then [] else cwd

/-- A path that can be handed over. -/
structure IsPassable (p : Path) : Prop where
  nonempty : p.bytes ≠ []
  noNul : p.bytes.contains 0 = false
  short : p.bytes.length < pathLimit

section

variable {t : FileTree} {cwd : Location} {p : Path}

theorem resolve_of_isPassable (h : IsPassable p) (last : LastName) :
    t.resolve cwd p last = walk t last (isSlashed p) linkLimit (origin cwd p) (namesOf p) := by
  rw [resolve, if_neg h.nonempty, if_neg (Bool.not_eq_true _ ▸ h.noNul),
    if_neg (Nat.not_le.2 h.short)]
  rfl

theorem isPassable_of_resolve {last : LastName} {target : Target}
    (h : t.resolve cwd p last = .ok target) : IsPassable p := by
  rw [resolve] at h
  split at h
  · cases h
  next hNonempty =>
  split at h
  · cases h
  next hNul =>
  split at h
  · cases h
  next hShort => exact ⟨hNonempty, Bool.eq_false_iff.2 hNul, Nat.not_le.1 hShort⟩

theorem leads_of_resolve (hLinks : t.NoLinks) {last : LastName} {target : Target}
    (h : t.resolve cwd p last = .ok target) : Leads t (origin cwd p) (namesOf p) target := by
  rw [resolve_of_isPassable (isPassable_of_resolve h)] at h
  exact leads_of_walk hLinks h

/-- **A path leads to a directory exactly if its names do.** -/
theorem directory?_iff_descend (hLinks : t.NoLinks) {loc : Location} :
    t.directory? cwd p = some loc ↔
      IsPassable p ∧ descend t (origin cwd p) (namesOf p) = some loc := by
  rw [directory?_eq_some_iff]
  constructor
  · intro h
    exact ⟨isPassable_of_resolve h, (leads_of_resolve hLinks h).descend_eq⟩
  · rintro ⟨hPassable, hWay⟩
    have hWalk : walk t .followed (isSlashed p) linkLimit (origin cwd p) (namesOf p ++ []) =
        walk t .followed (isSlashed p) linkLimit loc [] :=
      walk_of_descend hWay (Or.inr (by decide))
    rw [List.append_nil, walk] at hWalk
    rw [resolve_of_isPassable hPassable, hWalk]

end

/-! ## Ways of components -/

/-- The name under which a component is looked up. -/
def stepName? : Component → Option FileName
  | .parent => some ⟨[dot, dot]⟩
  | .name n => some n
  | _ => none

theorem filter_pieces (leading : Bool) {ps : List Bytes} :
    ((ps.filter (· ≠ [])).map FileName.mk).filter (fun n => n.bytes ≠ [dot]) =
      (componentsOf leading ps).filterMap stepName? := by
  induction ps generalizing leading with
  | nil => rfl
  | cons p ps ih =>
      rw [componentsOf]
      by_cases hEmpty : p = []
      · rw [List.filter_cons_of_neg (by simpa using hEmpty), if_pos hEmpty]
        exact ih false
      · rw [List.filter_cons_of_pos (by simpa using hEmpty), if_neg hEmpty, List.map_cons]
        by_cases hCurrent : p = [dot]
        · subst hCurrent
          rw [List.filter_cons_of_neg (by simp), if_pos rfl, ih false]
          cases leading <;> rfl
        · rw [List.filter_cons_of_pos (by simpa using hCurrent), if_neg hCurrent, ih false]
          by_cases hParent : p = [dot, dot]
          · subst hParent
            rfl
          · simp [componentOf, hParent, stepName?]

theorem filter_namesOf (p : Path) :
    (namesOf p).filter (fun n => n.bytes ≠ [dot]) = p.components.filterMap stepName? := by
  by_cases hAbsolute : p.isAbsolute = true
  · obtain ⟨cs, hBytes⟩ := List.head?_eq_some_iff.1 (beq_iff_eq.1 hAbsolute)
    have hPieces : pieces slash p.bytes = [] :: pieces slash cs := by
      rw [hBytes, pieces, if_pos rfl]
    rw [components_absolute hBytes, namesOf, hPieces, List.filter_cons_of_neg (by simp)]
    exact filter_pieces false
  · rw [components_relative (Bool.eq_false_iff.2 hAbsolute)]
    exact filter_pieces true

/-- **A path whose components go on by names leads on by these names.** -/
theorem descend_continued (t : FileTree) (cwd : Location) {p q : Path} {names : List FileName}
    (hStart : p.components ≠ []) (h : q.components = p.components ++ names.map .name) :
    descend t (origin cwd q) (namesOf q) =
      (descend t (origin cwd p) (namesOf p)).bind fun dir => descend t dir names := by
  have hOrigin : origin cwd q = origin cwd p := by
    have hHead : q.components.head? = p.components.head? := by
      obtain ⟨c, cs, hCons⟩ := List.exists_cons_of_ne_nil hStart
      rw [h, hCons]
      rfl
    have hAbsolute : q.isAbsolute = true ↔ p.isAbsolute = true := by
      rw [isAbsolute_iff, isAbsolute_iff, hHead]
    rw [origin, origin, if_congr hAbsolute rfl rfl]
  have hNames : (names.map Component.name).filterMap stepName? = names := by
    rw [List.filterMap_map]
    exact List.filterMap_some
  have hSteps (p : Path) : descend t (origin cwd p) (namesOf p) =
      descend t (origin cwd p) (p.components.filterMap stepName?) := by
    rw [← filter_namesOf, descend_filter]
  rw [hSteps q, hSteps p, hOrigin, h, List.filterMap_append, hNames, descend_append]

end CoverRun.FileTree

import CoverRun.FileTree
import CoverRun.Proofs.OrderedMap
import CoverRun.Proofs.Outcome
import CoverRun.Proofs.Path

/-!
# Ways through a file tree

A path that goes on from a directory by names leads where the names lead from there
(`walk_append`, `walk_names`). What lies below a directory is listed once, each entry with its
names from there (`mem_below`, `nodup_below`), and visited in this order until a visit fails
(`exists_visitAll_iff`, `visitAll_eq_error_iff`).
-/

namespace CoverRun.FileTree

open CoverRun.Path

/-- A tree as it can be on a disk: each entry stands in a directory, under a name. -/
structure WellFormed (t : FileTree) : Prop where
  rooted : t.Rooted
  named : ∀ e ∈ t.entries.entries, ∀ n ∈ e.1, IsName n

/-! ## Entries -/

theorem find?_eq_some_iff {t : FileTree} {loc : Location} (hne : loc ≠ []) {e : Entry} :
    t.find? loc = some e ↔ (loc, e) ∈ t.entries.entries := by
  rw [find?, if_neg hne, OrderedMap.find?_eq_some_iff]

theorem Rooted.find?_of_append {t : FileTree} (h : t.Rooted) {loc names : Location}
    (hne : names ≠ []) {e : Entry} (hFind : t.find? (loc ++ names) = some e) :
    t.find? loc = some .directory := by
  induction names using List.reverseRecOn generalizing e with
  | nil => exact absurd rfl hne
  | append_singleton names n ih =>
      have hMem := (find?_eq_some_iff (by simp)).1 hFind
      have hParent := (h _ hMem).2
      simp only [← List.append_assoc, List.dropLast_concat] at hParent
      cases names with
      | nil => simpa using hParent
      | cons m names => exact ih (List.cons_ne_nil m names) hParent

theorem mem_below {t : FileTree} {loc names : Location} {e : Entry} :
    (names, e) ∈ t.below loc ↔ names ≠ [] ∧ (loc ++ names, e) ∈ t.entries.entries := by
  simp only [below, List.mem_map, List.mem_filter, Bool.and_eq_true, List.isPrefixOf_iff_prefix,
    bne_iff_ne, Prod.mk.injEq]
  constructor
  · rintro ⟨⟨loc', e'⟩, ⟨hMem, ⟨names', rfl⟩, hLength⟩, hNames, rfl⟩
    simp only [List.drop_left] at hNames
    subst hNames
    refine ⟨?_, hMem⟩
    rintro rfl
    simp at hLength
  · rintro ⟨hne, hMem⟩
    refine ⟨(loc ++ names, e), ⟨hMem, List.prefix_append loc names, ?_⟩, List.drop_left, rfl⟩
    have := List.length_pos_iff.2 hne
    simp only [List.length_append]
    omega

theorem nodup_below (t : FileTree) (loc : Location) : ((t.below loc).map (·.1)).Nodup := by
  rw [below, List.map_map]
  have hNodup := t.entries.nodup_keys
  rw [OrderedMap.keys, List.Nodup, List.pairwise_map] at hNodup
  rw [List.Nodup, List.pairwise_map]
  refine (hNodup.filter _).imp_of_mem fun {a b} ha hb hne hEq => hne ?_
  simp only [List.mem_filter, Bool.and_eq_true, List.isPrefixOf_iff_prefix] at ha hb
  obtain ⟨as, hAs⟩ := ha.2.1
  obtain ⟨bs, hBs⟩ := hb.2.1
  simp only [Function.comp, ← hAs, ← hBs, List.drop_left] at hEq
  rw [← hAs, ← hBs, hEq]

/-! ## Visits -/

section

variable {ε α : Type} {visit : Location × Entry → Except ε (Option α)}
  {es : List (Location × Entry)}

theorem visitAll_cons_eq_ok_iff {e : Location × Entry} {found : List α} :
    visitAll visit (e :: es) = .ok found ↔ ∃ here later, visit e = .ok here ∧
      visitAll visit es = .ok later ∧ found = here.toList ++ later := by
  rw [visitAll, Outcome.bind_eq_ok_iff]
  constructor
  · rintro ⟨here, hHere, hRest⟩
    obtain ⟨later, hLater, hEq⟩ := Outcome.bind_eq_ok_iff.1 hRest
    exact ⟨here, later, hHere, hLater, (Except.ok.inj hEq).symm⟩
  · rintro ⟨here, later, hHere, hLater, rfl⟩
    exact ⟨here, hHere, by rw [hLater]; rfl⟩

theorem visitAll_eq_mapM :
    visitAll visit es = (es.mapM visit).map fun found => found.flatMap Option.toList := by
  induction es with
  | nil => rfl
  | cons e es ih =>
      rw [visitAll, ih, List.mapM_cons]
      cases visit e with
      | error error => rfl
      | ok here => cases es.mapM visit <;> rfl

theorem exists_visitAll_iff :
    (∃ found, visitAll visit es = .ok found) ↔ ∀ e ∈ es, ∃ result, visit e = .ok result := by
  rw [visitAll_eq_mapM, ← Outcome.exists_mapM_iff]
  simp [Outcome.map_eq_ok_iff]

theorem visitAll_eq_error_iff {error : ε} : visitAll visit es = .error error ↔
    ∃ before e after, es = before ++ e :: after ∧
      (∀ e' ∈ before, ∃ result, visit e' = .ok result) ∧ visit e = .error error := by
  rw [visitAll_eq_mapM, Outcome.map_eq_error_iff]
  exact Outcome.mapM_eq_error_iff

theorem mem_visitAll {found : List α} (h : visitAll visit es = .ok found) {a : α} :
    a ∈ found ↔ ∃ e ∈ es, visit e = .ok (some a) := by
  induction es generalizing found with
  | nil =>
      obtain rfl := Except.ok.inj h
      simp
  | cons e es ih =>
      obtain ⟨here, later, hHere, hLater, rfl⟩ := visitAll_cons_eq_ok_iff.1 h
      rw [List.mem_append, ih hLater, List.exists_mem_cons_iff, hHere]
      simp

theorem visitAll_filter {p : Location × Entry → Bool}
    (h : ∀ e ∈ es, p e = false → visit e = .ok none) :
    visitAll visit (es.filter p) = visitAll visit es := by
  induction es with
  | nil => rfl
  | cons e es ih =>
      obtain ⟨hHere, hLater⟩ := List.forall_mem_cons.1 h
      rw [List.filter_cons]
      split
      · rw [visitAll, visitAll, ih hLater]
      · next hNot =>
        rw [visitAll, hHere (Bool.eq_false_iff.2 hNot), ih hLater]
        cases visitAll visit es <;> rfl

end

/-! ## Walks -/

/-- A short name that is neither `.` nor `..` leads to what stands under it. -/
structure IsShort (name : FileName) : Prop where
  not_current : name.bytes ≠ [dot]
  not_parent : name.bytes ≠ [dot, dot]
  short : name.bytes.length ≤ nameLimit

theorem walk_into {t : FileTree} {last : LastName} {slashed : Bool} {loc : Location}
    {name : FileName} {rest : List FileName} (hName : IsShort name)
    (hOpen : rest ≠ [] ∨ last ≠ .created) (hFind : t.find? (loc ++ [name]) = some .directory)
    (links : Nat) :
    walk t last slashed links loc (name :: rest) =
      walk t last slashed links (loc ++ [name]) rest := by
  have hNot : ¬ (rest = [] ∧ last = .created ∧ slashed = true) := by
    rintro ⟨hEmpty, hCreated, -⟩
    exact hOpen.elim (fun h => h hEmpty) (fun h => h hCreated)
  rw [walk, if_neg hName.not_current, if_neg hName.not_parent, if_neg hNot,
    if_neg (Nat.not_lt.2 hName.short)]
  simp only [hFind]

theorem walk_directory {t : FileTree} {loc : Location} {name : FileName} (hName : IsShort name)
    (hFind : t.find? (loc ++ [name]) = some .directory) (slashed : Bool) (links : Nat)
    (rest : List FileName) :
    walk t .followed slashed links loc (name :: rest) =
      walk t .followed slashed links (loc ++ [name]) rest :=
  walk_into hName (Or.inr (by simp)) hFind links

theorem walk_link {t : FileTree} {last : LastName} {loc : Location} {name : FileName}
    {rest : List FileName} (hName : IsShort name) (hOpen : rest ≠ [] ∨ last = .followed)
    {target : Path} (hFind : t.find? (loc ++ [name]) = some (.link target)) (slashed : Bool)
    (links : Nat) :
    walk t last slashed (links + 1) loc (name :: rest) =
      walk t last (slashed || (rest.isEmpty && isSlashed target)) links
        (if target.isAbsolute then [] else loc) (namesOf target ++ rest) := by
  have hNotCreated : ¬ (rest = [] ∧ last = .created ∧ slashed = true) := by
    rintro ⟨hEmpty, rfl, -⟩
    exact hOpen.elim (fun h => h hEmpty) (fun h => LastName.noConfusion h)
  have hGoesOn : ¬ (rest = [] ∧ last.stopsAtLink slashed = true) := by
    rintro ⟨hEmpty, hStops⟩
    obtain rfl := hOpen.resolve_left fun h => h hEmpty
    cases hStops
  rw [walk, if_neg hName.not_current, if_neg hName.not_parent, if_neg hNotCreated,
    if_neg (Nat.not_lt.2 hName.short)]
  simp only [hFind]
  rw [if_neg hGoesOn]

/-- What a name in a directory leads to, where no link stands under it. -/
def lookUp (t : FileTree) (loc : Location) (name : FileName) : Target :=
  match t.find? (loc ++ [name]) with
  | some e => .present (loc ++ [name]) e
  | none => .absent loc name

theorem lookUp_of_some {t : FileTree} {loc : Location} {name : FileName} {e : Entry}
    (h : t.find? (loc ++ [name]) = some e) : t.lookUp loc name = .present (loc ++ [name]) e := by
  rw [lookUp, h]

theorem lookUp_of_none {t : FileTree} {loc : Location} {name : FileName}
    (h : t.find? (loc ++ [name]) = none) : t.lookUp loc name = .absent loc name := by
  rw [lookUp, h]

/-- **The last name of a path leads to what stands under it**, however it is taken. -/
theorem walk_last {t : FileTree} {loc : Location} {name : FileName} (hName : IsShort name)
    (hNoLink : ∀ target, t.find? (loc ++ [name]) ≠ some (.link target)) (last : LastName)
    (links : Nat) : walk t last false links loc [name] = .ok (t.lookUp loc name) := by
  rw [walk, if_neg hName.not_current, if_neg hName.not_parent, if_neg (by simp),
    if_neg (Nat.not_lt.2 hName.short), lookUp]
  cases hFind : t.find? (loc ++ [name]) with
  | none => simp [hFind]
  | some e =>
      cases e with
      | directory => simp [hFind, walk]
      | file content => simp [hFind]
      | link target => exact absurd hFind (hNoLink target)

/-- After a walk to a directory, further names lead on from there. How the text of its path ended
does not matter then. -/
theorem walk_append {t : FileTree} {slashed : Bool} {links : Nat} {loc loc' : Location}
    {names : List FileName}
    (h : walk t .followed slashed links loc names = .ok (.present loc' .directory)) :
    ∃ links', ∀ last slashed' rest, rest ≠ [] →
      walk t last slashed' links loc (names ++ rest) =
        walk t last slashed' links' loc' rest := by
  fun_induction walk t .followed slashed links loc names with
  | case1 slashed links loc =>
      cases h
      exact ⟨links, fun last slashed' rest _ => rfl⟩
  | case2 slashed links loc name names hCurrent ih =>
      obtain ⟨links', hOn⟩ := ih h
      refine ⟨links', fun last slashed' rest hne => ?_⟩
      rw [← hOn last slashed' rest hne, List.cons_append, walk, if_pos hCurrent]
  | case3 slashed links loc name names hCurrent hParent ih =>
      obtain ⟨links', hOn⟩ := ih h
      refine ⟨links', fun last slashed' rest hne => ?_⟩
      rw [← hOn last slashed' rest hne, List.cons_append, walk, if_neg hCurrent, if_pos hParent]
  | case8 slashed links loc name names hCurrent hParent hCreated hShort child hFind ih =>
      obtain ⟨links', hOn⟩ := ih h
      refine ⟨links', fun last slashed' rest hne => ?_⟩
      have hOpen : names ++ rest ≠ [] := List.append_ne_nil_of_right_ne_nil names hne
      rw [← hOn last slashed' rest hne, List.cons_append,
        walk_into ⟨hCurrent, hParent, Nat.not_lt.1 hShort⟩ (Or.inl hOpen) hFind]
  | case13 slashed loc name names hCurrent hParent hCreated hShort child target hFind _ links ih =>
      obtain ⟨links', hOn⟩ := ih (by simpa using h)
      refine ⟨links', fun last slashed' rest hne => ?_⟩
      have hOpen : names ++ rest ≠ [] := List.append_ne_nil_of_right_ne_nil names hne
      have hEmpty : (names ++ rest).isEmpty = false := List.isEmpty_eq_false_iff.2 hOpen
      rw [← hOn last slashed' rest hne, List.cons_append,
        walk_link ⟨hCurrent, hParent, Nat.not_lt.1 hShort⟩ (Or.inl hOpen) hFind, hEmpty]
      simp
  | _ => simp at h

/-- Names lead down to what stands under the last one, if they lead anywhere and no link stands on
the way. -/
theorem walk_names {t : FileTree} {last : LastName} {slashed : Bool} {links : Nat}
    {loc loc' : Location} {names : List FileName} {e : Entry} (hNames : ∀ n ∈ names, IsName n)
    (hLinks : ∀ before after target, names = before ++ after → before ≠ [] →
      t.find? (loc ++ before) ≠ some (.link target))
    (h : walk t last slashed links loc names = .ok (.present loc' e)) : loc' = loc ++ names := by
  induction names generalizing loc with
  | nil =>
      rw [walk] at h
      cases h
      simp
  | cons name names ih =>
      have hName := hNames name List.mem_cons_self
      have hSplit : loc ++ name :: names = loc ++ [name] ++ names := by simp
      rw [walk, if_neg hName.not_current, if_neg hName.not_parent] at h
      split at h
      · cases h
      split at h
      · cases h
      cases hFind : t.find? (loc ++ [name]) with
      | none =>
          simp only [hFind] at h
          split at h <;> cases h
      | some here =>
          cases here with
          | directory =>
              simp only [hFind] at h
              rw [hSplit]
              refine ih (fun n hn => hNames n (List.mem_cons_of_mem name hn)) ?_ h
              intro before after target hBefore hne
              rw [List.append_assoc]
              exact hLinks (name :: before) after target (by rw [hBefore]; rfl) (by simp)
          | file content =>
              simp only [hFind] at h
              split at h
              · next hLast =>
                cases h
                rw [hLast.1]
              · cases h
          | link target =>
              exact absurd hFind (hLinks [name] names target rfl (List.cons_ne_nil name []))

/-! ## Paths with further names -/

theorem namesOf_join {p : Path} (hp : p.bytes ≠ []) {name : FileName} (h : IsName name) :
    namesOf (p.join ⟨name.bytes⟩) = namesOf p ++ [name] := by
  have hPiece : (pieces slash name.bytes).filter (· ≠ []) = [name.bytes] := by
    rw [pieces_of_not_mem h.no_slash]
    exact List.filter_cons_of_pos (by simpa using h.nonempty)
  rw [join, h.isAbsolute]
  simp only [Bool.false_eq_true, if_false, hp, false_or]
  split
  · next hSlash =>
    obtain ⟨as, hBytes⟩ := List.getLast?_eq_some_iff.1 hSlash
    have hSplit : p.bytes ++ name.bytes = as ++ slash :: name.bytes := by
      rw [hBytes, List.append_assoc]
      rfl
    rw [namesOf, namesOf, hSplit, hBytes, pieces_append, pieces_append, List.filter_append,
      List.filter_append, hPiece]
    simp [pieces]
  · rw [namesOf, namesOf, pieces_append, List.filter_append, hPiece]
    simp

theorem isAbsolute_join {p q : Path} (hp : p.bytes ≠ []) (hq : q.isAbsolute = false) :
    (p.join q).isAbsolute = p.isAbsolute := by
  obtain ⟨b, bs, hBytes⟩ := List.exists_cons_of_ne_nil hp
  rw [join, hq]
  simp only [Bool.false_eq_true, if_false]
  split <;> simp [isAbsolute, hBytes]

theorem bytes_join_ne {p q : Path} (hp : p.bytes ≠ []) (hq : q.isAbsolute = false) :
    (p.join q).bytes ≠ [] := by
  rw [join, hq]
  simp only [Bool.false_eq_true, if_false]
  split
  · exact List.append_ne_nil_of_left_ne_nil hp q.bytes
  · exact List.append_ne_nil_of_left_ne_nil hp (slash :: q.bytes)

theorem isSlashed_join (p : Path) {name : FileName} (h : IsName name) :
    isSlashed (p.join ⟨name.bytes⟩) = false := by
  obtain ⟨front, b, hBytes⟩ := (List.eq_nil_or_concat' name.bytes).resolve_left h.nonempty
  have hLast : b ≠ slash := by
    rintro rfl
    exact h.no_slash (by simp [hBytes])
  have hEnd (before : Bytes) : (before ++ name.bytes).getLast? = some b := by
    rw [hBytes, ← List.append_assoc, List.getLast?_concat]
  rw [isSlashed, beq_eq_false_iff_ne, join, h.isAbsolute]
  simp only [Bool.false_eq_true, if_false]
  split
  · rw [hEnd]
    simpa using hLast
  · have hJoin := hEnd (p.bytes ++ [slash])
    rw [List.append_assoc, List.singleton_append] at hJoin
    rw [hJoin]
    simpa using hLast

/-- A path that goes on by names from another one starts where that one starts and has its names
first. -/
theorem namesOf_ofComponents {cs : List Component} (h : IsWritten cs) (hne : cs ≠ [])
    {names : List FileName} (hNames : ∀ n ∈ names, IsName n) :
    namesOf (ofComponents (cs ++ names.map .name)) = namesOf (ofComponents cs) ++ names ∧
      (ofComponents (cs ++ names.map .name)).isAbsolute = (ofComponents cs).isAbsolute ∧
      (ofComponents (cs ++ names.map .name)).bytes ≠ [] := by
  induction names using List.reverseRecOn with
  | nil =>
      have hBytes : (ofComponents cs).bytes ≠ [] :=
        bytes_ne_of_components (by rwa [components_ofComponents h])
      simpa using hBytes
  | append_singleton names name ih =>
      obtain ⟨hInit, hStart, hBytes⟩ := ih fun n hn => hNames n (List.mem_append_left [name] hn)
      have hName := hNames name (List.mem_append_right names List.mem_cons_self)
      have hLast : ofComponents (cs ++ (names ++ [name]).map .name) =
          (ofComponents (cs ++ names.map .name)).join ⟨name.bytes⟩ := by
        rw [List.map_append, ← List.append_assoc]
        exact ofComponents_concat _ _
      rw [hLast]
      refine ⟨?_, ?_, bytes_join_ne hBytes hName.isAbsolute⟩
      · rw [namesOf_join hBytes hName, hInit, List.append_assoc]
      · rw [isAbsolute_join hBytes hName.isAbsolute, hStart]

theorem walk_of_resolve {t : FileTree} {cwd : Location} {p : Path} {last : LastName}
    {target : Target} (h : t.resolve cwd p last = .ok target) :
    p.bytes ≠ [] ∧ walk t last (isSlashed p) linkLimit (if p.isAbsolute then [] else cwd)
      (namesOf p) = .ok target := by
  rw [resolve] at h
  split at h
  · cases h
  · next hBytes =>
    split at h
    · cases h
    split at h
    · cases h
    exact ⟨hBytes, h⟩

theorem directory?_eq_some_iff {t : FileTree} {cwd loc : Location} {p : Path} :
    t.directory? cwd p = some loc ↔ t.resolve cwd p .followed = .ok (.present loc .directory) := by
  rw [directory?]
  split
  · next hResolve => simp [hResolve]
  · next hNot => simpa using hNot loc

theorem exists?_eq_true_iff {t : FileTree} {cwd : Location} {p : Path} :
    t.exists? cwd p = true ↔ ∃ loc e, t.resolve cwd p .followed = .ok (.present loc e) := by
  rw [exists?]
  split
  · next loc e hResolve => exact iff_of_true rfl ⟨loc, e, hResolve⟩
  · next hNot => simpa using hNot

/-- **A directory that is reached by going on from another one lies below that.** -/
theorem directory?_append {t : FileTree} {cwd loc loc' : Location} {cs : List Component}
    {names : List FileName} (hWritten : IsWritten cs) (hNames : ∀ n ∈ names, IsName n)
    (hOuter : t.directory? cwd (ofComponents cs) = some loc)
    (hInner : t.directory? cwd (ofComponents (cs ++ names.map .name)) = some loc')
    (hDirectories : ∀ before after, names = before ++ after → before ≠ [] →
      t.find? (loc ++ before) = some .directory) : loc' = loc ++ names := by
  obtain ⟨hBytes, hWalk⟩ := walk_of_resolve (directory?_eq_some_iff.1 hOuter)
  have hne : cs ≠ [] := by
    rintro rfl
    exact hBytes rfl
  by_cases hEmpty : names = []
  · subst hEmpty
    simpa [hOuter] using hInner.symm
  · obtain ⟨-, hWalk'⟩ := walk_of_resolve (directory?_eq_some_iff.1 hInner)
    obtain ⟨hSplit, hStart, -⟩ := namesOf_ofComponents hWritten hne hNames
    obtain ⟨links', hOn⟩ := walk_append hWalk
    rw [hSplit, hStart, hOn _ _ names hEmpty] at hWalk'
    refine walk_names hNames (fun before after target hBefore hne => ?_) hWalk'
    rw [hDirectories before after hBefore hne]
    simp

end CoverRun.FileTree

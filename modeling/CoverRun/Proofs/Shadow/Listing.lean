import CoverRun.Proofs.FileTree.Normal
import CoverRun.Proofs.Plan.Load
import CoverRun.Proofs.Shadow.Removal

/-!
# Which shadows are listed and removed

Below each root that is a directory the shadow files are listed once, each under the path of the
root and the names from there (`Shadow.eq_spots_of_shadowsOf`). Where no links stand, the roots of a
plan are different directories (`Shadow.pairwise_directories`), so a file is listed twice exactly if
it lies below a root that lies below another one (`Shadow.nodup_places_iff`). Removing what is
listed takes these files away all the same (`Shadow.removeAll_spots`).
-/

namespace CoverRun.Shadow

open CoverRun.Path FileTree Outcome

/-! ## Shadow files -/

/-- A shadow file stands at a location. -/
structure StandsAt (t : FileTree) (loc : Location) : Prop where
  file : ∃ content, t.find? loc = some (.file content)
  marked : isShadow loc.path = true

/-- A location lies below a directory. -/
def IsBelow (base loc : Location) : Prop := ∃ names, names ≠ [] ∧ loc = base ++ names

/-- A shadow file stands at a location below a root that is a directory. -/
structure ShadowBelow (t : FileTree) (cwd : Location) (roots : List SourceRoot) (loc : Location) :
    Prop where
  stands : StandsAt t loc
  below : ∃ root ∈ roots, ∃ base, t.directory? cwd root.path = some base ∧ IsBelow base loc

/-- Each directory and each shadow file below a root can be looked up under its path from there. -/
def InReach (t : FileTree) (cwd : Location) (roots : List SourceRoot) : Prop :=
  ∀ root ∈ roots, ∀ base names, t.directory? cwd root.path = some base → names ≠ [] →
    t.find? (base ++ names) = some .directory ∨ StandsAt t (base ++ names) →
      isTooLong (root.path.join (ofNames names)) = false

/-- A root lies below another one and has a shadow file below it. -/
def Nested (t : FileTree) (cwd : Location) (roots : List SourceRoot) : Prop :=
  ∃ outer ∈ roots, ∃ inner ∈ roots, ∃ base base', t.directory? cwd outer.path = some base ∧
    t.directory? cwd inner.path = some base' ∧ IsBelow base base' ∧
      ∃ loc, StandsAt t loc ∧ IsBelow base' loc

/-- Whether names end with the name of a shadow decides whether a path that ends with them does. -/
theorem isShadow_of_components {p : Path} {cs : List Component} {names : Location}
    (hne : names ≠ []) (hNames : ∀ n ∈ names, IsName n)
    (h : p.components = cs ++ names.map .name) : isShadow p = isShadow (ofNames names) := by
  obtain ⟨front, name, rfl⟩ := (List.eq_nil_or_concat' names).resolve_left hne
  have hSplit : (front ++ [name]).map Component.name = front.map .name ++ [.name name] := by simp
  rw [hSplit, ← List.append_assoc] at h
  rw [isShadow, isShadow, fileName?_of_components h,
    fileName?_of_components ((components_ofNames hNames).trans hSplit)]

theorem isShadow_path {base names : Location} (hne : names ≠ [])
    (hNames : ∀ n ∈ base ++ names, IsName n) :
    isShadow (base ++ names).path = isShadow (ofNames names) := by
  have hPath : (base ++ names).path = (ofText "/").join (ofNames (base ++ names)) := by
    rw [join, isAbsolute_ofNames hNames]
    rfl
  have hComponents : (base ++ names).path.components =
      .root :: base.map .name ++ names.map .name := by
    rw [hPath, components_join_ofNames (by decide) hNames, List.map_append, ← List.append_assoc]
    rfl
  exact isShadow_of_components hne (fun n hn => hNames n (List.mem_append_right base hn))
    hComponents

/-! ## Spots -/

/-- A shadow file as it is listed: a root, its location, and the names from there. -/
structure Spot where
  root : Path
  base : Location
  names : Location

/-- The path under which a shadow file is listed. -/
def Spot.path (s : Spot) : Path := s.root.join (ofNames s.names)

/-- The location of a listed shadow file. -/
def Spot.place (s : Spot) : Location := s.base ++ s.names

/-- Whether an entry is a shadow file. -/
def isShadowEntry (e : Location × Entry) : Bool :=
  match e.2 with
  | .file _ => isShadow (ofNames e.1)
  | _ => false

/-- The shadow files below a root, if it is a directory. -/
def spotsOf (t : FileTree) (cwd : Location) (root : Path) : List Spot :=
  match t.directory? cwd root with
  | none => []
  | some base => ((t.below base).filter isShadowEntry).map fun e => ⟨root, base, e.1⟩

/-- The shadow files below roots, root by root. -/
def spots (t : FileTree) (cwd : Location) (roots : List SourceRoot) : List Spot :=
  roots.flatMap fun root => spotsOf t cwd root.path

section

variable {t : FileTree} {cwd : Location}

theorem exists_isShadowEntry_iff (hTree : t.WellFormed) {base names : Location} :
    (∃ e, (names, e) ∈ (t.below base).filter isShadowEntry) ↔
      names ≠ [] ∧ StandsAt t (base ++ names) := by
  constructor
  · rintro ⟨e, hMem⟩
    obtain ⟨hMem, hMarked⟩ := List.mem_filter.1 hMem
    obtain ⟨hne, hMem⟩ := mem_below.1 hMem
    obtain ⟨content, rfl⟩ : ∃ content, e = .file content := by
      cases e with
      | file content => exact ⟨content, rfl⟩
      | directory => cases hMarked
      | link target => cases hMarked
    refine ⟨hne, ⟨content, (find?_eq_some_iff (by simp [hne])).2 hMem⟩, ?_⟩
    rw [isShadow_path hne (hTree.named _ hMem)]
    exact hMarked
  · rintro ⟨hne, ⟨content, hFile⟩, hMarked⟩
    have hMem := (find?_eq_some_iff (by simp [hne])).1 hFile
    rw [isShadow_path hne (hTree.named _ hMem)] at hMarked
    exact ⟨.file content, List.mem_filter.2 ⟨mem_below.2 ⟨hne, hMem⟩, hMarked⟩⟩

theorem mem_spotsOf (hTree : t.WellFormed) {root : Path} {s : Spot} :
    s ∈ spotsOf t cwd root ↔ s.root = root ∧ t.directory? cwd root = some s.base ∧
      s.names ≠ [] ∧ StandsAt t s.place := by
  obtain ⟨root', base', names⟩ := s
  rw [spotsOf, Spot.place, ← exists_isShadowEntry_iff hTree]
  cases hDirectory : t.directory? cwd root with
  | none => simp
  | some base =>
      simp only [List.mem_map, Spot.mk.injEq, Prod.exists, Option.some.injEq]
      constructor
      · rintro ⟨names', e, hMem, rfl, rfl, rfl⟩
        exact ⟨rfl, rfl, e, hMem⟩
      · rintro ⟨rfl, rfl, e, hMem⟩
        exact ⟨names, e, hMem, rfl, rfl, rfl⟩

theorem mem_spots (hTree : t.WellFormed) {roots : List SourceRoot} {s : Spot} :
    s ∈ spots t cwd roots ↔ (∃ root ∈ roots, s.root = root.path) ∧
      t.directory? cwd s.root = some s.base ∧ s.names ≠ [] ∧ StandsAt t s.place := by
  simp only [spots, List.mem_flatMap, mem_spotsOf hTree]
  constructor
  · rintro ⟨root, hRoot, hSame, hDirectory, hStands⟩
    exact ⟨⟨root, hRoot, hSame⟩, hSame ▸ hDirectory, hStands⟩
  · rintro ⟨⟨root, hRoot, hSame⟩, hDirectory, hStands⟩
    exact ⟨root, hRoot, hSame, hSame ▸ hDirectory, hStands⟩

/-- **The spots are at the shadow files below the roots.** -/
theorem mem_places_iff (hTree : t.WellFormed) {roots : List SourceRoot} {loc : Location} :
    loc ∈ (spots t cwd roots).map Spot.place ↔ ShadowBelow t cwd roots loc := by
  rw [List.mem_map]
  constructor
  · rintro ⟨s, hMem, rfl⟩
    obtain ⟨⟨root, hRoot, hSame⟩, hDirectory, hne, hStands⟩ := (mem_spots hTree).1 hMem
    exact ⟨hStands, root, hRoot, s.base, hSame ▸ hDirectory, s.names, hne, rfl⟩
  · rintro ⟨hStands, root, hRoot, base, hDirectory, names, hne, rfl⟩
    exact ⟨⟨root.path, base, names⟩,
      (mem_spots hTree).2 ⟨⟨root, hRoot, rfl⟩, hDirectory, hne, hStands⟩, rfl⟩

/-! ## What is listed -/

theorem eq_of_visitAll {root : Path} (hRoot : root.bytes ≠ []) {es : List (Location × Entry)}
    (hNames : ∀ e ∈ es, e.1 ≠ [] ∧ ∀ n ∈ e.1, IsName n) {found : List Path}
    (h : visitAll (visit root) es = .ok found) :
    found = (es.filter isShadowEntry).map fun e => root.join (ofNames e.1) := by
  induction es generalizing found with
  | nil => exact (Except.ok.inj h).symm
  | cons e es ih =>
      obtain ⟨here, later, hHere, hLater, rfl⟩ := visitAll_cons_eq_ok_iff.1 h
      obtain ⟨⟨hne, hHead⟩, hTail⟩ := List.forall_mem_cons.1 hNames
      rw [ih hTail hLater, List.filter_cons]
      obtain ⟨names, entry⟩ := e
      cases entry with
      | directory =>
          obtain ⟨-, -, rfl⟩ := map_eq_ok_iff.1 hHere
          rfl
      | link target =>
          obtain rfl := Except.ok.inj hHere
          rfl
      | file content =>
          have hMarked : isShadow (root.join (ofNames names)) =
              isShadowEntry (names, .file content) :=
            isShadow_of_components hne hHead (components_join_ofNames hRoot hHead)
          simp only [visit, hMarked] at hHere
          obtain rfl := Except.ok.inj hHere
          cases isShadowEntry (names, .file content) <;> rfl

theorem eq_spots_of_find (hTree : t.WellFormed) {root : Path} {found : List Path}
    (h : find t cwd root = .ok found) : found = (spotsOf t cwd root).map Spot.path := by
  cases hDirectory : t.directory? cwd root with
  | none =>
      rw [find, hDirectory] at h
      cases h
  | some base =>
      have hBytes : root.bytes ≠ [] := (walk_of_resolve (directory?_eq_some_iff.1 hDirectory)).1
      rw [find, hDirectory] at h
      rw [spotsOf, hDirectory, List.map_map]
      refine eq_of_visitAll hBytes ?_ h
      intro e he
      obtain ⟨hne, hMem⟩ := mem_below.1 he
      exact ⟨hne, fun n hn => hTree.named _ hMem n (List.mem_append_right base hn)⟩

/-- **What is listed are the paths of the spots.** -/
theorem eq_spots_of_shadowsOf (hTree : t.WellFormed) {roots : List SourceRoot}
    {shadows : List Path} (h : CommandLine.shadowsOf t cwd roots = .ok shadows) :
    shadows = (spots t cwd roots).map Spot.path := by
  induction roots generalizing shadows with
  | nil => exact (Except.ok.inj h).symm
  | cons root roots ih =>
      rw [spots, List.flatMap_cons, List.map_append]
      cases hDirectory : t.directory? cwd root.path with
      | none =>
          rw [shadowsOf_cons_of_missing hDirectory] at h
          rw [spotsOf, hDirectory]
          exact ih h
      | some base =>
          obtain ⟨found, later, hFound, hLater, rfl⟩ :=
            (shadowsOf_cons_eq_ok_iff (by simp [hDirectory])).1 h
          rw [eq_spots_of_find hTree hFound, ih hLater, spots]

/-! ## No spot twice -/

theorem nodup_spotsOf (root : Path) : ((spotsOf t cwd root).map Spot.place).Nodup := by
  rw [spotsOf]
  split
  · exact List.nodup_nil
  · next base _ =>
    rw [List.map_map, List.Nodup, List.pairwise_map]
    have hNodup := nodup_below t base
    rw [List.Nodup, List.pairwise_map] at hNodup
    exact (hNodup.filter _).imp fun hne hSame => hne (List.append_cancel_left hSame)

/-- **A file is listed twice exactly if roots are nested around it**, when different roots are
different directories. -/
theorem nodup_places_iff (hTree : t.WellFormed) {roots : List SourceRoot}
    (hRoots : roots.Pairwise fun a b =>
      ∀ base, t.directory? cwd a.path = some base → t.directory? cwd b.path ≠ some base) :
    ((spots t cwd roots).map Spot.place).Nodup ↔ ¬ Nested t cwd roots := by
  rw [spots, List.map_flatMap, List.nodup_flatMap]
  constructor
  · rintro ⟨-, hDisjoint⟩ ⟨outer, hOuter, inner, hInner, base, base', hBase, hBase',
      ⟨names, hne, rfl⟩, loc, hStands, names', hne', rfl⟩
    have hDifferent : outer ≠ inner := by
      rintro rfl
      rw [hBase] at hBase'
      simp [hne] at hBase'
    have hOnce : base ++ names ++ names' ∈ (spotsOf t cwd outer.path).map Spot.place :=
      List.mem_map.2 ⟨⟨outer.path, base, names ++ names'⟩, (mem_spotsOf hTree).2
        ⟨rfl, hBase, by simp [hne], by simpa [Spot.place] using hStands⟩, by simp [Spot.place]⟩
    have hTwice : base ++ names ++ names' ∈ (spotsOf t cwd inner.path).map Spot.place :=
      List.mem_map.2 ⟨⟨inner.path, base ++ names, names'⟩, (mem_spotsOf hTree).2
        ⟨rfl, hBase', hne', hStands⟩, rfl⟩
    have : Std.Symm (Function.onFun List.Disjoint fun root : SourceRoot =>
        (spotsOf t cwd root.path).map Spot.place) := ⟨fun _ _ h loc hLoc hLoc' => h hLoc' hLoc⟩
    exact hDisjoint.forall hOuter hInner hDifferent hOnce hTwice
  · intro hApart
    refine ⟨fun root _ => nodup_spotsOf root.path, ?_⟩
    apply hRoots.imp_of_mem
    intro a b ha hb hDifferent loc hLoc hLoc'
    apply hApart
    obtain ⟨s, hs, rfl⟩ := List.mem_map.1 hLoc
    obtain ⟨s', hs', hSame⟩ := List.mem_map.1 hLoc'
    obtain ⟨-, hBase, hne, hStands⟩ := (mem_spotsOf hTree).1 hs
    obtain ⟨-, hBase', hne', hStands'⟩ := (mem_spotsOf hTree).1 hs'
    rcases List.append_eq_append_iff.1 hSame with ⟨between, hBases, -⟩ | ⟨between, hBases, -⟩
    · refine ⟨b, hb, a, ha, s'.base, s.base, hBase', hBase, ⟨between, ?_, hBases⟩, s.place, hStands,
        s.names, hne, rfl⟩
      rintro rfl
      rw [List.append_nil] at hBases
      exact hDifferent s.base hBase (hBases ▸ hBase')
    · refine ⟨a, ha, b, hb, s.base, s'.base, hBase, hBase', ⟨between, ?_, hBases⟩, s'.place,
        hStands', s'.names, hne', rfl⟩
      rintro rfl
      rw [List.append_nil] at hBases
      exact hDifferent s'.base (hBases ▸ hBase) hBase'

theorem pairwise_directories (hLinks : t.NoLinks) {u : FileTree} {cwd' : Location} {project : Path}
    {named : Option Path} {o : Overrides} {plan : Plan}
    (h : Plan.load u cwd' project named o = .ok plan) :
    plan.roots.Pairwise fun a b =>
      ∀ base, t.directory? cwd a.path = some base → t.directory? cwd b.path ≠ some base := by
  refine (Plan.pairwise_normalize_of_load h).imp_of_mem ?_
  intro a b ha hb hDifferent base hBase hBase'
  apply hDifferent
  exact normalize_eq_of_directory hLinks (Plan.isAbsolute_root_of_load h ha)
    (Plan.isAbsolute_root_of_load h hb) hBase hBase'

/-! ## Removing what is listed -/

theorem leadsTo_of_mem_spots (hPlain : t.Plain) {roots : List SourceRoot} {s : Spot}
    (hs : s ∈ spots t cwd roots) :
    ∃ dir name content, LeadsTo t cwd s.path dir name ∧ s.place = dir ++ [name] ∧
      t.find? (dir ++ [name]) = some (.file content) := by
  obtain ⟨root, base, names⟩ := s
  obtain ⟨-, hDirectory, hne, ⟨content, hFile⟩, -⟩ := (mem_spots hPlain.wellFormed).1 hs
  obtain ⟨front, name, rfl⟩ := (List.eq_nil_or_concat' names).resolve_left hne
  have hPlace : base ++ (front ++ [name]) = base ++ front ++ [name] :=
    (List.append_assoc base front [name]).symm
  simp only [Spot.place, hPlace] at hFile
  exact ⟨base ++ front, name, content, leadsTo_join hPlain hDirectory hFile, hPlace, hFile⟩

/-- What is listed can be listed and removed exactly if it is in reach. -/
theorem inReach_iff (hTree : t.WellFormed) {roots : List SourceRoot} :
    InReach t cwd roots ↔ ∃ shadows, CommandLine.shadowsOf t cwd roots = .ok shadows ∧
      ∀ p ∈ shadows, p.bytes.length < pathLimit := by
  have hShort {p : Path} : isTooLong p = false ↔ p.bytes.length < pathLimit := by
    rw [isTooLong, decide_eq_false_iff_not, Nat.not_le]
  constructor
  · intro hReach
    obtain ⟨shadows, hShadows⟩ : ∃ shadows, CommandLine.shadowsOf t cwd roots = .ok shadows := by
      rw [exists_shadowsOf_iff]
      intro root hRoot base hBase names hne hFind
      have hListed := hReach root hRoot base names hBase hne (Or.inl hFind)
      simp [Selection.listDirectory, hListed]
    refine ⟨shadows, hShadows, ?_⟩
    rw [eq_spots_of_shadowsOf hTree hShadows, List.forall_mem_map]
    intro s hs
    obtain ⟨⟨root, hRoot, hSame⟩, hDirectory, hne, hStands⟩ := (mem_spots hTree).1 hs
    rw [hSame] at hDirectory
    rw [Spot.path, hSame, ← hShort]
    exact hReach root hRoot s.base s.names hDirectory hne (Or.inr hStands)
  · rintro ⟨shadows, hShadows, hLength⟩ root hRoot base names hBase hne hFind
    rcases hFind with hFind | hStands
    · have hListed :=
        exists_shadowsOf_iff.1 ⟨shadows, hShadows⟩ root hRoot base hBase names hne hFind
      rw [Selection.listDirectory] at hListed
      split at hListed
      · cases hListed
      · next hNot => exact Bool.eq_false_iff.2 hNot
    · rw [hShort]
      apply hLength
      rw [eq_spots_of_shadowsOf hTree hShadows]
      exact List.mem_map.2 ⟨⟨root.path, base, names⟩,
        (mem_spots hTree).2 ⟨⟨root, hRoot, rfl⟩, hBase, hne, hStands⟩, rfl⟩

/-- **Removing what is listed takes away the files at the spots**, also if one is listed twice. -/
theorem removeAll_spots (hPlain : t.Plain) {roots : List SourceRoot}
    (hShort : ∀ s ∈ spots t cwd roots, s.path.bytes.length < pathLimit) :
    ∃ n, removeAll t cwd ((spots t cwd roots).map Spot.path) =
      (t.without ((spots t cwd roots).map Spot.place), .ok n) := by
  have hFiles : ∀ loc ∈ (spots t cwd roots).map Spot.place,
      ∃ content, t.find? loc = some (.file content) := by
    rw [List.forall_mem_map]
    intro s hs
    exact ((mem_spots hPlain.wellFormed).1 hs).2.2.2.file
  have hOverlay := overlay_without hFiles
  have hLeads : ∀ s ∈ spots t cwd roots, ∃ dir name,
      LeadsTo (t.without ((spots t cwd roots).map Spot.place)) cwd s.path dir name ∧
        s.place = dir ++ [name] := by
    intro s hs
    obtain ⟨dir, name, -, hLeads, hPlace, -⟩ := leadsTo_of_mem_spots hPlain hs
    exact ⟨dir, name, hOverlay.leadsTo_iff.2 hLeads, hPlace⟩
  have hPaths : ∀ p ∈ (spots t cwd roots).map Spot.path, ∃ dir name,
      LeadsTo (t.without ((spots t cwd roots).map Spot.place)) cwd p dir name ∧
        (t.without ((spots t cwd roots).map Spot.place)).find? (dir ++ [name]) = none := by
    rw [List.forall_mem_map]
    intro s hs
    obtain ⟨dir, name, hLeads, hPlace⟩ := hLeads s hs
    refine ⟨dir, name, hLeads, ?_⟩
    rw [find?_without hOverlay.below, if_pos (hPlace ▸ List.mem_map_of_mem hs)]
  obtain ⟨n, locs, u, hRemoved, hRest, hLeft, -⟩ :=
    removeAll_of_overlay hOverlay hPaths (List.forall_mem_map.2 hShort)
  have hNone : locs = [] := by
    rw [List.eq_nil_iff_forall_not_mem]
    intro loc hLoc
    obtain ⟨hOld, hNot⟩ := hLeft loc hLoc
    obtain ⟨s, hs, rfl⟩ := List.mem_map.1 hOld
    obtain ⟨dir, name, hLeads, hPlace⟩ := hLeads s hs
    exact hNot ⟨s.path, List.mem_map_of_mem hs, dir, name, hLeads, hPlace⟩
  subst hNone
  exact ⟨n, by rw [hRemoved, hRest.eq]⟩

end

end CoverRun.Shadow

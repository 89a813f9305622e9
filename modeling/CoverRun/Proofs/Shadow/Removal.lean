import CoverRun.CommandLine
import CoverRun.Proofs.FileTree.Location
import CoverRun.Proofs.FileTree.Slashed
import CoverRun.Proofs.Shadow.Recognition
import CoverRun.Proofs.Shadow.Source

/-!
# Cleaning up after a run

Each shadow that a run wrote stands below a root, where nothing stood before, and is found from
there. What is found below the roots is one of these, under a path that leads to it, so removing
what was found takes the shadows away one after another and nothing else
(`Shadow.removeAll_of_overlay`). A path that is too long can be in the way, since a shadow is found
under the path of its root as it is written, and was written under the path of its parent, and a
shadow whose name is not UTF-8 is not recognised (`Shadow.removeAll_writeAll`).
-/

namespace CoverRun.Shadow

open CoverRun.Path FileTree Outcome

/-! ## Where shadows are found -/

/-- A shadow name in a directory below a root, and the path under which it is found there. -/
def FoundBelow (t : FileTree) (cwd : Location) (root p : Path) (dir : Location) (name : FileName) :
    Prop :=
  ∃ base names, t.directory? cwd root = some base ∧ dir = base ++ names ∧
    p = root.join (ofNames (names ++ [name])) ∧ name.isText = true ∧
    isMarkedName name.bytes = true

theorem isShadow_join {root : Path} (hRoot : root.bytes ≠ []) {names : Location} {name : FileName}
    (h : ∀ n ∈ names ++ [name], IsName n) :
    isShadow (root.join (ofNames (names ++ [name]))) = true ↔
      name.isText = true ∧ isMarkedName name.bytes = true := by
  rw [isShadow_eq (fileName?_of_components (components_join_concat hRoot h)), Bool.and_eq_true]

/-- The directories below a location can be listed under paths that go on from a root. -/
def Listable (t : FileTree) (base : Location) (root : Path) : Prop :=
  ∀ names, names ≠ [] → t.find? (base ++ names) = some .directory →
    Selection.listDirectory root names = .ok ()

theorem exists_visit_iff {root : Path} {e : Location × Entry} :
    (∃ result, visit root e = .ok result) ↔
      ∀ names, e = (names, .directory) → Selection.listDirectory root names = .ok () := by
  obtain ⟨names, entry⟩ := e
  cases entry with
  | directory =>
      cases hList : Selection.listDirectory root names <;> simp [visit, hList, Except.map]
  | file content => simp [visit]
  | link target => simp [visit]

theorem visit_eq_some_iff {root p : Path} {e : Location × Entry} :
    visit root e = .ok (some p) ↔ ∃ names content, e = (names, .file content) ∧
      p = root.join (ofNames names) ∧ isShadow p = true := by
  obtain ⟨names, entry⟩ := e
  cases entry with
  | directory =>
      cases hList : Selection.listDirectory root names <;> simp [visit, hList, Except.map]
  | link target => simp [visit]
  | file content =>
      simp only [visit, Except.ok.injEq, Option.ite_none_right_eq_some, Option.some.injEq]
      constructor
      · rintro ⟨hShadow, rfl⟩
        exact ⟨names, content, rfl, rfl, hShadow⟩
      · rintro ⟨_, _, hEq, rfl, hShadow⟩
        obtain ⟨rfl, -⟩ := Prod.mk.inj hEq
        exact ⟨hShadow, rfl⟩

section

variable {t : FileTree} {cwd : Location}

theorem exists_find_iff {base : Location} {root : Path}
    (hDirectory : t.directory? cwd root = some base) :
    (∃ found, find t cwd root = .ok found) ↔ Listable t base root := by
  rw [find, hDirectory]
  refine exists_visitAll_iff.trans ⟨fun h names hne hFind => ?_, fun h e hMem => ?_⟩
  · have hMem : (names, .directory) ∈ t.below base :=
      mem_below.2 ⟨hne, (find?_eq_some_iff (by simp [hne])).1 hFind⟩
    exact exists_visit_iff.1 (h _ hMem) names rfl
  · refine exists_visit_iff.2 fun names hEntry => ?_
    rw [hEntry] at hMem
    obtain ⟨hne, hEntries⟩ := mem_below.1 hMem
    exact h names hne ((find?_eq_some_iff (by simp [hne])).2 hEntries)

theorem mem_find (hTree : t.WellFormed) {base : Location} {root : Path}
    (hDirectory : t.directory? cwd root = some base) {found : List Path}
    (h : find t cwd root = .ok found) (p : Path) : p ∈ found ↔ ∃ dir name content,
      FoundBelow t cwd root p dir name ∧ t.find? (dir ++ [name]) = some (.file content) := by
  have hBytes : root.bytes ≠ [] := (walk_of_resolve (directory?_eq_some_iff.1 hDirectory)).1
  have hNames {names : Location} {e : Entry} (hMem : (base ++ names, e) ∈ t.entries.entries) :
      ∀ n ∈ names, IsName n := fun n hn => hTree.named _ hMem n (List.mem_append_right base hn)
  rw [find, hDirectory] at h
  rw [mem_visitAll h]
  constructor
  · rintro ⟨e, hMem, hVisit⟩
    obtain ⟨names, content, rfl, rfl, hShadow⟩ := visit_eq_some_iff.1 hVisit
    obtain ⟨hne, hEntry⟩ := mem_below.1 hMem
    obtain ⟨front, name, rfl⟩ := (List.eq_nil_or_concat' names).resolve_left hne
    rw [isShadow_join hBytes (hNames hEntry)] at hShadow
    rw [← List.append_assoc] at hEntry
    exact ⟨base ++ front, name, content, ⟨base, front, hDirectory, rfl, rfl, hShadow⟩,
      (find?_eq_some_iff (by simp)).2 hEntry⟩
  · rintro ⟨dir, name, content, ⟨base', names, hBase, rfl, rfl, hShadow⟩, hFind⟩
    obtain rfl := Option.some.inj (hDirectory.symm.trans hBase)
    have hEntry := (find?_eq_some_iff (by simp)).1 hFind
    rw [List.append_assoc] at hEntry
    refine ⟨(names ++ [name], .file content), mem_below.2 ⟨by simp, hEntry⟩,
      visit_eq_some_iff.2 ⟨_, content, rfl, rfl, ?_⟩⟩
    exact (isShadow_join hBytes (hNames hEntry)).2 hShadow

theorem shadowsOf_cons_eq_ok_iff {root : SourceRoot} {roots : List SourceRoot}
    {shadows : List Path} (hRoot : (t.directory? cwd root.path).isSome) :
    CommandLine.shadowsOf t cwd (root :: roots) = .ok shadows ↔ ∃ found later,
      find t cwd root.path = .ok found ∧ CommandLine.shadowsOf t cwd roots = .ok later ∧
        shadows = found ++ later := by
  rw [CommandLine.shadowsOf, if_pos hRoot, bind_eq_ok_iff]
  constructor
  · rintro ⟨found, hFound, hRest⟩
    obtain ⟨later, hLater, hEq⟩ := bind_eq_ok_iff.1 hRest
    exact ⟨found, later, hFound, hLater, (Except.ok.inj hEq).symm⟩
  · rintro ⟨found, later, hFound, hLater, rfl⟩
    exact ⟨found, hFound, by rw [hLater]; rfl⟩

theorem shadowsOf_cons_of_missing {root : SourceRoot} {roots : List SourceRoot}
    (h : t.directory? cwd root.path = none) :
    CommandLine.shadowsOf t cwd (root :: roots) = CommandLine.shadowsOf t cwd roots := by
  rw [CommandLine.shadowsOf, if_neg (by simp [h])]
  cases CommandLine.shadowsOf t cwd roots <;> rfl

theorem exists_shadowsOf_iff {roots : List SourceRoot} :
    (∃ shadows, CommandLine.shadowsOf t cwd roots = .ok shadows) ↔
      ∀ root ∈ roots, ∀ base, t.directory? cwd root.path = some base →
        Listable t base root.path := by
  induction roots with
  | nil => exact ⟨fun _ => List.forall_mem_nil _, fun _ => ⟨[], rfl⟩⟩
  | cons root roots ih =>
      rw [List.forall_mem_cons, ← ih]
      cases hBase : t.directory? cwd root.path with
      | none => simp [shadowsOf_cons_of_missing hBase]
      | some base =>
          have hRoot : (t.directory? cwd root.path).isSome := by simp [hBase]
          simp only [shadowsOf_cons_eq_ok_iff hRoot, Option.some.injEq, forall_eq',
            ← exists_find_iff hBase]
          constructor
          · rintro ⟨_, found, later, hFound, hLater, rfl⟩
            exact ⟨⟨found, hFound⟩, later, hLater⟩
          · rintro ⟨⟨found, hFound⟩, later, hLater⟩
            exact ⟨_, found, later, hFound, hLater, rfl⟩

theorem mem_shadowsOf (hTree : t.WellFormed) {roots : List SourceRoot}
    (h : ∀ root ∈ roots, (t.directory? cwd root.path).isSome) {shadows : List Path}
    (hShadows : CommandLine.shadowsOf t cwd roots = .ok shadows) (p : Path) :
    p ∈ shadows ↔ ∃ root ∈ roots, ∃ dir name content,
      FoundBelow t cwd root.path p dir name ∧ t.find? (dir ++ [name]) = some (.file content) := by
  induction roots generalizing shadows with
  | nil =>
      obtain rfl := Except.ok.inj hShadows
      simp
  | cons root roots ih =>
      obtain ⟨hRoot, hRoots⟩ := List.forall_mem_cons.1 h
      obtain ⟨base, hBase⟩ := Option.isSome_iff_exists.1 hRoot
      obtain ⟨found, later, hFound, hLater, rfl⟩ := (shadowsOf_cons_eq_ok_iff hRoot).1 hShadows
      rw [List.mem_append, mem_find hTree hBase hFound, ih hRoots hLater,
        List.exists_mem_cons_iff]

/-- Files that come or go do not change which directories can be listed. -/
theorem exists_shadowsOf_of_overlay {u : FileTree} {locs : List Location} (hLinks : t.NoLinks)
    (hOverlay : Overlay t locs u) {roots : List SourceRoot} {shadows : List Path}
    (hShadows : CommandLine.shadowsOf t cwd roots = .ok shadows) :
    ∃ shadows, CommandLine.shadowsOf u cwd roots = .ok shadows := by
  rw [exists_shadowsOf_iff]
  intro root hRoot base hBase names hne hFind
  rw [hOverlay.directory?_eq hLinks] at hBase
  rw [← hOverlay.directory_iff] at hFind
  exact exists_shadowsOf_iff.1 ⟨shadows, hShadows⟩ root hRoot base hBase names hne hFind

end

/-! ## Removing what was found -/

/-- One of the paths leads to a location. -/
def Reached (t : FileTree) (cwd : Location) (ps : List Path) (loc : Location) : Prop :=
  ∃ p ∈ ps, ∃ dir name, LeadsTo t cwd p dir name ∧ loc = dir ++ [name]

theorem reached_cons_iff {t : FileTree} {cwd dir loc : Location} {p : Path} {name : FileName}
    {ps : List Path} (hLeads : LeadsTo t cwd p dir name) :
    Reached t cwd (p :: ps) loc ↔ loc = dir ++ [name] ∨ Reached t cwd ps loc := by
  rw [Reached, List.exists_mem_cons_iff]
  refine or_congr ⟨?_, ?_⟩ Iff.rfl
  · rintro ⟨dir', name', hLeads', rfl⟩
    obtain ⟨rfl, rfl⟩ := hLeads.unique hLeads'
    rfl
  · exact fun hLoc => ⟨dir, name, hLeads, hLoc⟩

/-- **Removing takes the files away one after another.** A path to what is gone already is passed
over. -/
theorem removeAll_of_overlay {t u : FileTree} {cwd : Location} {locs : List Location}
    (hOverlay : Overlay t locs u) {ps : List Path}
    (hPaths : ∀ p ∈ ps, ∃ dir name, LeadsTo t cwd p dir name ∧ t.find? (dir ++ [name]) = none)
    (hShort : ∀ p ∈ ps, p.bytes.length < pathLimit) :
    ∃ n locs' u', removeAll u cwd ps = (u', .ok n) ∧ Overlay t locs' u' ∧
      (∀ loc ∈ locs', loc ∈ locs ∧ ¬ Reached t cwd ps loc) ∧
      ∀ loc, ¬ Reached t cwd ps loc → u'.find? loc = u.find? loc := by
  induction ps generalizing u locs with
  | nil =>
      refine ⟨0, locs, u, rfl, hOverlay, fun loc hLoc => ⟨hLoc, ?_⟩, fun _ _ => rfl⟩
      rintro ⟨p, hp, -⟩
      cases hp
  | cons p ps ih =>
      obtain ⟨dir, name, hLeads, hFree⟩ := hPaths p List.mem_cons_self
      have hLength := hShort p List.mem_cons_self
      have hLeads' := (hOverlay.leadsTo_iff).1 hLeads
      have hLater := fun q hq => hPaths q (List.mem_cons_of_mem p hq)
      have hShorter := fun q hq => hShort q (List.mem_cons_of_mem p hq)
      simp only [reached_cons_iff hLeads, not_or]
      by_cases hMem : dir ++ [name] ∈ locs
      · obtain ⟨content, hFile⟩ := hOverlay.file _ hMem
        obtain ⟨n, locs', u', hRemoved, hOverlay', hRest, hKept⟩ :=
          ih (hOverlay.drop hMem hFree) hLater hShorter
        refine ⟨n + 1, locs', u', ?_, hOverlay', fun loc hLoc => ?_, fun loc hNot => ?_⟩
        · simp only [removeAll, hLeads'.remove_file hLength hFile, hRemoved]
          rfl
        · obtain ⟨hStays, hNot⟩ := hRest loc hLoc
          obtain ⟨hOld, hOther⟩ : loc ∈ locs ∧ loc ≠ dir ++ [name] := by simpa using hStays
          exact ⟨hOld, hOther, hNot⟩
        · rw [hKept loc hNot.2, find?_drop (by simp), if_neg hNot.1]
      · have hAbsent : u.find? (dir ++ [name]) = none := (hOverlay.find?_eq hMem).trans hFree
        obtain ⟨n, locs', u', hRemoved, hOverlay', hRest, hKept⟩ := ih hOverlay hLater hShorter
        refine ⟨n, locs', u', ?_, hOverlay', fun loc hLoc => ?_, fun loc hNot => hKept loc hNot.2⟩
        · simp only [removeAll, hLeads'.remove_absent hLength hAbsent, hRemoved]
        · obtain ⟨hOld, hNot⟩ := hRest loc hLoc
          exact ⟨hOld, fun hEq => hMem (hEq ▸ hOld), hNot⟩

theorem removeAll_error {cwd : Location} {p : Path} {cause : FileError} (hCause : cause ≠ .notFound)
    (h : ∀ u : FileTree, u.remove cwd p = .error cause) {ps : List Path} (hp : p ∈ ps)
    (u : FileTree) : ∃ e, (removeAll u cwd ps).2 = .error e := by
  induction ps generalizing u with
  | nil => cases hp
  | cons q ps ih =>
      rw [removeAll]
      rcases List.mem_cons.1 hp with rfl | hp
      · rw [h u]
        exact ⟨⟨p, cause⟩, by cases cause <;> first | exact absurd rfl hCause | rfl⟩
      · split
        · obtain ⟨e, hError⟩ := ih hp _
          exact ⟨e, congrArg (Except.map (· + 1)) hError⟩
        · exact ih hp u
        · exact ⟨_, rfl⟩

/-! ## After a run -/

theorem Plain.writeAll {t : FileTree} (h : t.Plain) {cwd : Location}
    (hCwd : t.find? cwd = some .directory) (texts : List ShadowText) :
    (writeAll t cwd texts).tree.Plain := by
  induction texts generalizing t with
  | nil => exact h
  | cons s texts ih =>
      rw [Shadow.writeAll]
      cases hWrite : t.write cwd (namePath s.source) (Utf8.encode s.text) with
      | error cause => exact h
      | ok u =>
          obtain ⟨loc, -, hOverlay⟩ := overlay_write h.noLinks hWrite
          exact ih (h.write hCwd hWrite) ((hOverlay.directory_iff cwd).1 hCwd)

theorem isMarkedName_of_isSource {extensions : List String} {names : Location} {name : FileName}
    (h : Selection.isSource extensions (names ++ [name]) = true) :
    isMarkedName (nameOf name).bytes = true := by
  rw [Selection.isSource, List.getLast?_concat, Bool.and_eq_true] at h
  simp only [Selection.isEligible] at h
  cases hCut : (cutName name.bytes).2 with
  | none => simp [hCut] at h
  | some ext => exact isMarkedName_nameBytes hCut

/-- **Cleaning undoes a run.** In a plain tree without shadows below the roots, write shadows for
what is selected, with any texts and up to any failure. Then removing what is found below the roots
succeeds and leaves the tree as it was, exactly if no path that was found is too long and the name
of each file that is new or changed is UTF-8, as it is if the names of all sources are. -/
theorem removeAll_writeAll {t : FileTree} (hPlain : t.Plain) {cwd : Location}
    (hCwd : t.find? cwd = some .directory) {extensions : List String} {roots : List SourceRoot}
    {sel : Selection} (hSelected : Selection.ofRoots t cwd extensions roots = .ok sel)
    (hClean : CommandLine.shadowsOf t cwd roots = .ok []) {files : List InstrumentedFile}
    (hFiles : files.map (·.file) = sel.instrument) :
    let t' := (writeAll t cwd (Instrumentation.shadowTexts files sel.passThrough)).tree
    ∃ shadows, CommandLine.shadowsOf t' cwd roots = .ok shadows ∧
      ((∃ n, removeAll t' cwd shadows = (t, .ok n)) ↔
        (∀ p ∈ shadows, p.bytes.length < pathLimit) ∧
          ∀ dir name, t'.find? (dir ++ [name]) ≠ t.find? (dir ++ [name]) → name.isText = true) ∧
      ((∀ f ∈ sel.all, ∀ name, f.path.fileName? = some name → name.isText = true) →
        ∀ dir name, t'.find? (dir ++ [name]) ≠ t.find? (dir ++ [name]) → name.isText = true) := by
  intro t'
  have hRoots := (Selection.ofRoots_spec hPlain.wellFormed hSelected).1
  have hPlain' : t'.Plain := Plain.writeAll hPlain hCwd _
  obtain ⟨locs, hOverlay, hPlaces⟩ :=
    overlay_writeAll hPlain.noLinks cwd (Instrumentation.shadowTexts files sel.passThrough)
  have hDirectory (root : Path) : t'.directory? cwd root = t.directory? cwd root :=
    hOverlay.directory?_eq hPlain.noLinks cwd root
  have hRoots' : ∀ root ∈ roots, (t'.directory? cwd root.path).isSome := fun root hRoot => by
    rw [hDirectory]
    exact hRoots root hRoot
  have hMemBefore := mem_shadowsOf hPlain.wellFormed hRoots hClean
  obtain ⟨shadows, hShadows⟩ := exists_shadowsOf_of_overlay hPlain.noLinks hOverlay hClean
  have hMem := mem_shadowsOf hPlain'.wellFormed hRoots' hShadows
  simp only [FoundBelow, hDirectory] at hMem
  have hNew {root : SourceRoot} (hRoot : root ∈ roots) {p : Path} {dir : Location} {name : FileName}
      (hAt : FoundBelow t cwd root.path p dir name) (content : Bytes) :
      t.find? (dir ++ [name]) ≠ some (.file content) := fun hFile =>
    absurd ((hMemBefore p).2 ⟨root, hRoot, dir, name, content, hAt, hFile⟩) List.not_mem_nil
  have hFree {root : SourceRoot} (hRoot : root ∈ roots) {p : Path} {dir : Location}
      {name : FileName} {content : Bytes} (hAt : FoundBelow t cwd root.path p dir name)
      (hFile : t'.find? (dir ++ [name]) = some (.file content)) :
      t.find? (dir ++ [name]) = none := by
    by_cases hLoc : dir ++ [name] ∈ locs
    · exact (hOverlay.admits _ hLoc).resolve_right fun ⟨old, hOld⟩ => hNew hRoot hAt old hOld
    · exact absurd ((hOverlay.find?_eq hLoc).symm.trans hFile) (hNew hRoot hAt content)
  have hLeads {root p : Path} {dir : Location} {name : FileName} {content : Bytes}
      (hAt : FoundBelow t cwd root p dir name)
      (hFile : t'.find? (dir ++ [name]) = some (.file content)) : LeadsTo t cwd p dir name := by
    obtain ⟨base, names, hBase, rfl, rfl, -⟩ := hAt
    exact hOverlay.leadsTo_iff.2 (leadsTo_join hPlain' ((hDirectory root).trans hBase) hFile)
  have hPaths : ∀ p ∈ shadows, ∃ dir name, LeadsTo t cwd p dir name ∧
      t.find? (dir ++ [name]) = none := by
    intro p hp
    obtain ⟨root, hRoot, dir, name, content, hAt, hFile⟩ := (hMem p).1 hp
    exact ⟨dir, name, hLeads hAt hFile, hFree hRoot hAt hFile⟩
  have hReached {dir : Location} {name : FileName} (h : Reached t cwd shadows (dir ++ [name])) :
      name.isText = true := by
    obtain ⟨p, hp, dir', name', hLeads', hLoc⟩ := h
    obtain ⟨root, -, dir'', name'', content, hAt, hFile⟩ := (hMem p).1 hp
    obtain ⟨rfl, rfl⟩ := hLeads'.unique (hLeads hAt hFile)
    obtain ⟨-, -, -, -, -, hText, -⟩ := hAt
    rwa [List.head_eq_of_cons_eq (List.append_inj' hLoc rfl).2]
  refine ⟨shadows, hShadows, ⟨?_, ?_⟩, fun hText dir name hNew =>
    isText_of_changed hPlain hSelected hFiles hText hNew⟩
  · rintro ⟨n, hRemoved⟩
    have hShort : ∀ p ∈ shadows, p.bytes.length < pathLimit := by
      intro p hp
      by_contra hLong
      obtain ⟨dir, name, hLeads, -⟩ := hPaths p hp
      obtain ⟨e, hError⟩ :=
        removeAll_error (by decide) (hLeads.remove_long (Nat.not_lt.1 hLong)) hp t'
      rw [hRemoved] at hError
      cases hError
    refine ⟨hShort, fun dir name hChanged => ?_⟩
    obtain ⟨n', -, u, hRemoved', -, -, hKept⟩ := removeAll_of_overlay hOverlay hPaths hShort
    obtain rfl : t = u := congrArg Prod.fst (hRemoved.symm.trans hRemoved')
    by_contra hText
    exact hChanged (hKept _ (mt hReached hText)).symm
  · rintro ⟨hShort, hText⟩
    obtain ⟨n, locs', u, hRemoved, hRest, hLeft, -⟩ :=
      removeAll_of_overlay hOverlay.changed hPaths hShort
    have hEmpty : locs' = [] := by
      refine List.eq_nil_iff_forall_not_mem.2 fun loc hLoc => ?_
      obtain ⟨hOld, hNot⟩ := hLeft loc hLoc
      obtain ⟨hPut, hChanged⟩ := List.mem_filter.1 hOld
      obtain ⟨s, -, hPlace⟩ := hPlaces loc hPut
      obtain ⟨dir, name, rfl, -⟩ := exists_place hPlace
      have hNewName := of_decide_eq_true hChanged
      obtain ⟨-, -, root, hRoot, base, names, n, hBase, rfl, rfl, -, -, hSource⟩ :=
        exists_source_of_changed hPlain hSelected hFiles hNewName
      have hAt : FoundBelow t cwd root.path _ (base ++ names) (nameOf n) :=
        ⟨base, names, hBase, rfl, rfl, hText _ _ hNewName, isMarkedName_of_isSource hSource⟩
      obtain ⟨content, hFile⟩ := hOverlay.file _ hPut
      exact hNot ⟨_, (hMem _).2 ⟨root, hRoot, _, _, content, hAt, hFile⟩, _, _, hLeads hAt hFile,
        rfl⟩
    subst hEmpty
    exact ⟨n, hRest.eq ▸ hRemoved⟩

/-- The source is selected from two roots, and its one shadow is found twice and removed once. -/
theorem removeAll_writeAll_nested :
    let t : FileTree := ⟨OrderedMap.ofList [(["c"], .directory), (["c", "d"], .directory),
      (["c", "d", "F.sol"], .file [97])]⟩
    let f : SourceFile := ⟨"/c", "d/F.sol", "a"⟩
    let g : SourceFile := ⟨"/c/d", "F.sol", "a"⟩
    let roots : List SourceRoot := [⟨"/c", []⟩, ⟨"/c/d", []⟩]
    let files : List InstrumentedFile := [⟨f, "x", OrderedMap.empty⟩, ⟨g, "y", OrderedMap.empty⟩]
    let t' := (writeAll t [] (Instrumentation.shadowTexts files [])).tree
    Selection.ofRoots t [] ["sol"] roots = .ok ⟨[f, g], []⟩ ∧
      t'.find? ["c", "d", ".F.cover.sol"] = some (.file [121]) ∧
      ∃ shadows n, CommandLine.shadowsOf t' [] roots = .ok shadows ∧
        shadows = (["/c/d/.F.cover.sol", "/c/d/.F.cover.sol"] : List Path) ∧
        removeAll t' [] shadows = (t, .ok n) := by
  intro t f g roots files t'
  have hPlain : t.Plain :=
    ⟨⟨by unfold Rooted; decide +kernel, by decide +kernel⟩, noLinks_of_entries (by decide +kernel),
      by decide +kernel⟩
  have hOuter : ("/c" : Path) = Location.path ["c"] := by decide +kernel
  have hInner : ("/c/d" : Path) = Location.path ["c", "d"] := by decide +kernel
  have hDirectories (u : FileTree) (hRooted : u.Rooted) (hc : u.find? ["c"] = some .directory)
      (hd : u.find? ["c", "d"] = some .directory) :
      u.directory? [] "/c" = some (["c"] : Location) ∧
        u.directory? [] "/c/d" = some (["c", "d"] : Location) := by
    rw [hOuter, hInner]
    exact ⟨directory?_path hRooted [] (by decide +kernel) hc,
      directory?_path hRooted [] (by decide +kernel) hd⟩
  obtain ⟨hc, hd⟩ := hDirectories t hPlain.wellFormed.rooted (by decide +kernel) (by decide +kernel)
  have hSelected : Selection.ofRoots t [] ["sol"] roots = .ok ⟨[f, g], []⟩ := by
    rw [Selection.ofRoots, Selection.ofRoots, Selection.ofRoots, Selection.discover, hc,
      Selection.discover, hd]
    decide +kernel
  have hClean : CommandLine.shadowsOf t [] roots = .ok [] := by
    simp only [CommandLine.shadowsOf, roots, find, hc, hd]
    decide +kernel
  have hRestored := @removeAll_writeAll t hPlain [] rfl _ roots _ hSelected hClean files rfl
  let dir : Location := ["c", "d"]
  have hPath : namePath f.path = Location.path (dir ++ [.ofText ".F.cover.sol"]) ∧
      namePath g.path = Location.path (dir ++ [.ofText ".F.cover.sol"]) := by decide +kernel
  have hFirst : t.write [] (namePath f.path) (Utf8.encode "x") =
      .ok (t.place ["c", "d", ".F.cover.sol"] (.file [120])) := by
    rw [hPath.1]
    exact write_path hPlain.wellFormed.rooted [] (by decide +kernel) (by decide +kernel)
      (Or.inl (by decide +kernel)) [120]
  let u := t.place ["c", "d", ".F.cover.sol"] (.file [120])
  have hSecond : u.write [] (namePath g.path) (Utf8.encode "y") =
      .ok (u.place ["c", "d", ".F.cover.sol"] (.file [121])) := by
    rw [hPath.2]
    exact write_path (by unfold Rooted; decide +kernel) [] (by decide +kernel) (by decide +kernel)
      (Or.inr ⟨[120], by decide +kernel⟩) [121]
  have hTree : t' = u.place ["c", "d", ".F.cover.sol"] (.file [121]) := by
    change (writeAll t [] [⟨f.path, "x"⟩, ⟨g.path, "y"⟩]).tree = _
    simp only [writeAll, hFirst]
    rw [hSecond]
  obtain ⟨hc', hd'⟩ := hDirectories (u.place ["c", "d", ".F.cover.sol"] (.file [121]))
    (by unfold Rooted; decide +kernel) (by decide +kernel) (by decide +kernel)
  have hFound : CommandLine.shadowsOf t' [] roots =
      .ok ["/c/d/.F.cover.sol", "/c/d/.F.cover.sol"] := by
    rw [hTree]
    simp only [CommandLine.shadowsOf, roots, find, hc', hd']
    decide +kernel
  obtain ⟨shadows, hShadows, hIff, hText⟩ := hRestored
  obtain rfl := Except.ok.inj (hShadows.symm.trans hFound)
  obtain ⟨n, hRemoved⟩ := hIff.2 ⟨by decide +kernel, hText (by decide +kernel)⟩
  exact ⟨hSelected, by rw [hTree]; decide +kernel, _, n, hFound, rfl, hRemoved⟩

/-! ## A path that is too long -/

theorem namePath_slashed (k : Nat) :
    namePath ((slashed k).join "F.sol") = "c/.F.cover.sol" := by
  obtain ⟨hParent, hComponents⟩ := parent?_slashed_join k (show IsName "F.sol" by decide)
  refine (namePath_eq hParent (fileName?_of_components hComponents)).trans ?_
  decide +kernel

/-- A shadow was written under a short path and is found under one that is too long: separators at
the end of a root are part of each path that is found. -/
theorem exists_not_restored :
    ¬ ∀ (t : FileTree) (cwd : Location) (extensions : List String) (roots : List SourceRoot)
      (sel : Selection) (files : List InstrumentedFile), t.Plain →
      t.find? cwd = some .directory → roots ≠ [] →
      Selection.ofRoots t cwd extensions roots = .ok sel →
      CommandLine.shadowsOf t cwd roots = .ok [] → files.map (·.file) = sel.instrument →
      let t' := (writeAll t cwd (Instrumentation.shadowTexts files sel.passThrough)).tree
      ∃ shadows n, CommandLine.shadowsOf t' cwd roots = .ok shadows ∧
        removeAll t' cwd shadows = (t, .ok n) := by
  intro hAll
  let t : FileTree :=
    ⟨OrderedMap.ofList [(["c"], .directory), (["c", "F.sol"], .file [120])]⟩
  let u : FileTree := t.place ["c", ".F.cover.sol"] (.file [121])
  obtain ⟨k, hk⟩ : ∃ k, k = 4087 := ⟨_, rfl⟩
  let f : SourceFile := ⟨slashed k, "F.sol", "x"⟩
  have hPlain : t.Plain :=
    ⟨⟨by unfold Rooted; decide +kernel, by decide +kernel⟩, noLinks_of_entries (by decide +kernel),
      by decide +kernel⟩
  have hPlain' : u.Plain :=
    ⟨⟨by unfold Rooted; decide +kernel, by decide +kernel⟩, noLinks_of_entries (by decide +kernel),
      by decide +kernel⟩
  have hShort : k + 2 < pathLimit := by
    rw [pathLimit]
    omega
  have hRoot := directory?_slashed hPlain.noLinks (by decide +kernel) hShort
  have hRoot' := directory?_slashed hPlain'.noLinks (by decide +kernel) hShort
  have hBelow : t.below ["c"] = ([(["F.sol"], .file [120])] : List (Location × Entry)) := by
    decide +kernel
  have hSelected : Selection.ofRoots t [] ["sol"] [⟨slashed k, []⟩] = .ok ⟨[f], []⟩ := by
    have hRead : Selection.readSource (slashed k) ["F.sol"] [120] = .ok f := by
      have hNames : ("F.sol" : Path) = ofNames ["F.sol"] := by decide
      have hText : Utf8.decode? [120] = some "x" := by decide +kernel
      refine Selection.readSource_eq_ok_iff.2 ⟨?_, rfl, hNames, hText⟩
      have hLength : ((slashed k).join "F.sol").bytes.length = k + 7 :=
        length_slashed_join k (show IsName "F.sol" by decide)
      rw [isTooLong, decide_eq_false_iff_not, ← hNames, hLength, pathLimit]
      omega
    have hDiscovered : Selection.discover t [] ["sol"] (slashed k) = .ok [f] := by
      refine Selection.discover_eq_ok_iff.2 ⟨["c"], hRoot, ?_, ?_⟩
      · simp [hBelow]
      · rw [Selection.sourcesBelow, hBelow]
        have hSource : Selection.isSource ["sol"] ["F.sol"] = true := by decide
        simp only [List.filterMap_cons, Selection.source?, hSource, if_true, List.filterMap_nil,
          List.mapM_cons, List.mapM_nil, hRead]
        rfl
    rw [Selection.ofRoots, Selection.ofRoots, hDiscovered]
    rfl
  have hClean : CommandLine.shadowsOf t [] [⟨slashed k, []⟩] = .ok [] := by
    have hNot : isShadow ((slashed k).join (ofNames ["F.sol"])) = false := by
      have hBytes : (slashed k).bytes ≠ [] :=
        bytes_ne_of_components (by rw [components_slashed]; decide)
      refine Bool.eq_false_iff.2 fun hShadow => ?_
      exact absurd ((@isShadow_join _ hBytes [] "F.sol" (by decide)).1 hShadow) (by decide)
    have hFound : find t [] (slashed k) = .ok [] := by
      rw [find, hRoot]
      show visitAll (visit (slashed k)) (t.below ["c"]) = .ok []
      simp only [hBelow, visitAll, visit, hNot]
      rfl
    exact (shadowsOf_cons_eq_ok_iff (by simp [hRoot])).2 ⟨[], [], hFound, rfl, rfl⟩
  have hWritten : (writeAll t [] [⟨f.path, "y"⟩]).tree = u := by
    have hLeads : LeadsTo t [] "c/.F.cover.sol" ["c"] ".F.cover.sol" :=
      ⟨⟨by decide, by decide, by decide⟩, by decide, by decide, by decide, ["c"],
        by decide +kernel, by decide +kernel⟩
    have hWrite := hLeads.write_file (by decide) (Or.inl (by decide +kernel)) (Utf8.encode "y")
    simp only [writeAll, f, SourceFile.path, namePath_slashed, hWrite]
    rfl
  obtain ⟨shadows, n, hShadows, hRemoved⟩ := hAll t [] ["sol"] [⟨slashed k, []⟩] ⟨[f], []⟩
    [⟨f, "y", OrderedMap.empty⟩] hPlain rfl (by simp) hSelected hClean rfl
  change CommandLine.shadowsOf (writeAll t [] [⟨f.path, "y"⟩]).tree [] _ = _ at hShadows
  change removeAll (writeAll t [] [⟨f.path, "y"⟩]).tree [] _ = _ at hRemoved
  rw [hWritten] at hShadows hRemoved
  let p := (slashed k).join (ofNames ([] ++ [FileName.ofText ".F.cover.sol"]))
  have hFile : u.find? ((["c"] : Location) ++ [] ++ [FileName.ofText ".F.cover.sol"]) =
      some (.file [121]) := by decide +kernel
  have hFound : p ∈ shadows := by
    have hRoots : ∀ root ∈ [(⟨slashed k, []⟩ : SourceRoot)],
        (u.directory? [] root.path).isSome := by
      simp [hRoot']
    exact (mem_shadowsOf hPlain'.wellFormed hRoots hShadows p).2 ⟨_, List.mem_cons_self,
      (["c"] : Location) ++ [], ".F.cover.sol", [121],
      ⟨["c"], [], hRoot', rfl, rfl, by decide +kernel⟩, hFile⟩
  have hLong : pathLimit ≤ p.bytes.length := by
    have hLength : p.bytes.length = k + 14 :=
      length_slashed_join k (show IsName ".F.cover.sol" by decide)
    rw [hLength, pathLimit]
    omega
  obtain ⟨e, hError⟩ := removeAll_error (by decide)
    ((leadsTo_join hPlain' hRoot' hFile).remove_long hLong) hFound u
  rw [hRemoved] at hError
  cases hError

end CoverRun.Shadow

import CoverRun.Proofs.FileTree
import CoverRun.Proofs.Plan
import Mathlib.Data.List.Nodup
import Mathlib.Data.List.Pairwise

/-!
# Selections as partitions

A selection holds each source of each root once (`Selection.ofRoots_spec`). Whether two roots share
a source is a question of their paths: they do exactly if one root lies between the other and one of
its sources (`Selection.Between`).
-/

namespace CoverRun.Selection

open Outcome CoverRun.Path FileTree

/-! ## Sources of one root -/

/-- The content of an entry that is a source, with its names. -/
def source? (extensions : List String) (e : Location × Entry) : Option (Location × Bytes) :=
  match e.2 with
  | .file content => if isSource extensions e.1 then some (e.1, content) else none
  | _ => none

/-- The contents of the sources below a directory, each with its names from there. -/
def sourcesBelow (t : FileTree) (extensions : List String) (loc : Location) :
    List (Location × Bytes) :=
  (t.below loc).filterMap (source? extensions)

theorem source?_eq_some_iff {extensions : List String} {e : Location × Entry} {names : Location}
    {content : Bytes} : source? extensions e = some (names, content) ↔
      e = (names, .file content) ∧ isSource extensions names = true := by
  obtain ⟨names', entry⟩ := e
  cases entry with
  | directory => simp [source?]
  | link target => simp [source?]
  | file content' =>
      simp only [source?, Option.ite_none_right_eq_some, Option.some.injEq, Prod.mk.injEq,
        Entry.file.injEq]
      constructor
      · rintro ⟨hSource, rfl, rfl⟩
        exact ⟨⟨rfl, rfl⟩, hSource⟩
      · rintro ⟨⟨rfl, rfl⟩, hSource⟩
        exact ⟨hSource, rfl, rfl⟩

theorem mem_sourcesBelow {t : FileTree} {extensions : List String} {loc names : Location}
    {content : Bytes} :
    (names, content) ∈ sourcesBelow t extensions loc ↔
      (loc ++ names, .file content) ∈ t.entries.entries ∧ isSource extensions names = true := by
  rw [sourcesBelow, List.mem_filterMap]
  constructor
  · rintro ⟨e, hMem, hSource⟩
    obtain ⟨rfl, hIs⟩ := source?_eq_some_iff.1 hSource
    exact ⟨(mem_below.1 hMem).2, hIs⟩
  · rintro ⟨hMem, hSource⟩
    refine ⟨(names, .file content), mem_below.2 ⟨?_, hMem⟩, source?_eq_some_iff.2 ⟨rfl, hSource⟩⟩
    rintro rfl
    simp [isSource] at hSource

/-- What relates the names of entries relates those of the sources among them. -/
theorem pairwise_sourcesBelow_of_below {r : Location → Location → Prop} {t : FileTree}
    {loc : Location} (h : (t.below loc).Pairwise fun e e' => r e.1 e'.1)
    (extensions : List String) :
    (sourcesBelow t extensions loc).Pairwise fun e e' => r e.1 e'.1 := by
  refine List.Pairwise.filterMap _ (fun e e' hr s hs s' hs' => ?_) h
  obtain ⟨rfl, -⟩ := source?_eq_some_iff.1 hs
  obtain ⟨rfl, -⟩ := source?_eq_some_iff.1 hs'
  exact hr

theorem nodup_sourcesBelow (t : FileTree) (extensions : List String) (loc : Location) :
    ((sourcesBelow t extensions loc).map (·.1)).Nodup := by
  have hNodup := nodup_below t loc
  rw [List.Nodup, List.pairwise_map] at hNodup ⊢
  exact pairwise_sourcesBelow_of_below hNodup extensions

theorem isSource_of_append {extensions : List String} {before after : Location}
    (h : isSource extensions (before ++ after) = true) (hne : after ≠ []) :
    isSource extensions after = true := by
  obtain ⟨n, hLast⟩ := Option.isSome_iff_exists.1 (List.getLast?_isSome.2 hne)
  simp only [isSource, isVisible, Bool.and_eq_true, List.all_append, List.getLast?_append, hLast,
    Option.some_or] at h ⊢
  exact ⟨h.1.2, h.2⟩

/-- The components of the paths of a root's sources. -/
def sourcePaths (t : FileTree) (cwd : Location) (extensions : List String) (root : Path) :
    List (List Component) :=
  match t.directory? cwd root with
  | none => []
  | some loc => (sourcesBelow t extensions loc).map fun e => root.components ++ e.1.map .name

theorem nodup_sourcePaths (t : FileTree) (cwd : Location) (extensions : List String)
    (root : Path) : (sourcePaths t cwd extensions root).Nodup := by
  rw [sourcePaths]
  split
  · exact List.nodup_nil
  · next loc _ =>
    have hNodup := nodup_sourcesBelow t extensions loc
    rw [List.Nodup, List.pairwise_map] at hNodup ⊢
    exact hNodup.imp fun hne hEq => hne (map_name_injective (List.append_cancel_left hEq))

theorem mem_sourcePaths {t : FileTree} {cwd : Location} {extensions : List String} {root : Path}
    {cs : List Component} :
    cs ∈ sourcePaths t cwd extensions root ↔ ∃ loc names content,
      t.directory? cwd root = some loc ∧ (loc ++ names, .file content) ∈ t.entries.entries ∧
        isSource extensions names = true ∧ cs = root.components ++ names.map .name := by
  rw [sourcePaths]
  constructor
  · intro h
    split at h
    · cases h
    · next loc hLoc =>
      obtain ⟨⟨names, content⟩, hMem, rfl⟩ := List.mem_map.1 h
      obtain ⟨hEntry, hSource⟩ := mem_sourcesBelow.1 hMem
      exact ⟨loc, names, content, hLoc, hEntry, hSource, rfl⟩
  · rintro ⟨loc, names, content, hLoc, hEntry, hSource, rfl⟩
    rw [hLoc]
    exact List.mem_map.2 ⟨(names, content), mem_sourcesBelow.2 ⟨hEntry, hSource⟩, rfl⟩

theorem readSource_eq_ok_iff {root : Path} {names : Location} {content : Bytes} {f : SourceFile} :
    readSource root names content = .ok f ↔
      isTooLong (root.join (ofNames names)) = false ∧ f.root = root ∧ f.relative = ofNames names ∧
        Utf8.decode? content = some f.source := by
  obtain ⟨root', relative, source⟩ := f
  rw [readSource]
  cases isTooLong (root.join (ofNames names)) with
  | true => simp
  | false => cases Utf8.decode? content <;> simp [eq_comm]

/-- A visit succeeds if a directory that counts can be listed, and comes to the source that the
entry is, if it can be read. -/
theorem visit_eq_ok_iff {extensions : List String} {root : Path} {e : Location × Entry}
    {result : Option SourceFile} : visit extensions root e = .ok result ↔
      (∀ names, e = (names, .directory) → isVisible names = true →
        listDirectory root names = .ok ()) ∧
        match source? extensions e with
        | none => result = none
        | some s => ∃ f, readSource root s.1 s.2 = .ok f ∧ result = some f := by
  obtain ⟨names, entry⟩ := e
  cases entry with
  | directory =>
      cases hVisible : isVisible names with
      | false => simp [visit, source?, hVisible, eq_comm (b := result)]
      | true =>
          cases hList : listDirectory root names with
          | error error => simp [visit, source?, hVisible, hList, Except.map]
          | ok done => simp [visit, source?, hVisible, hList, Except.map, eq_comm (b := result)]
  | link target => simp [visit, source?, eq_comm (b := result)]
  | file content =>
      cases hSource : isSource extensions names with
      | false => simp [visit, source?, hSource, eq_comm (b := result)]
      | true =>
          cases hRead : readSource root names content with
          | error error => simp [visit, source?, hSource, hRead, Except.map]
          | ok f => simp [visit, source?, hSource, hRead, Except.map, eq_comm (b := result)]

/-- **Visiting entries lists the directories that count and reads the sources.** -/
theorem visitAll_eq_ok_iff {extensions : List String} {root : Path} {es : List (Location × Entry)}
    {files : List SourceFile} : visitAll (visit extensions root) es = .ok files ↔
      (∀ names, (names, .directory) ∈ es → isVisible names = true →
        listDirectory root names = .ok ()) ∧
        (es.filterMap (source? extensions)).mapM (fun e => readSource root e.1 e.2) =
          .ok files := by
  induction es generalizing files with
  | nil => simp [visitAll, pure, Except.pure]
  | cons e es ih =>
      simp only [visitAll_cons_eq_ok_iff, visit_eq_ok_iff, ih, List.mem_cons]
      cases hSource : source? extensions e with
      | none =>
          rw [List.filterMap_cons_none hSource]
          constructor
          · rintro ⟨_, later, ⟨hHere, rfl⟩, ⟨hDirectories, hLater⟩, rfl⟩
            refine ⟨fun names hMem => ?_, hLater⟩
            exact hMem.elim (fun hEq => hHere names hEq.symm) (hDirectories names)
          · rintro ⟨hDirectories, hLater⟩
            exact ⟨none, files, ⟨fun names hEq => hDirectories names (Or.inl hEq.symm), rfl⟩,
              ⟨fun names hMem => hDirectories names (Or.inr hMem), hLater⟩, rfl⟩
      | some s =>
          rw [List.filterMap_cons_some hSource, List.mapM_cons]
          constructor
          · rintro ⟨_, later, ⟨hHere, f, hRead, rfl⟩, ⟨hDirectories, hLater⟩, rfl⟩
            refine ⟨fun names hMem => ?_, by rw [hRead, hLater]; rfl⟩
            exact hMem.elim (fun hEq => hHere names hEq.symm) (hDirectories names)
          · rintro ⟨hDirectories, hAll⟩
            obtain ⟨f, hRead, hRest⟩ := bind_eq_ok_iff.1 hAll
            obtain ⟨later, hLater, hEq⟩ := bind_eq_ok_iff.1 hRest
            obtain rfl := Except.ok.inj hEq
            exact ⟨some f, later,
              ⟨fun names hEq => hDirectories names (Or.inl hEq.symm), f, hRead, rfl⟩,
              ⟨fun names hMem => hDirectories names (Or.inr hMem), hLater⟩, rfl⟩

theorem discover_eq_ok_iff {t : FileTree} {cwd : Location} {extensions : List String} {root : Path}
    {files : List SourceFile} :
    discover t cwd extensions root = .ok files ↔ ∃ loc, t.directory? cwd root = some loc ∧
      (∀ names, (names, .directory) ∈ t.below loc → isVisible names = true →
        listDirectory root names = .ok ()) ∧
        (sourcesBelow t extensions loc).mapM (fun e => readSource root e.1 e.2) = .ok files := by
  rw [discover]
  cases t.directory? cwd root with
  | none => simp
  | some loc => simp only [visitAll_eq_ok_iff, Option.some.injEq, exists_eq_left', sourcesBelow]

theorem components_readSources {root : Path} (hBytes : root.bytes ≠ [])
    {es : List (Location × Bytes)} (hNames : ∀ e ∈ es, ∀ n ∈ e.1, IsName n)
    {files : List SourceFile}
    (h : List.Forall₂ (fun e f => readSource root e.1 e.2 = .ok f) es files) :
    files.map (·.path.components) = es.map fun e => root.components ++ e.1.map .name := by
  induction h with
  | nil => rfl
  | @cons e f es files hRead _ ih =>
      obtain ⟨-, hRoot, hRelative, -⟩ := readSource_eq_ok_iff.1 hRead
      have hPaths := ih fun e' he' => hNames e' (List.mem_cons_of_mem e he')
      have hHere := components_join_ofNames hBytes (hNames e List.mem_cons_self)
      rw [List.map_cons, List.map_cons, hPaths, SourceFile.path, hRoot, hRelative, hHere]

theorem root_of_discover {t : FileTree} {cwd : Location} {extensions : List String} {root : Path}
    {files : List SourceFile} (h : discover t cwd extensions root = .ok files) :
    ∀ f ∈ files, f.root = root := by
  intro f hf
  obtain ⟨loc, -, -, hRead⟩ := discover_eq_ok_iff.1 h
  obtain ⟨e, -, hSource⟩ := exists_of_mem_mapM hRead hf
  exact (readSource_eq_ok_iff.1 hSource).2.1

/-- What is discovered are the sources of the root, each under its path. -/
theorem discover_spec {t : FileTree} (hTree : t.WellFormed) {cwd : Location}
    {extensions : List String} {root : Path} {files : List SourceFile}
    (h : discover t cwd extensions root = .ok files) :
    (t.directory? cwd root).isSome ∧ (∀ f ∈ files, f.root = root) ∧
      files.map (·.path.components) = sourcePaths t cwd extensions root := by
  obtain ⟨loc, hLoc, -, hRead⟩ := discover_eq_ok_iff.1 h
  have hBytes : root.bytes ≠ [] := (walk_of_resolve (directory?_eq_some_iff.1 hLoc)).1
  have hNames : ∀ e ∈ sourcesBelow t extensions loc, ∀ n ∈ e.1, IsName n := fun e he n hn =>
    hTree.named _ (mem_sourcesBelow.1 he).1 n (List.mem_append_right loc hn)
  rw [sourcePaths, hLoc]
  exact ⟨rfl, root_of_discover h, components_readSources hBytes hNames (mapM_eq_ok_iff.1 hRead)⟩

/-! ## Sources of all roots -/

/-- All sources of a selection. -/
def all (sel : Selection) : List SourceFile := sel.instrument ++ sel.passThrough

theorem all_split_perm (root : SourceRoot) (files : List SourceFile) :
    (split root files).all.Perm files := by
  have hParts := List.filter_append_perm (fun f : SourceFile => !root.skips f.relative) files
  simpa only [all, split, Bool.not_not] using hParts

theorem all_append_perm (s s' : Selection) : (s.append s').all.Perm (s.all ++ s'.all) := by
  rw [all, all, all, append, List.append_assoc, List.append_assoc]
  refine List.Perm.append_left s.instrument ?_
  rw [← List.append_assoc, ← List.append_assoc]
  exact List.Perm.append_right _ List.perm_append_comm

/-- A selection holds what was found below each root, and nothing else. -/
theorem exists_found {t : FileTree} {cwd : Location} {extensions : List String}
    {roots : List SourceRoot} {sel : Selection} (h : ofRoots t cwd extensions roots = .ok sel) :
    ∃ found, List.Forall₂ (fun root files => discover t cwd extensions root.path = .ok files)
      roots found ∧ sel.all.Perm found.flatten := by
  induction roots generalizing sel with
  | nil =>
      obtain rfl := Except.ok.inj h
      exact ⟨[], .nil, .nil⟩
  | cons root roots ih =>
      obtain ⟨files, hFiles, hRest⟩ := bind_eq_ok_iff.1 h
      obtain ⟨rest, hSelected, hEq⟩ := bind_eq_ok_iff.1 hRest
      obtain rfl := Except.ok.inj hEq
      obtain ⟨found, hFound, hPerm⟩ := ih hSelected
      refine ⟨files :: found, .cons hFiles hFound, (all_append_perm _ _).trans ?_⟩
      exact (all_split_perm root files).append hPerm

theorem exists_root {t : FileTree} {cwd : Location} {extensions : List String}
    {roots : List SourceRoot} {sel : Selection} (h : ofRoots t cwd extensions roots = .ok sel)
    {f : SourceFile} (hf : f ∈ sel.all) :
    ∃ root ∈ roots, ∃ files, discover t cwd extensions root.path = .ok files ∧ f ∈ files := by
  obtain ⟨found, hFound, hPerm⟩ := exists_found h
  obtain ⟨files, hFiles, hMem⟩ := List.mem_flatten.1 (hPerm.mem_iff.1 hf)
  obtain ⟨root, hRoot, hDiscovered⟩ := exists_of_mem_forall₂ hFound hFiles
  exact ⟨root, hRoot, files, hDiscovered, hMem⟩

theorem exists_files {t : FileTree} {cwd : Location} {extensions : List String}
    {roots : List SourceRoot} {sel : Selection} (h : ofRoots t cwd extensions roots = .ok sel)
    {root : SourceRoot} (hRoot : root ∈ roots) :
    ∃ files, discover t cwd extensions root.path = .ok files ∧ ∀ f ∈ files, f ∈ sel.all := by
  obtain ⟨found, hFound, hPerm⟩ := exists_found h
  obtain ⟨files, hFiles, hDiscovered⟩ := exists_of_mem_forall₂ hFound.flip hRoot
  exact ⟨files, hDiscovered, fun f hf => hPerm.mem_iff.2 (List.mem_flatten_of_mem hFiles hf)⟩

/-- A selection holds the sources of each root, and nothing else. -/
theorem ofRoots_spec {t : FileTree} (hTree : t.WellFormed) {cwd : Location}
    {extensions : List String} {roots : List SourceRoot} {sel : Selection}
    (h : ofRoots t cwd extensions roots = .ok sel) :
    (∀ root ∈ roots, (t.directory? cwd root.path).isSome) ∧
      (∀ f ∈ sel.all, ∃ root ∈ roots, f.root = root.path ∧
        f.path.components ∈ sourcePaths t cwd extensions root.path) ∧
      (∀ root ∈ roots, ∀ cs ∈ sourcePaths t cwd extensions root.path,
        ∃ f ∈ sel.all, f.root = root.path ∧ f.path.components = cs) ∧
      (sel.all.map (·.path.components)).Perm
        (roots.flatMap fun root => sourcePaths t cwd extensions root.path) := by
  refine ⟨fun root hRoot => ?_, fun f hf => ?_, fun root hRoot cs hcs => ?_, ?_⟩
  · obtain ⟨files, hFiles, -⟩ := exists_files h hRoot
    exact (discover_spec hTree hFiles).1
  · obtain ⟨root, hRoot, files, hFiles, hMem⟩ := exists_root h hf
    obtain ⟨-, hSame, hPaths⟩ := discover_spec hTree hFiles
    refine ⟨root, hRoot, hSame f hMem, ?_⟩
    rw [← hPaths]
    exact List.mem_map_of_mem hMem
  · obtain ⟨files, hFiles, hAll⟩ := exists_files h hRoot
    obtain ⟨-, hSame, hPaths⟩ := discover_spec hTree hFiles
    rw [← hPaths] at hcs
    obtain ⟨f, hf, rfl⟩ := List.mem_map.1 hcs
    exact ⟨f, hAll f hf, hSame f hf, rfl⟩
  · obtain ⟨found, hFound, hPerm⟩ := exists_found h
    have hPaths : List.Forall₂ (· = ·) (found.map (List.map (·.path.components)))
        (roots.map fun root => sourcePaths t cwd extensions root.path) := by
      rw [List.forall₂_map_left_iff, List.forall₂_map_right_iff]
      exact hFound.flip.imp fun _ _ hFiles => (discover_spec hTree hFiles).2.2
    rw [List.forall₂_eq_eq_eq] at hPaths
    rw [List.flatMap_def, ← hPaths, ← List.map_flatten]
    exact hPerm.map _

/-! ## Nested roots -/

/-- A root lies between another root and a source of that one. -/
structure Between (outer inner : SourceRoot) (f : SourceFile) : Prop where
  source : f.root = outer.path
  below : outer.path.components <+: inner.path.components
  proper : outer.path.components ≠ inner.path.components
  above : inner.path.components <+: f.path.components
  strict : inner.path.components ≠ f.path.components

/-- A source of a root is a source of each root on the way to it. -/
theorem mem_sourcePaths_of_prefix {t : FileTree} (hTree : t.WellFormed) {cwd : Location}
    {extensions : List String} {outer inner : Path}
    (hOuter : ofComponents outer.components = outer)
    (hInner : ofComponents inner.components = inner)
    (hDirectory : (t.directory? cwd inner).isSome) {cs : List Component}
    (hcs : cs ∈ sourcePaths t cwd extensions outer) (hBelow : outer.components <+: inner.components)
    (hAbove : inner.components <+: cs) (hStrict : inner.components ≠ cs) :
    cs ∈ sourcePaths t cwd extensions inner := by
  obtain ⟨loc, names, content, hLoc, hEntry, hSource, rfl⟩ := mem_sourcePaths.1 hcs
  obtain ⟨ds, hDs⟩ := hBelow
  rw [← hDs, List.prefix_append_right_inj] at hAbove
  obtain ⟨before, ⟨after, rfl⟩, rfl⟩ := List.prefix_map_iff.1 hAbove
  have hAfter : after ≠ [] := by
    rintro rfl
    rw [List.append_nil] at hStrict
    exact hStrict hDs.symm
  have hNames : ∀ n ∈ before, IsName n := fun n hn =>
    hTree.named _ hEntry n (List.mem_append_right loc (List.mem_append_left after hn))
  have hDirectories : ∀ front back, before = front ++ back → front ≠ [] →
      t.find? (loc ++ front) = some .directory := by
    rintro front back rfl -
    have hFind := (find?_eq_some_iff (by simp [hAfter])).2 hEntry
    rw [List.append_assoc, ← List.append_assoc loc] at hFind
    exact hTree.rooted.find?_of_append (by simp [hAfter]) hFind
  obtain ⟨loc', hLoc'⟩ := Option.isSome_iff_exists.1 hDirectory
  have hPath : inner = ofComponents (outer.components ++ before.map .name) := by rw [hDs, hInner]
  rw [← hOuter] at hLoc
  rw [hPath] at hLoc'
  have hPlace := directory?_append (isWritten_components outer) hNames hLoc hLoc' hDirectories
  refine mem_sourcePaths.2
    ⟨loc', after, content, hPath ▸ hLoc', ?_, isSource_of_append hSource hAfter, ?_⟩
  · rw [hPlace, List.append_assoc]
    exact hEntry
  · rw [← hDs, List.map_append, List.append_assoc]

theorem between_of_shared {t : FileTree} {cwd : Location} {extensions : List String}
    {outer inner : SourceRoot} {f : SourceFile} (hRoot : f.root = outer.path)
    (hInner : f.path.components ∈ sourcePaths t cwd extensions inner.path)
    (hBelow : outer.path.components <+: inner.path.components)
    (hProper : outer.path.components ≠ inner.path.components) : Between outer inner f := by
  obtain ⟨-, names, -, -, -, hSource, hPath⟩ := mem_sourcePaths.1 hInner
  refine ⟨hRoot, hBelow, hProper, hPath ▸ List.prefix_append _ _, fun hEq => ?_⟩
  rw [hPath] at hEq
  have hEmpty : names = [] := by simpa using hEq
  subst hEmpty
  simp [isSource] at hSource

/-- **Sources are shared exactly by nested roots.** Of the roots that accepted settings name, in any
order and with any skip entries, a selection holds each path once, to instrument or to pass through,
exactly if no root lies between another root and one of its sources. -/
theorem nodup_iff_not_between {project : Path} {s : Settings} {o : Overrides} {plan : Plan}
    (hPlan : Plan.ofSettings project s o = .ok plan) {t : FileTree} (hTree : t.WellFormed)
    {cwd : Location} {sel : Selection}
    (hSelected : ofRoots t cwd plan.extensions plan.roots = .ok sel) :
    ((sel.instrument ++ sel.passThrough).map (·.path.components)).Nodup ↔
      ∀ outer ∈ plan.roots, ∀ inner ∈ plan.roots, ∀ f ∈ sel.instrument ++ sel.passThrough,
        ¬ Between outer inner f := by
  have hAccepts := Plan.ofSettings_eq_ok_iff.1 hPlan
  obtain ⟨hDirectories, hSound, hComplete, hPerm⟩ := ofRoots_spec hTree hSelected
  change (sel.all.map (·.path.components)).Nodup ↔ ∀ outer ∈ plan.roots, ∀ inner ∈ plan.roots,
    ∀ f ∈ sel.all, ¬ Between outer inner f
  rw [hPerm.nodup_iff, List.nodup_flatMap]
  constructor
  · rintro ⟨-, hDisjoint⟩ outer hOuter inner hInner f hf hBetween
    obtain ⟨root, -, hRoot, hcs⟩ := hSound f hf
    rw [← hRoot, hBetween.source] at hcs
    have hShared := mem_sourcePaths_of_prefix hTree (hAccepts.ofComponents_root hOuter)
      (hAccepts.ofComponents_root hInner) (hDirectories inner hInner) hcs hBetween.below
      hBetween.above hBetween.strict
    have hne : outer ≠ inner := fun hEq => hBetween.proper (hEq ▸ rfl)
    have : Std.Symm (Function.onFun List.Disjoint fun root : SourceRoot =>
        sourcePaths t cwd plan.extensions root.path) := ⟨fun _ _ h cs hcs hcs' => h hcs' hcs⟩
    exact hDisjoint.forall hOuter hInner hne hcs hShared
  · intro hApart
    refine ⟨fun root _ => nodup_sourcePaths t cwd plan.extensions root.path, ?_⟩
    refine hAccepts.pairwise_roots.imp_of_mem fun {a b} ha hb hne cs hcs hcs' => ?_
    have hNested : a.path.components <+: b.path.components ∨
        b.path.components <+: a.path.components := by
      obtain ⟨-, names, -, -, -, -, hPath⟩ := mem_sourcePaths.1 hcs
      obtain ⟨-, names', -, -, -, -, hPath'⟩ := mem_sourcePaths.1 hcs'
      exact List.prefix_or_prefix_of_prefix (hPath ▸ List.prefix_append _ _)
        (hPath' ▸ List.prefix_append _ _)
    rcases hNested with hBelow | hBelow
    · obtain ⟨f, hf, hRoot, rfl⟩ := hComplete a ha cs hcs
      exact hApart a ha b hb f hf (between_of_shared hRoot hcs' hBelow hne)
    · obtain ⟨f, hf, hRoot, rfl⟩ := hComplete b hb cs hcs'
      exact hApart b hb a ha f hf (between_of_shared hRoot hcs hBelow hne.symm)

/-- With one root inside another, a skip entry of the outer root passes a source through that the
inner root has instrumented. -/
theorem nodup_iff_not_between_nested :
    let t : FileTree := ⟨OrderedMap.ofList [(["p"], .directory), (["p", "contracts"], .directory),
      (["p", "contracts", "lib"], .directory), (["p", "contracts", "lib", "L.sol"], .file [])]⟩
    let s : Settings :=
      { Settings.standard with roots := [⟨"contracts", ["lib"]⟩, ⟨"contracts/lib", []⟩] }
    let sel : Selection :=
      ⟨[⟨"/p/contracts/lib", "L.sol", ""⟩], [⟨"/p/contracts", "lib/L.sol", ""⟩]⟩
    ∃ plan, Plan.ofSettings "/p" s .none = .ok plan ∧ t.WellFormed ∧
      ofRoots t [] plan.extensions plan.roots = .ok sel ∧
      ¬ ((sel.instrument ++ sel.passThrough).map (·.path.components)).Nodup := by
  intro t s sel
  have hTree : t.WellFormed := ⟨by unfold Rooted; decide +kernel, by decide +kernel⟩
  have hOuter : t.directory? [] "/p/contracts" = some (["p", "contracts"] : Location) := by
    have hNames : namesOf "/p/contracts" = (["p", "contracts"] : Location) := by decide +kernel
    rw [directory?_eq_some_iff, resolve, if_neg (by decide), if_neg (by decide), if_neg (by decide),
      hNames, walk_directory ⟨by decide, by decide, by decide⟩ (by decide +kernel),
      walk_directory ⟨by decide, by decide, by decide⟩ (by decide +kernel), walk]
    rfl
  have hInner : t.directory? [] "/p/contracts/lib" =
      some (["p", "contracts", "lib"] : Location) := by
    have hNames : namesOf "/p/contracts/lib" = (["p", "contracts", "lib"] : Location) := by
      decide +kernel
    rw [directory?_eq_some_iff, resolve, if_neg (by decide), if_neg (by decide), if_neg (by decide),
      hNames, walk_directory ⟨by decide, by decide, by decide⟩ (by decide +kernel),
      walk_directory ⟨by decide, by decide, by decide⟩ (by decide +kernel),
      walk_directory ⟨by decide, by decide, by decide⟩ (by decide +kernel), walk]
    rfl
  let outer : SourceRoot := ⟨"/p/contracts", [⟨"lib", ["lib"], none⟩]⟩
  let inner : SourceRoot := ⟨"/p/contracts/lib", []⟩
  have hOk : ((Plan.ofSettings "/p" s .none).toOption.map fun plan =>
      (plan.extensions, plan.roots)) = some (["sol"], [outer, inner]) := by decide +kernel
  have hSelected : ofRoots t [] ["sol"] [outer, inner] = .ok sel := by
    rw [ofRoots, ofRoots, ofRoots, discover, hOuter, discover, hInner]
    decide +kernel
  cases hPlan : Plan.ofSettings "/p" s .none with
  | error e => rw [hPlan] at hOk; cases hOk
  | ok plan =>
      rw [hPlan] at hOk
      obtain ⟨hExtensions, hRoots⟩ := Prod.mk.inj (Option.some.inj hOk)
      have hPlanned : ofRoots t [] plan.extensions plan.roots = .ok sel := by
        rw [hExtensions, hRoots, hSelected]
      refine ⟨plan, rfl, hTree, hPlanned, ?_⟩
      rw [nodup_iff_not_between hPlan hTree hPlanned, hRoots]
      intro hApart
      refine hApart outer (by simp) inner (by simp) ⟨outer.path, "lib/L.sol", ""⟩
        (by simp [sel, outer]) ?_
      exact ⟨rfl, by decide +kernel, by decide +kernel, by decide +kernel, by decide +kernel⟩

end CoverRun.Selection

import CoverRun.Proofs.Selection

/-!
# Targets of a selection

The sources to instrument are, root by root, those that the root does not skip
(`Selection.instrument_eq`). Under accepted settings their paths are written plainly, so that two of
them are the same exactly if they have the same components, and none comes twice exactly if a root
between another root and one of its targets skips it (`Selection.nodup_paths_iff_skips`).
-/

namespace CoverRun.Selection

open Outcome CoverRun.Path FileTree

/-! ## Targets of one root -/

/-- The names of the sources of a root that it does not skip. -/
def targetNames (t : FileTree) (cwd : Location) (extensions : List String) (root : SourceRoot) :
    List Location :=
  match t.directory? cwd root.path with
  | none => []
  | some loc =>
    ((sourcesBelow t extensions loc).map (·.1)).filter fun names => !root.skips (ofNames names)

/-- The components of the paths of the targets of a root. -/
def targetPaths (t : FileTree) (cwd : Location) (extensions : List String) (root : SourceRoot) :
    List (List Component) :=
  (targetNames t cwd extensions root).map fun names => root.path.components ++ names.map .name

/-- A root skips a path that goes on from it. -/
def Skips (root : SourceRoot) (p : Path) : Prop :=
  ∃ names, p.components = root.path.components ++ names.map .name ∧
    root.skips (ofNames names) = true

section

variable {t : FileTree} {cwd : Location} {extensions : List String} {root : SourceRoot}

theorem mem_targetNames {names : Location} :
    names ∈ targetNames t cwd extensions root ↔ ∃ loc content,
      t.directory? cwd root.path = some loc ∧ (loc ++ names, .file content) ∈ t.entries.entries ∧
        isSource extensions names = true ∧ root.skips (ofNames names) = false := by
  rw [targetNames]
  constructor
  · intro h
    split at h
    · cases h
    · next loc hLoc =>
      obtain ⟨hMem, hKept⟩ := List.mem_filter.1 h
      obtain ⟨⟨_, content⟩, hSource, rfl⟩ := List.mem_map.1 hMem
      obtain ⟨hEntry, hIs⟩ := mem_sourcesBelow.1 hSource
      exact ⟨loc, content, hLoc, hEntry, hIs, by simpa using hKept⟩
  · rintro ⟨loc, content, hLoc, hEntry, hIs, hKept⟩
    rw [hLoc]
    have hMem : (names, content) ∈ sourcesBelow t extensions loc :=
      mem_sourcesBelow.2 ⟨hEntry, hIs⟩
    exact List.mem_filter.2 ⟨List.mem_map.2 ⟨_, hMem, rfl⟩, by simp [hKept]⟩

/-- The names of a target are names, and there is one. -/
theorem isName_of_mem_targetNames (hTree : t.WellFormed) {names : Location}
    (h : names ∈ targetNames t cwd extensions root) : (∀ n ∈ names, IsName n) ∧ names ≠ [] := by
  obtain ⟨loc, content, -, hEntry, hIs, -⟩ := mem_targetNames.1 h
  refine ⟨fun n hn => hTree.named _ hEntry n (List.mem_append_right loc hn), ?_⟩
  rintro rfl
  simp [isSource] at hIs

theorem nodup_targetPaths (t : FileTree) (cwd : Location) (extensions : List String)
    (root : SourceRoot) : (targetPaths t cwd extensions root).Nodup := by
  have hInjective : Function.Injective fun names : Location =>
      root.path.components ++ names.map .name :=
    fun _ _ h => map_name_injective (List.append_cancel_left h)
  refine List.Nodup.map hInjective ?_
  rw [targetNames]
  split
  · exact List.nodup_nil
  · next loc _ => exact (nodup_sourcesBelow t extensions loc).filter _

theorem mem_targetPaths {p : Path} :
    p.components ∈ targetPaths t cwd extensions root ↔
      p.components ∈ sourcePaths t cwd extensions root.path ∧ ¬ Skips root p := by
  rw [targetPaths, List.mem_map, mem_sourcePaths]
  constructor
  · rintro ⟨names, hNames, hPath⟩
    obtain ⟨loc, content, hLoc, hEntry, hIs, hKept⟩ := mem_targetNames.1 hNames
    refine ⟨⟨loc, names, content, hLoc, hEntry, hIs, hPath.symm⟩, ?_⟩
    rintro ⟨names', hPath', hSkipped⟩
    have hSame : names' = names :=
      map_name_injective (List.append_cancel_left (hPath'.symm.trans hPath.symm))
    rw [hSame, hKept] at hSkipped
    cases hSkipped
  · rintro ⟨⟨loc, names, content, hLoc, hEntry, hIs, hPath⟩, hKept⟩
    have hNot : root.skips (ofNames names) = false := by
      rw [← Bool.not_eq_true]
      exact fun hSkipped => hKept ⟨names, hPath, hSkipped⟩
    exact ⟨names, mem_targetNames.2 ⟨loc, content, hLoc, hEntry, hIs, hNot⟩, hPath.symm⟩

end

/-! ## Targets of all roots -/

theorem map_filter_readSources {root : SourceRoot} {es : List (Location × Bytes)}
    {files : List SourceFile}
    (h : List.Forall₂ (fun e f => readSource root.path e.1 e.2 = .ok f) es files) :
    (files.filter fun f => !root.skips f.relative).map (fun f => (f.root, f.relative)) =
      ((es.map (·.1)).filter fun names => !root.skips (ofNames names)).map fun names =>
        (root.path, ofNames names) := by
  induction h with
  | nil => rfl
  | cons hRead _ ih =>
      obtain ⟨-, hRoot, hRelative, -⟩ := readSource_eq_ok_iff.1 hRead
      rw [List.map_cons, List.filter_cons, List.filter_cons, hRelative]
      split
      · rw [List.map_cons, List.map_cons, ih, hRoot, hRelative]
      · exact ih

/-- **What is instrumented**, root by root. -/
theorem instrument_eq {t : FileTree} {cwd : Location} {extensions : List String}
    {roots : List SourceRoot} {sel : Selection} (h : ofRoots t cwd extensions roots = .ok sel) :
    sel.instrument.map (fun f => (f.root, f.relative)) = roots.flatMap fun root =>
      (targetNames t cwd extensions root).map fun names => (root.path, ofNames names) := by
  induction roots generalizing sel with
  | nil =>
      cases h
      rfl
  | cons root roots ih =>
      obtain ⟨files, hFiles, hRest⟩ := bind_eq_ok_iff.1 h
      obtain ⟨rest, hSelected, hEq⟩ := bind_eq_ok_iff.1 hRest
      obtain rfl := Except.ok.inj hEq
      have hHere : (files.filter fun f => !root.skips f.relative).map
          (fun f => (f.root, f.relative)) =
            (targetNames t cwd extensions root).map fun names => (root.path, ofNames names) := by
        obtain ⟨loc, hLoc, -, hRead⟩ := discover_eq_ok_iff.1 hFiles
        rw [targetNames, hLoc]
        exact map_filter_readSources (mapM_eq_ok_iff.1 hRead)
      rw [List.flatMap_cons, ← ih hSelected, ← hHere]
      exact List.map_append

section

variable {t : FileTree} {cwd : Location} {extensions : List String} {roots : List SourceRoot}
  {sel : Selection}

theorem path_of_mem_targetNames (hTree : t.WellFormed) {root : SourceRoot} {names : Location}
    (hNames : names ∈ targetNames t cwd extensions root) :
    (root.path.join (ofNames names)).components = root.path.components ++ names.map .name ∧
      (ofComponents root.path.components = root.path →
        ofComponents (root.path.join (ofNames names)).components =
          root.path.join (ofNames names)) := by
  obtain ⟨loc, content, hLoc, -⟩ := mem_targetNames.1 hNames
  obtain ⟨hAre, hSome⟩ := isName_of_mem_targetNames hTree hNames
  have hBytes : root.path.bytes ≠ [] := (walk_of_resolve (directory?_eq_some_iff.1 hLoc)).1
  have hComponents := components_join_ofNames hBytes hAre
  refine ⟨hComponents, fun hWritten => ?_⟩
  have hne : root.path.components ≠ [] := by
    intro hEmpty
    rw [hEmpty] at hWritten
    exact hBytes (congrArg Path.bytes hWritten.symm)
  have hJoin := ofComponents_join_ofNames (isWritten_components root.path) hne hAre hSome
  rw [hComponents, ← hJoin, hWritten]

theorem map_components_instrument (hTree : t.WellFormed)
    (h : ofRoots t cwd extensions roots = .ok sel) :
    sel.instrument.map (fun f => (f.root, f.path.components)) = roots.flatMap fun root =>
      (targetPaths t cwd extensions root).map fun cs => (root.path, cs) := by
  have hJoined := congrArg (List.map fun q : Path × Path => (q.1, (q.1.join q.2).components))
    (instrument_eq h)
  rw [List.map_map, List.map_flatMap] at hJoined
  refine hJoined.trans (List.flatMap_congr fun root _ => ?_)
  rw [targetPaths, List.map_map, List.map_map]
  refine List.map_congr_left fun names hNames => ?_
  exact congrArg (Prod.mk root.path) (path_of_mem_targetNames hTree hNames).1

theorem exists_target_of_mem_instrument (hTree : t.WellFormed)
    (h : ofRoots t cwd extensions roots = .ok sel) {f : SourceFile} (hf : f ∈ sel.instrument) :
    ∃ root ∈ roots, f.root = root.path ∧
      f.path.components ∈ targetPaths t cwd extensions root := by
  have hMem := List.mem_map_of_mem (f := fun f : SourceFile => (f.root, f.path.components)) hf
  rw [map_components_instrument hTree h] at hMem
  obtain ⟨root, hRoot, hMem⟩ := List.mem_flatMap.1 hMem
  obtain ⟨cs, hcs, hPair⟩ := List.mem_map.1 hMem
  obtain ⟨hSame, hPath⟩ := Prod.mk.inj hPair
  exact ⟨root, hRoot, hSame.symm, hPath ▸ hcs⟩

theorem exists_mem_instrument_of_target (hTree : t.WellFormed)
    (h : ofRoots t cwd extensions roots = .ok sel) {root : SourceRoot} (hRoot : root ∈ roots)
    {cs : List Component} (hcs : cs ∈ targetPaths t cwd extensions root) :
    ∃ f ∈ sel.instrument, f.root = root.path ∧ f.path.components = cs := by
  have hMem : (root.path, cs) ∈ roots.flatMap fun root =>
      (targetPaths t cwd extensions root).map fun cs => (root.path, cs) :=
    List.mem_flatMap.2 ⟨root, hRoot, List.mem_map_of_mem hcs⟩
  rw [← map_components_instrument hTree h] at hMem
  obtain ⟨f, hf, hPair⟩ := List.mem_map.1 hMem
  exact ⟨f, hf, Prod.mk.inj hPair⟩

theorem ofComponents_path (hTree : t.WellFormed)
    (hRoots : ∀ root ∈ roots, ofComponents root.path.components = root.path)
    (h : ofRoots t cwd extensions roots = .ok sel) {f : SourceFile} (hf : f ∈ sel.instrument) :
    ofComponents f.path.components = f.path := by
  have hMem := List.mem_map_of_mem (f := fun f : SourceFile => (f.root, f.relative)) hf
  rw [instrument_eq h] at hMem
  obtain ⟨root, hRoot, hMem⟩ := List.mem_flatMap.1 hMem
  obtain ⟨names, hNames, hPair⟩ := List.mem_map.1 hMem
  obtain ⟨hSame, hRelative⟩ := Prod.mk.inj hPair
  rw [SourceFile.path, ← hSame, ← hRelative]
  exact (path_of_mem_targetNames hTree hNames).2 (hRoots root hRoot)

/-- Plainly written paths are the same exactly if they have the same components. -/
theorem nodup_paths_iff (hTree : t.WellFormed)
    (hRoots : ∀ root ∈ roots, ofComponents root.path.components = root.path)
    (h : ofRoots t cwd extensions roots = .ok sel) :
    (sel.instrument.map (·.path)).Nodup ↔ (sel.instrument.map (·.path.components)).Nodup := by
  have hPaths : sel.instrument.map (·.path) =
      (sel.instrument.map (·.path.components)).map ofComponents := by
    rw [List.map_map]
    exact List.map_congr_left fun f hf => (ofComponents_path hTree hRoots h hf).symm
  rw [hPaths]
  refine ⟨List.Nodup.of_map _, List.Nodup.map_on ?_⟩
  intro cs hcs cs' hcs' hEq
  obtain ⟨f, -, rfl⟩ := List.mem_map.1 hcs
  obtain ⟨f', -, rfl⟩ := List.mem_map.1 hcs'
  rw [← components_ofComponents (isWritten_components f.path), hEq,
    components_ofComponents (isWritten_components f'.path)]

end

/-! ## Nested roots -/

theorem nested_of_shared {t : FileTree} {cwd : Location} {extensions : List String}
    {root root' : Path} {cs : List Component} (h : cs ∈ sourcePaths t cwd extensions root)
    (h' : cs ∈ sourcePaths t cwd extensions root') :
    root.components <+: root'.components ∨ root'.components <+: root.components := by
  obtain ⟨-, names, -, -, -, -, hPath⟩ := mem_sourcePaths.1 h
  obtain ⟨-, names', -, -, -, -, hPath'⟩ := mem_sourcePaths.1 h'
  have hFront : root.components <+: cs := hPath ▸ List.prefix_append _ _
  have hFront' : root'.components <+: cs := hPath' ▸ List.prefix_append _ _
  exact List.prefix_or_prefix_of_prefix hFront hFront'

/-- **No target comes twice exactly if roots between another root and one of its targets skip
it.** -/
theorem nodup_paths_iff_skips {project : Path} {s : Settings} {o : Overrides} {plan : Plan}
    (hPlan : Plan.ofSettings project s o = .ok plan) {t : FileTree} (hTree : t.WellFormed)
    {cwd : Location} {sel : Selection}
    (hSelected : ofRoots t cwd plan.extensions plan.roots = .ok sel) :
    (sel.instrument.map (·.path)).Nodup ↔
      ∀ outer ∈ plan.roots, ∀ inner ∈ plan.roots, ∀ f ∈ sel.instrument,
        Between outer inner f → Skips inner f.path := by
  have hAccepts := Plan.ofSettings_eq_ok_iff.1 hPlan
  have hRoots : ∀ root ∈ plan.roots, ofComponents root.path.components = root.path :=
    fun root => hAccepts.ofComponents_root
  obtain ⟨hDirectories, -, -, -⟩ := ofRoots_spec hTree hSelected
  have hPaths := congrArg (List.map Prod.snd) (map_components_instrument hTree hSelected)
  rw [List.map_map, List.map_flatMap] at hPaths
  rw [nodup_paths_iff hTree hRoots hSelected]
  have hTargets : sel.instrument.map (·.path.components) =
      plan.roots.flatMap (targetPaths t cwd plan.extensions) := by
    refine hPaths.trans (List.flatMap_congr fun root _ => ?_)
    rw [List.map_map]
    exact List.map_id _
  rw [hTargets, List.nodup_flatMap]
  constructor
  · rintro ⟨-, hDisjoint⟩ outer hOuter inner hInner f hf hBetween
    obtain ⟨root, hRoot, hSame, hcs⟩ := exists_target_of_mem_instrument hTree hSelected hf
    obtain ⟨hSource, hKept⟩ := mem_targetPaths.1 hcs
    rw [← hSame, hBetween.source] at hSource
    have hShared := mem_sourcePaths_of_prefix hTree (hRoots outer hOuter) (hRoots inner hInner)
      (hDirectories inner hInner) hSource hBetween.below hBetween.above hBetween.strict
    have hne : root ≠ inner := by
      rintro rfl
      exact hBetween.proper (by rw [← hBetween.source, hSame])
    have : Std.Symm (Function.onFun List.Disjoint (targetPaths t cwd plan.extensions)) :=
      ⟨fun _ _ h cs hcs hcs' => h hcs' hcs⟩
    by_contra hNot
    exact hDisjoint.forall hRoot hInner hne hcs (mem_targetPaths.2 ⟨hShared, hNot⟩)
  · intro hSkips
    refine ⟨fun root _ => nodup_targetPaths t cwd plan.extensions root, ?_⟩
    refine hAccepts.pairwise_roots.imp_of_mem fun {a b} ha hb hne cs hcs hcs' => ?_
    obtain ⟨f, hf, hRoot, rfl⟩ := exists_mem_instrument_of_target hTree hSelected ha hcs
    obtain ⟨g, hg, hRoot', hSame⟩ := exists_mem_instrument_of_target hTree hSelected hb hcs'
    obtain ⟨hSource, hKept⟩ := mem_targetPaths.1 hcs
    obtain ⟨hSource', hKept'⟩ := mem_targetPaths.1 hcs'
    rcases nested_of_shared hSource hSource' with hBelow | hBelow
    · exact hKept' (hSkips a ha b hb f hf (between_of_shared hRoot hSource' hBelow hne))
    · have hBetween : Between b a g :=
        between_of_shared hRoot' (hSame ▸ hSource) hBelow hne.symm
      obtain ⟨names, hPath, hSkipped⟩ := hSkips b hb a ha g hg hBetween
      exact hKept ⟨names, hSame ▸ hPath, hSkipped⟩

end CoverRun.Selection

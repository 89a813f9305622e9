import CoverRun.Instrumentation
import CoverRun.Proofs.FileTree.Plain
import CoverRun.Proofs.Selection.Discovery
import CoverRun.Proofs.Shadow.Place

/-!
# Shadows of selected sources

The shadow of a source stands beside it (`Shadow.place?_join`), so it lies below the root that the
source was selected from (`Shadow.exists_place_of_source`). It has the extension of the source, and
would be a source itself if it were not hidden (`Shadow.isSource_nameOf`). Nothing else changes when
the shadows of a selection are written (`Shadow.exists_source_of_changed`).
-/

namespace CoverRun

open CoverRun.Path FileTree Outcome

theorem Selection.exists_source {t : FileTree} {cwd : Location} {extensions : List String}
    {roots : List SourceRoot} {sel : Selection} (h : ofRoots t cwd extensions roots = .ok sel)
    {f : SourceFile} (hf : f ∈ sel.all) :
    ∃ root ∈ roots, ∃ base names content, t.directory? cwd root.path = some base ∧
      f.root = root.path ∧ f.relative = ofNames names ∧ Utf8.decode? content = some f.source ∧
      (base ++ names, .file content) ∈ t.entries.entries ∧ isSource extensions names = true := by
  obtain ⟨root, hRoot, files, hFiles, hMem⟩ := exists_root h hf
  obtain ⟨base, hBase, -, hSources⟩ := discover_eq_ok_iff.1 hFiles
  obtain ⟨⟨names, content⟩, hFound, hRead⟩ := exists_of_mem_mapM hSources hMem
  obtain ⟨-, hSame, hRelative, hText⟩ := readSource_eq_ok_iff.1 hRead
  obtain ⟨hEntry, hSource⟩ := mem_sourcesBelow.1 hFound
  exact ⟨root, hRoot, base, names, content, hBase, hSame, hRelative, hText, hEntry, hSource⟩

theorem Selection.exists_selected {t : FileTree} {cwd : Location} {extensions : List String}
    {roots : List SourceRoot} {sel : Selection} (h : ofRoots t cwd extensions roots = .ok sel)
    {root : SourceRoot} (hRoot : root ∈ roots) {base names : Location} {content : Bytes}
    (hBase : t.directory? cwd root.path = some base)
    (hEntry : (base ++ names, .file content) ∈ t.entries.entries)
    (hSource : isSource extensions names = true) :
    ∃ f ∈ sel.all, f.root = root.path ∧ f.relative = ofNames names ∧
      Utf8.decode? content = some f.source := by
  obtain ⟨files, hFiles, hAll⟩ := exists_files h hRoot
  obtain ⟨base', hBase', -, hSources⟩ := discover_eq_ok_iff.1 hFiles
  obtain rfl := Option.some.inj (hBase.symm.trans hBase')
  obtain ⟨f, hf, hRead⟩ := exists_of_mem_forall₂ (mapM_eq_ok_iff.1 hSources).flip
    (mem_sourcesBelow.2 ⟨hEntry, hSource⟩)
  obtain ⟨-, hSame, hRelative, hText⟩ := readSource_eq_ok_iff.1 hRead
  exact ⟨f, hAll f hf, hSame, hRelative, hText⟩

namespace Shadow

/-! ## Names -/

/-- **The shadow of a source has its extension.** -/
theorem isEligible_nameOf {extensions : List String} {name : FileName}
    (h : Selection.isEligible extensions name = true) :
    Selection.isEligible extensions (nameOf name) = true := by
  rw [Selection.isEligible_iff] at h ⊢
  obtain ⟨ext, hMem, hDotless, stem, hStem, hName⟩ := h
  refine ⟨ext, hMem, hDotless, dot :: stem ++ marker, by simp, ?_⟩
  rw [nameOf, nameBytes, hName,
    cutName_append hStem fun h => hDotless (Utf8.dot_mem_encode_iff.1 h)]

/-- A shadow that is not hidden is a source if the file beside it is. -/
theorem isSource_nameOf {extensions : List String} {names : Location} {name : FileName}
    (h : Selection.isSource extensions (names ++ [name]) = true) (hText : name.isText = false) :
    Selection.isSource extensions (names ++ [nameOf name]) = true := by
  simp only [Selection.isSource, List.getLast?_concat, Bool.and_eq_true] at h ⊢
  obtain ⟨hVisible, hEligible⟩ := h
  refine ⟨?_, isEligible_nameOf hEligible⟩
  simp only [Selection.isVisible, List.all_append, Bool.and_eq_true] at hVisible ⊢
  exact ⟨hVisible.1, by simp [isHidden_nameOf, hText]⟩

/-! ## Places -/

theorem components_join_concat {root : Path} (hRoot : root.bytes ≠ []) {names : Location}
    {name : FileName} (h : ∀ n ∈ names ++ [name], IsName n) :
    (root.join (ofNames (names ++ [name]))).components =
      root.components ++ names.map .name ++ [.name name] := by
  rw [components_join_ofNames hRoot h, List.map_append, ← List.append_assoc]
  rfl

/-- **The shadow of a source stands beside it.** -/
theorem place?_join {t : FileTree} (hPlain : t.Plain) {cwd dir : Location} {root : Path}
    (hDirectory : t.directory? cwd root = some dir) {names : Location} {name : FileName} {e : Entry}
    (hFind : t.find? (dir ++ names ++ [name]) = some e) :
    (root.join (ofNames (names ++ [name]))).fileName? = some name ∧
      place? t cwd (root.join (ofNames (names ++ [name]))) =
        some (dir ++ names ++ [nameOf name]) := by
  obtain ⟨hPassable, hWay⟩ := (directory?_iff_descend hPlain.noLinks).1 hDirectory
  have hNames : ∀ n ∈ names ++ [name], IsName n := fun n hn =>
    (hPlain.names hFind n (by rw [List.append_assoc]; exact List.mem_append_right dir hn)).1
  have hComponents := components_join_concat hPassable.nonempty hNames
  obtain ⟨parent, hParent, hBefore⟩ := exists_parent hComponents
  have hDown : descend t dir names = some (dir ++ names) :=
    descend_down hPlain.wellFormed.rooted (fun n hn => hPlain.isShort hFind n (by simp [hn]))
      (hPlain.wellFormed.rooted.find?_of_append (List.cons_ne_nil name []) hFind)
  have hParentWay : descend t (origin cwd parent) (namesOf parent) = some (dir ++ names) := by
    rw [descend_continued t cwd (components_ne_nil hPassable.nonempty) hBefore, hWay]
    exact hDown
  have hName := fileName?_of_components hComponents
  refine ⟨hName, ?_⟩
  obtain ⟨hShadowNames, hOrigin⟩ := namePath_way cwd (root.join (ofNames (names ++ [name])))
  rw [place?, hShadowNames, hOrigin, List.dropLast_concat, hParent, hName]
  exact congrArg (Option.map (· ++ [nameOf name])) hParentWay

theorem exists_place_of_source {t : FileTree} (hPlain : t.Plain) {cwd : Location}
    {extensions : List String} {roots : List SourceRoot} {sel : Selection}
    (hSelected : Selection.ofRoots t cwd extensions roots = .ok sel) {f : SourceFile}
    (hf : f ∈ sel.all) {loc : Location} (hPlace : place? t cwd f.path = some loc) :
    ∃ root ∈ roots, ∃ base names name, t.directory? cwd root.path = some base ∧
      loc = base ++ names ++ [nameOf name] ∧ f.path.fileName? = some name ∧
      (∀ n ∈ names ++ [name], IsName n) ∧
      Selection.isSource extensions (names ++ [name]) = true := by
  obtain ⟨root, hRoot, base, names, content, hBase, hSame, hRelative, -, hEntry, hSource⟩ :=
    Selection.exists_source hSelected hf
  have hne : names ≠ [] := by
    rintro rfl
    cases hSource
  obtain ⟨front, name, rfl⟩ := (List.eq_nil_or_concat' names).resolve_left hne
  have hFind : t.find? (base ++ front ++ [name]) = some (.file content) := by
    rw [← List.append_assoc] at hEntry
    exact (find?_eq_some_iff (by simp)).2 hEntry
  obtain ⟨hName, hBeside⟩ := place?_join hPlain hBase hFind
  rw [SourceFile.path, hSame, hRelative] at hPlace ⊢
  exact ⟨root, hRoot, base, front, name, hBase, Option.some.inj (hPlace.symm.trans hBeside), hName,
    fun n hn => hPlain.wellFormed.named _ hEntry n (List.mem_append_right base hn), hSource⟩

theorem exists_mem_all {sel : Selection} {files : List InstrumentedFile}
    (hFiles : files.map (·.file) = sel.instrument) {s : ShadowText}
    (hs : s ∈ Instrumentation.shadowTexts files sel.passThrough) :
    ∃ f ∈ sel.all, s.source = f.path := by
  rcases List.mem_append.1 hs with hs | hs
  · obtain ⟨f, hf, rfl⟩ := List.mem_map.1 hs
    exact ⟨f.file, List.mem_append_left _ (hFiles ▸ List.mem_map_of_mem hf), rfl⟩
  · obtain ⟨f, hf, rfl⟩ := List.mem_map.1 hs
    exact ⟨f, List.mem_append_right _ hf, rfl⟩

/-! ## Changes -/

section

variable {t : FileTree} {cwd : Location} {extensions : List String} {roots : List SourceRoot}
  {sel : Selection} {files : List InstrumentedFile} {dir : Location} {name : FileName}

/-- **What writing the shadows of a selection changes** are shadows beside sources. -/
theorem exists_source_of_changed (hPlain : t.Plain)
    (hSelected : Selection.ofRoots t cwd extensions roots = .ok sel)
    (hFiles : files.map (·.file) = sel.instrument)
    (hNew : (writeAll t cwd (Instrumentation.shadowTexts files sel.passThrough)).tree.find?
      (dir ++ [name]) ≠ t.find? (dir ++ [name])) :
    ∃ f ∈ sel.all, ∃ root ∈ roots, ∃ base names n, t.directory? cwd root.path = some base ∧
      dir = base ++ names ∧ name = nameOf n ∧ f.path.fileName? = some n ∧
      (∀ m ∈ names ++ [n], IsName m) ∧ Selection.isSource extensions (names ++ [n]) = true := by
  obtain ⟨locs, hOverlay, hPlaces⟩ :=
    overlay_writeAll hPlain.noLinks cwd (Instrumentation.shadowTexts files sel.passThrough)
  have hLoc : dir ++ [name] ∈ locs := by_contra fun hOther => hNew (hOverlay.find?_eq hOther)
  obtain ⟨s, hs, hPlace⟩ := hPlaces _ hLoc
  obtain ⟨f, hf, hSource⟩ := exists_mem_all hFiles hs
  rw [hSource] at hPlace
  obtain ⟨root, hRoot, base, names, n, hBase, hEq, hRest⟩ :=
    exists_place_of_source hPlain hSelected hf hPlace
  obtain ⟨rfl, hLast⟩ := List.append_inj' hEq rfl
  exact ⟨f, hf, root, hRoot, base, names, n, hBase, rfl, List.head_eq_of_cons_eq hLast, hRest⟩

theorem isText_of_changed (hPlain : t.Plain)
    (hSelected : Selection.ofRoots t cwd extensions roots = .ok sel)
    (hFiles : files.map (·.file) = sel.instrument)
    (hText : ∀ f ∈ sel.all, ∀ n, f.path.fileName? = some n → n.isText = true)
    (hNew : (writeAll t cwd (Instrumentation.shadowTexts files sel.passThrough)).tree.find?
      (dir ++ [name]) ≠ t.find? (dir ++ [name])) : name.isText = true := by
  obtain ⟨f, hf, -, -, -, -, n, -, -, rfl, hName, -⟩ :=
    exists_source_of_changed hPlain hSelected hFiles hNew
  rw [isText_nameOf]
  exact hText f hf n hName

end

end Shadow

end CoverRun

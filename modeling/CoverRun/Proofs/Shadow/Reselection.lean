import CoverRun.Proofs.FileTree.Location
import CoverRun.Proofs.Shadow.Source

/-!
# When shadows are no sources

A visit to what stands under a hidden name comes to nothing, so files put under hidden names change
nothing that is discovered (`Selection.discover_of_overlay`). A shadow is hidden if the name of its
source is UTF-8, and otherwise it is a source itself. So the selection after shadows were written is
the selection before exactly if all names that were written to are UTF-8
(`Shadow.ofRoots_writeAll`).
-/

namespace CoverRun.Selection

open CoverRun.Path FileTree

/-! ## Hidden files -/

/-- The last name of a location is hidden. -/
def endsHidden (loc : Location) : Bool := (loc.getLast?.map isHidden).getD false

theorem endsHidden_concat (dir : Location) (name : FileName) :
    endsHidden (dir ++ [name]) = isHidden name := by
  rw [endsHidden, List.getLast?_concat]
  rfl

theorem not_isVisible_of_endsHidden {loc names : Location}
    (h : endsHidden (loc ++ names) = true) (hne : names ≠ []) : isVisible names = false := by
  obtain ⟨front, name, rfl⟩ := (List.eq_nil_or_concat' names).resolve_left hne
  rw [← List.append_assoc, endsHidden_concat] at h
  simp [isVisible, h]

theorem visit_of_endsHidden (extensions : List String) (root : Path) {loc : Location}
    {e : Location × Entry} (h : endsHidden (loc ++ e.1) = true) (hne : e.1 ≠ []) :
    visit extensions root e = .ok none := by
  obtain ⟨names, entry⟩ := e
  have hHidden : isVisible names = false := not_isVisible_of_endsHidden h hne
  cases entry <;> simp [visit, isSource, hHidden]

/-- What is left of a tree is listed as it was. -/
theorem below_filter (t : FileTree) (loc : Location) (p : Location → Bool) :
    below ⟨t.entries.filter fun k _ => p k⟩ loc =
      (t.below loc).filter fun e => p (loc ++ e.1) := by
  rw [below, below, OrderedMap.filter, List.filter_map, List.filter_filter, List.filter_filter]
  refine congrArg _ (List.filter_congr fun e _ => ?_)
  by_cases hBelow : loc <+: e.1
  · obtain ⟨names, hNames⟩ := hBelow
    simp [← hNames, Bool.and_comm]
  · have hNot : loc.isPrefixOf e.1 = false :=
      Bool.eq_false_iff.2 fun hPrefix => hBelow (List.isPrefixOf_iff_prefix.1 hPrefix)
    simp [hNot]

theorem visitAll_shown (t : FileTree) (extensions : List String) (root : Path) (loc : Location) :
    visitAll (visit extensions root) (below ⟨t.entries.filter fun k _ => !endsHidden k⟩ loc) =
      visitAll (visit extensions root) (t.below loc) := by
  rw [below_filter]
  refine visitAll_filter fun e hMem hHidden => ?_
  exact visit_of_endsHidden extensions root (by simpa using hHidden) (mem_below.1 hMem).1

theorem discover_of_overlay {t u : FileTree} {locs : List Location} (h : Overlay t locs u)
    (hLinks : t.NoLinks) (hHidden : ∀ loc ∈ locs, endsHidden loc = true) (cwd : Location)
    (extensions : List String) (root : Path) :
    discover u cwd extensions root = discover t cwd extensions root := by
  have hEntries : (u.entries.filter fun k _ => !endsHidden k) =
      t.entries.filter fun k _ => !endsHidden k := by
    apply OrderedMap.ext_find?
    intro k
    rw [OrderedMap.find?_filter, OrderedMap.find?_filter]
    split
    · next hShown =>
      refine h.same k fun hMem => ?_
      simp [hHidden k hMem] at hShown
    · rfl
  rw [discover, discover, h.directory?_eq hLinks]
  cases t.directory? cwd root with
  | none => rfl
  | some loc =>
      show visitAll (visit extensions root) (u.below loc) =
        visitAll (visit extensions root) (t.below loc)
      rw [← visitAll_shown u, ← visitAll_shown t, hEntries]

theorem ofRoots_of_overlay {t u : FileTree} {locs : List Location} (h : Overlay t locs u)
    (hLinks : t.NoLinks) (hHidden : ∀ loc ∈ locs, endsHidden loc = true) (cwd : Location)
    (extensions : List String) (roots : List SourceRoot) :
    ofRoots u cwd extensions roots = ofRoots t cwd extensions roots := by
  induction roots with
  | nil => rfl
  | cons root roots ih => rw [ofRoots, ofRoots, discover_of_overlay h hLinks hHidden, ih]

end CoverRun.Selection

namespace CoverRun.Shadow

open CoverRun.Path FileTree

/-- A file that is selected before and after files were put over a tree has not changed. -/
theorem find?_of_reselected {t u : FileTree} (hTree : t.WellFormed) {cwd : Location}
    (hDirectories : ∀ p, u.directory? cwd p = t.directory? cwd p) {extensions : List String}
    {roots : List SourceRoot} {sel : Selection}
    (h : Selection.ofRoots t cwd extensions roots = .ok sel)
    (h' : Selection.ofRoots u cwd extensions roots = .ok sel) {root : SourceRoot}
    (hRoot : root ∈ roots) {base names : Location} {content : Bytes}
    (hBase : t.directory? cwd root.path = some base) (hNames : ∀ n ∈ names, IsName n)
    (hSource : Selection.isSource extensions names = true)
    (hFile : u.find? (base ++ names) = some (.file content)) :
    t.find? (base ++ names) = some (.file content) := by
  have hne : base ++ names ≠ [] := by
    intro hEmpty
    rw [(List.append_eq_nil_iff.1 hEmpty).2] at hSource
    cases hSource
  obtain ⟨f, hf, hSame, hRelative, hText⟩ := Selection.exists_selected h' hRoot
    ((hDirectories _).trans hBase) ((find?_eq_some_iff hne).1 hFile) hSource
  obtain ⟨root', -, base', names', content', hBase', hSame', hRelative', hText', hEntry', -⟩ :=
    Selection.exists_source h hf
  rw [← hSame', hSame, hBase] at hBase'
  obtain rfl := Option.some.inj hBase'
  have hNames' : ∀ n ∈ names', IsName n := fun n hn =>
    hTree.named _ hEntry' n (List.mem_append_right base hn)
  have hSameNames : names' = names := by
    have hComponents := congrArg components (hRelative'.symm.trans hRelative)
    rw [components_ofNames hNames, components_ofNames hNames'] at hComponents
    exact map_name_injective hComponents
  have hContent : content' = content :=
    (Utf8.decode?_eq_some_iff.1 hText').trans (Utf8.decode?_eq_some_iff.1 hText).symm
  rw [hSameNames, hContent] at hEntry'
  exact (find?_eq_some_iff hne).2 hEntry'

/-- **When shadows are not selected.** In a plain tree, let shadows be written for what is selected,
with any texts, all of them or some up to a failure. Then the same sources are selected as before,
with the same texts and in the same order, exactly if the name of each file that is new or changed
is UTF-8, as it is if the names of all sources are. Only files are new or changed, under names that
begin with a dot. -/
theorem ofRoots_writeAll {t : FileTree} (hPlain : t.Plain) {cwd : Location}
    {extensions : List String} {roots : List SourceRoot} {sel : Selection}
    (hSelected : Selection.ofRoots t cwd extensions roots = .ok sel)
    {files : List InstrumentedFile} (hFiles : files.map (·.file) = sel.instrument) :
    let t' := (writeAll t cwd (Instrumentation.shadowTexts files sel.passThrough)).tree
    (Selection.ofRoots t' cwd extensions roots = .ok sel ↔
      ∀ dir name, t'.find? (dir ++ [name]) ≠ t.find? (dir ++ [name]) → name.isText = true) ∧
    ((∀ f ∈ sel.all, ∀ name, f.path.fileName? = some name → name.isText = true) →
      Selection.ofRoots t' cwd extensions roots = .ok sel) ∧
    ∀ loc, t'.find? loc ≠ t.find? loc →
      (∃ dir name, loc = dir ++ [name] ∧ name.bytes.head? = some dot) ∧
        ∃ content, t'.find? loc = some (.file content) := by
  intro t'
  have hLinks := hPlain.noLinks
  obtain ⟨locs, hOverlay, hPlaces⟩ :=
    overlay_writeAll hLinks cwd (Instrumentation.shadowTexts files sel.passThrough)
  have hChanged {loc : Location} (h : t'.find? loc ≠ t.find? loc) : loc ∈ locs :=
    by_contra fun hOther => h (hOverlay.find?_eq hOther)
  have hIff : Selection.ofRoots t' cwd extensions roots = .ok sel ↔
      ∀ dir name, t'.find? (dir ++ [name]) ≠ t.find? (dir ++ [name]) → name.isText = true := by
    constructor
    · intro hAgain dir name hNew
      obtain ⟨f, -, root, hRoot, base, names, n, hBase, rfl, rfl, -, hNames, hSource⟩ :=
        exists_source_of_changed hPlain hSelected hFiles hNew
      by_contra hNot
      rw [isText_nameOf, Bool.not_eq_true] at hNot
      obtain ⟨content, hFile⟩ := hOverlay.file _ (hChanged hNew)
      have hShadowNames : ∀ m ∈ names ++ [nameOf n], IsName m := by
        simp only [List.forall_mem_append, List.forall_mem_singleton] at hNames ⊢
        exact ⟨hNames.1, isName_nameOf hNames.2.no_slash⟩
      refine hNew (hFile.trans ?_)
      rw [List.append_assoc] at hFile ⊢
      exact (find?_of_reselected hPlain.wellFormed (hOverlay.directory?_eq hLinks cwd) hSelected
        hAgain hRoot hBase hShadowNames (isSource_nameOf hSource hNot) hFile).symm
    · intro hAll
      rw [Selection.ofRoots_of_overlay hOverlay.changed hLinks (fun loc hLoc => ?_), hSelected]
      obtain ⟨hLoc, hNew⟩ := List.mem_filter.1 hLoc
      obtain ⟨s, -, hPlace⟩ := hPlaces loc hLoc
      obtain ⟨dir, name, rfl, hDot⟩ := exists_place hPlace
      rw [Selection.endsHidden_concat, Selection.isHidden, hAll dir name (of_decide_eq_true hNew)]
      exact beq_iff_eq.2 hDot
  refine ⟨hIff, fun hText => hIff.2 fun dir name hNew => ?_, fun loc hNew => ?_⟩
  · exact isText_of_changed hPlain hSelected hFiles hText hNew
  · obtain ⟨s, -, hPlace⟩ := hPlaces loc (hChanged hNew)
    exact ⟨exists_place hPlace, hOverlay.file loc (hChanged hNew)⟩

/-- The shadow of a source whose name is not UTF-8 is selected with it. -/
theorem ofRoots_writeAll_odd :
    let odd : FileName := ⟨[0xFF, dot, 0x61]⟩
    let t : FileTree :=
      ⟨OrderedMap.ofList [(["c"], .directory), (["c", odd], .file [0x62])]⟩
    let f : SourceFile := ⟨"/c", ⟨odd.bytes⟩, "b"⟩
    let g : SourceFile := ⟨"/c", ⟨(nameOf odd).bytes⟩, "x"⟩
    let roots : List SourceRoot := [⟨"/c", []⟩]
    let w := writeAll t [] (Instrumentation.shadowTexts [⟨f, "x", OrderedMap.empty⟩] [])
    t.Plain ∧ Selection.ofRoots t [] ["a"] roots = .ok ⟨[f], []⟩ ∧
      Selection.ofRoots w.tree [] ["a"] roots = .ok ⟨[g, f], []⟩ ∧
      ¬ ∀ dir name, w.tree.find? (dir ++ [name]) ≠ t.find? (dir ++ [name]) →
        name.isText = true := by
  intro odd t f g roots w
  have hPlain : t.Plain :=
    ⟨⟨by unfold Rooted; decide +kernel, by decide +kernel⟩, noLinks_of_entries (by decide +kernel),
      by decide +kernel⟩
  have hDirectory (u : FileTree) (hRooted : u.Rooted) (hFind : u.find? ["c"] = some .directory) :
      u.directory? [] "/c" = some (["c"] : Location) := by
    have hPath : ofText "/c" = Location.path ["c"] := by decide +kernel
    rw [hPath]
    exact directory?_path hRooted [] (by decide +kernel) hFind
  have hSelected : Selection.ofRoots t [] ["a"] roots = .ok ⟨[f], []⟩ := by
    rw [Selection.ofRoots, Selection.ofRoots, Selection.discover,
      hDirectory t hPlain.wellFormed.rooted (by decide +kernel)]
    decide +kernel
  have hWritten : t.write [] (namePath f.path) (Utf8.encode "x") =
      .ok (t.place ["c", nameOf odd] (.file [0x78])) := by
    have hPath : namePath f.path = Location.path ((["c"] : Location) ++ [nameOf odd]) := by
      decide +kernel
    rw [hPath]
    exact write_path hPlain.wellFormed.rooted [] (by decide +kernel) (by decide +kernel)
      (Or.inl (by decide +kernel)) [0x78]
  have hTree : w.tree = t.place ["c", nameOf odd] (.file [0x78]) := by
    change (writeAll t [] [⟨f.path, "x"⟩]).tree = _
    rw [writeAll, hWritten]
    rfl
  have hAgain : Selection.ofRoots w.tree [] ["a"] roots = .ok ⟨[g, f], []⟩ := by
    rw [hTree, Selection.ofRoots, Selection.ofRoots, Selection.discover,
      hDirectory _ (by unfold Rooted; decide +kernel) (by decide +kernel)]
    decide +kernel
  refine ⟨hPlain, hSelected, hAgain, fun hAll => ?_⟩
  have hSame := (ofRoots_writeAll hPlain hSelected rfl).1.2 hAll
  rw [hAgain] at hSame
  exact absurd (congrArg List.length (congrArg Selection.instrument (Except.ok.inj hSame)))
    (by decide)

end CoverRun.Shadow

import CoverRun.Proofs.FileTree.Location
import CoverRun.Proofs.Plan
import CoverRun.Proofs.Selection
import CoverRun.Screen

/-!
# The selection on the screen

The screen takes a selection apart again: below the heading of a root it shows the sources whose
root has the same components. No two roots of a plan have the same, so these are the sources that
were discovered for the root (`Screen.filter_belongs`), also where one root lies inside another. The
parts together are the selection, so that nothing is lost and nothing is shown twice
(`Screen.selection_by_root`).
-/

namespace CoverRun.Screen

open Outcome Selection

/-! ## Parts of a selection -/

/-- What a root contributes to a selection: the sources discovered for it, in their order, those to
instrument apart from those that it skips. -/
structure Contributes (t : FileTree) (cwd : Location) (extensions : List String) (root : SourceRoot)
    (files : List SourceFile) (part : Selection) : Prop where
  discovered : discover t cwd extensions root.path = .ok files
  instrument : part.instrument = files.filter fun f => !root.skips f.relative
  passThrough : part.passThrough = files.filter fun f => root.skips f.relative

section

variable {t : FileTree} {cwd : Location} {extensions : List String}

/-- A selection is made of the parts of its roots. -/
theorem exists_parts {roots : List SourceRoot} {s : Selection}
    (h : ofRoots t cwd extensions roots = .ok s) :
    ∃ parts, List.Forall₂ (fun root part => ∃ files, Contributes t cwd extensions root files part)
        roots parts ∧
      parts.flatMap (·.instrument) = s.instrument ∧
      parts.flatMap (·.passThrough) = s.passThrough := by
  induction roots generalizing s with
  | nil =>
      obtain rfl := Except.ok.inj h
      exact ⟨[], .nil, rfl, rfl⟩
  | cons root roots ih =>
      obtain ⟨files, hFiles, hRest⟩ := bind_eq_ok_iff.1 h
      obtain ⟨rest, hSelected, hEq⟩ := bind_eq_ok_iff.1 hRest
      obtain rfl := Except.ok.inj hEq
      obtain ⟨parts, hParts, hInstrument, hPassThrough⟩ := ih hSelected
      refine ⟨split root files :: parts, .cons ⟨files, hFiles, rfl, rfl⟩ hParts, ?_, ?_⟩
      · rw [List.flatMap_cons, hInstrument]
        rfl
      · rw [List.flatMap_cons, hPassThrough]
        rfl

theorem Contributes.root_of_mem {root : SourceRoot} {files : List SourceFile} {part : Selection}
    (h : Contributes t cwd extensions root files part) {f : SourceFile} (hf : f ∈ part.all) :
    f.root = root.path := by
  apply root_of_discover h.discovered f
  rw [all, h.instrument, h.passThrough] at hf
  rcases List.mem_append.1 hf with hf | hf
  · exact List.mem_of_mem_filter hf
  · exact List.mem_of_mem_filter hf

theorem Contributes.total_eq {root : SourceRoot} {files : List SourceFile} {part : Selection}
    (h : Contributes t cwd extensions root files part) : part.total = files.length := by
  rw [← (all_split_perm root files).length_eq, all, List.length_append, total, h.instrument,
    h.passThrough]
  rfl

theorem belongs_iff {root : SourceRoot} {f : SourceFile} :
    belongs root f = true ↔ f.root.components = root.path.components := beq_iff_eq

/-- **The sources that belong to a root are those of its part**, if no two roots have the same
components. -/
theorem filter_belongs {roots : List SourceRoot} {parts : List Selection}
    (hApart : roots.Pairwise fun a b => a.path.components ≠ b.path.components)
    (hParts : List.Forall₂
      (fun root part => ∀ f ∈ part.all, f.root = root.path) roots parts)
    {list : Selection → List SourceFile} (hList : ∀ part, list part ⊆ part.all)
    {root : SourceRoot} {part : Selection} (hMem : (root, part) ∈ roots.zip parts) :
    (parts.flatMap list).filter (belongs root) = list part := by
  induction hParts with
  | nil => cases hMem
  | @cons first here roots parts hFirst hLater ih =>
      obtain ⟨hOthers, hApart⟩ := List.pairwise_cons.1 hApart
      rw [List.flatMap_cons, List.filter_append]
      rcases List.mem_cons.1 hMem with hEq | hMem
      · obtain ⟨rfl, rfl⟩ := Prod.mk.inj hEq
        have hAll : (list part).filter (belongs root) = list part := by
          refine List.filter_eq_self.2 fun f hf => belongs_iff.2 ?_
          rw [hFirst f (hList part hf)]
        have hNone : (parts.flatMap list).filter (belongs root) = [] := by
          refine List.filter_eq_nil_iff.2 fun f hf hBelongs => ?_
          obtain ⟨part', hPart', hf'⟩ := List.mem_flatMap.1 hf
          obtain ⟨other, hOther, hRoot⟩ := exists_of_mem_forall₂ hLater hPart'
          apply hOthers other hOther
          rw [← belongs_iff.1 hBelongs, hRoot f (hList part' hf')]
        rw [hAll, hNone, List.append_nil]
      · have hNone : (list here).filter (belongs root) = [] := by
          refine List.filter_eq_nil_iff.2 fun f hf hBelongs => ?_
          apply hOthers root (List.of_mem_zip hMem).1
          rw [← belongs_iff.1 hBelongs, hFirst f (hList here hf)]
        rw [hNone, List.nil_append, ih hApart hMem]

end

/-! ## Lines -/

/-- The line of a root without sources. -/
def noSources : String := "  no source files"

/-- The lines below the heading of a root: its sources to instrument and then those it skips, or
that there are none. -/
def partLines (part : Selection) : List String :=
  if part.total = 0 then [noSources]
  else
    part.instrument.map (fun f => "  +" ++ f.relative.text) ++
      part.passThrough.map fun f => "  =" ++ f.relative.text ++ " (skipped)"

theorem rootLines_eq {plan : Plan} {s part : Selection} {root : SourceRoot}
    (hInstrument : s.instrument.filter (belongs root) = part.instrument)
    (hPassThrough : s.passThrough.filter (belongs root) = part.passThrough) :
    rootLines plan s root = plan.display root.path :: partLines part := by
  have hLines : sourceLines s root =
      part.instrument.map instrumentLine ++ part.passThrough.map passThroughLine := by
    rw [sourceLines, hInstrument, hPassThrough]
  have hLength : (sourceLines s root).length = part.total := by
    rw [hLines, List.length_append, List.length_map, List.length_map, total]
  rw [rootLines, partLines]
  by_cases hNone : part.total = 0
  · rw [if_pos hNone, List.eq_nil_of_length_eq_zero (hLength.trans hNone)]
    rfl
  · have hSome : (sourceLines s root).isEmpty = false := by
      rw [List.isEmpty_eq_false_iff, ← List.length_pos_iff, hLength]
      exact Nat.pos_of_ne_zero hNone
    rw [if_neg hNone, hSome, hLines]
    rfl

/-- No other mark begins the line of a root without sources. -/
theorem append_ne_noSources {mark : String} (hLength : mark.toList.length = 3)
    (hOther : mark ≠ "  n") (rest : String) : mark ++ rest ≠ noSources := by
  intro hEq
  have hSplit : noSources.toList = "  n".toList ++ "o source files".toList := by decide
  have hChars := congrArg String.toList hEq
  rw [String.toList_append, hSplit] at hChars
  exact hOther (String.toList_inj.1 (List.append_inj_left hChars hLength))

theorem noSources_mem_partLines {part : Selection} :
    noSources ∈ partLines part ↔ part.total = 0 := by
  rw [partLines]
  by_cases hNone : part.total = 0
  · rw [if_pos hNone]
    exact iff_of_true List.mem_cons_self hNone
  · rw [if_neg hNone]
    refine iff_of_false (fun hMem => ?_) hNone
    rcases List.mem_append.1 hMem with hMem | hMem
    · obtain ⟨f, -, hLine⟩ := List.mem_map.1 hMem
      exact append_ne_noSources (by decide) (by decide) _ hLine
    · obtain ⟨f, -, hLine⟩ := List.mem_map.1 hMem
      rw [String.append_assoc] at hLine
      exact append_ne_noSources (by decide) (by decide) _ hLine

/-- **What the screen shows of a selection.** There is one heading for each root of the plan, in the
order of the roots. Below it stand the sources that were discovered for the root, in their order and
those to instrument first, or else, exactly if there are none, the line that says so. What stands
below all headings are the two lists of the selection, so that each of their sources is shown once,
and as what it is; the totals at the end count what was shown. -/
theorem selection_by_root {project : Path} {settings : Settings} {o : Overrides} {plan : Plan}
    (hPlan : Plan.ofSettings project settings o = .ok plan) {t : FileTree} {cwd : Location}
    {s : Selection} (hSelected : ofRoots t cwd plan.extensions plan.roots = .ok s) :
    ∃ parts : List Selection,
      List.Forall₂ (fun root part => ∃ files,
        Contributes t cwd plan.extensions root files part ∧
          (noSources ∈ partLines part ↔ files = [])) plan.roots parts ∧
      parts.flatMap (·.instrument) = s.instrument ∧
      parts.flatMap (·.passThrough) = s.passThrough ∧
      Screen.selection plan s = ofLines
        ((plan.roots.zip parts).flatMap (fun p => plan.display p.1.path :: partLines p.2) ++
          ["", toString (parts.flatMap (·.instrument)).length ++ " to instrument, " ++
            toString (parts.flatMap (·.passThrough)).length ++ " passed through"]) := by
  obtain ⟨parts, hParts, hInstrument, hPassThrough⟩ := exists_parts hSelected
  have hApart := (Plan.ofSettings_eq_ok_iff.1 hPlan).pairwise_roots
  have hRoots : List.Forall₂ (fun root part => ∀ f ∈ part.all, f.root = root.path)
      plan.roots parts :=
    hParts.imp fun root part ⟨files, hPart⟩ f hf => hPart.root_of_mem hf
  have hFirst : (plan.roots.zip parts).map Prod.fst = plan.roots :=
    List.map_fst_zip hParts.length_eq.le
  have hLines : plan.roots.flatMap (rootLines plan s) =
      (plan.roots.zip parts).flatMap fun p => plan.display p.1.path :: partLines p.2 := by
    conv_lhs => rw [← hFirst, List.flatMap_map]
    refine List.flatMap_congr fun p hp => ?_
    apply rootLines_eq
    · rw [← hInstrument]
      exact filter_belongs hApart hRoots (fun part f hf => List.mem_append_left _ hf) hp
    · rw [← hPassThrough]
      exact filter_belongs hApart hRoots (fun part f hf => List.mem_append_right _ hf) hp
  refine ⟨parts, hParts.imp ?_, hInstrument, hPassThrough, ?_⟩
  · rintro root part ⟨files, hPart⟩
    refine ⟨files, hPart, ?_⟩
    rw [noSources_mem_partLines, hPart.total_eq, List.length_eq_zero_iff]
  · rw [selection, selectionLines, hLines, hInstrument, hPassThrough]

/-- A source below two roots is shown under both, once to instrument and once as skipped. -/
theorem selection_by_root_nested :
    let t : FileTree := ⟨OrderedMap.ofList [(["p"], .directory), (["p", "a"], .directory),
      (["p", "a", "F.sol"], .file []), (["p", "a", "b"], .directory),
      (["p", "a", "b", "L.sol"], .file []), (["p", "c"], .directory)]⟩
    let settings : Settings := { Settings.standard with
      roots := [⟨"a", ["b"]⟩, ⟨"./a//b", []⟩, ⟨"c", []⟩] }
    let s : Selection := ⟨[⟨"/p/a", "F.sol", ""⟩, ⟨"/p/a/b", "L.sol", ""⟩],
      [⟨"/p/a", "b/L.sol", ""⟩]⟩
    ∃ plan, Plan.ofSettings "/p" settings .none = .ok plan ∧
      ofRoots t [] plan.extensions plan.roots = .ok s ∧
      (∃ parts : List Selection, parts.length = 3 ∧
        parts.flatMap (·.instrument) = s.instrument ∧
        parts.flatMap (·.passThrough) = s.passThrough) ∧
      Screen.selection plan s = "a\n  +F.sol\n  =b/L.sol (skipped)\na/b\n  +L.sol\nc\n" ++
        "  no source files\n\n2 to instrument, 1 passed through\n" := by
  intro t settings s
  have hRooted : t.Rooted := by unfold FileTree.Rooted; decide +kernel
  have hDirectory {root : Path} {loc : Location} (hPath : loc.path = root)
      (hSpelled : FileTree.IsSpelled loc) (hFind : t.find? loc = some .directory) :
      t.directory? [] root = some loc :=
    hPath ▸ FileTree.directory?_path hRooted [] hSpelled hFind
  have hA : t.directory? [] "/p/a" = some (["p", "a"] : Location) :=
    hDirectory (by decide +kernel) (by decide +kernel) (by decide +kernel)
  have hB : t.directory? [] "/p/a/b" = some (["p", "a", "b"] : Location) :=
    hDirectory (by decide +kernel) (by decide +kernel) (by decide +kernel)
  have hC : t.directory? [] "/p/c" = some (["p", "c"] : Location) :=
    hDirectory (by decide +kernel) (by decide +kernel) (by decide +kernel)
  let roots : List SourceRoot :=
    [⟨"/p/a", [⟨"b", ["b"], none⟩]⟩, ⟨"/p/a/b", []⟩, ⟨"/p/c", []⟩]
  have hMade : (Plan.ofSettings "/p" settings .none).toOption.map
      (fun plan => (plan.project, plan.extensions, plan.roots)) =
        some (Path.ofText "/p", ["sol"], roots) := by
    decide +kernel
  have hSelected : ofRoots t [] ["sol"] roots = .ok s := by
    rw [ofRoots, ofRoots, ofRoots, ofRoots, discover, hA, discover, hB, discover, hC]
    decide +kernel
  obtain ⟨plan, hSome, hFields⟩ := Option.map_eq_some_iff.1 hMade
  obtain ⟨hProject, hFields⟩ := Prod.mk.inj hFields
  obtain ⟨hExtensions, hRoots⟩ := Prod.mk.inj hFields
  rw [← hExtensions, ← hRoots] at hSelected
  have hPlan := eq_ok_of_toOption hSome
  obtain ⟨parts, hParts, hInstrument, hPassThrough, -⟩ := selection_by_root hPlan hSelected
  refine ⟨plan, hPlan, hSelected, ⟨parts, ?_, hInstrument, hPassThrough⟩, ?_⟩
  · rw [← hParts.length_eq, hRoots]
    rfl
  · rw [selection, selectionLines, hRoots]
    simp only [roots, List.flatMap_cons, List.flatMap_nil, rootLines, Plan.display, hProject]
    decide +kernel

end CoverRun.Screen

import CoverRun.Instrumentation
import CoverRun.Proofs.FileTree.Plain
import CoverRun.Proofs.FileTree.Written
import CoverRun.Proofs.Shadow.Place

/-!
# What shadows hold

After shadows were written, a place holds the last text that was written there, and all other places
hold what they held before (`Shadow.find?_writeEach`). No two names have one shadow name, so two
shadows share a place only if their sources are one file: one name in one directory
(`Shadow.place?_ne`). As long as no file is written twice, each shadow is read back as its own text
(`Shadow.writeAll_outcome`). Paths with other components can still be paths of one file, and then
the later text is all that is left.
-/

namespace CoverRun.Shadow

open CoverRun.Path FileTree

/-! ## Places of sources -/

/-- Where a file stands: the directory that the parent of its path leads to, and its name. -/
def sourcePlace? (t : FileTree) (cwd : Location) (p : Path) : Option (Location × FileName) :=
  (descend t (p.parent?.elim cwd (origin cwd)) (p.parent?.elim [] namesOf)).map
    (·, p.fileName?.getD "")

section

variable {t u : FileTree} {cwd : Location}

theorem sourcePlace?_of_overlay {locs : List Location} (h : Overlay t locs u) (cwd : Location)
    (p : Path) : sourcePlace? u cwd p = sourcePlace? t cwd p := by
  rw [sourcePlace?, sourcePlace?, h.descend_eq]

theorem place?_eq (t : FileTree) (cwd : Location) (p : Path) :
    place? t cwd p = (sourcePlace? t cwd p).map fun at' => at'.1 ++ [nameOf at'.2] := by
  obtain ⟨hNames, hOrigin⟩ := namePath_way cwd p
  rw [place?, sourcePlace?, hNames, hOrigin, List.dropLast_concat, Option.map_map]
  rfl

/-- **Shadows of two files have two places.** -/
theorem place?_ne {p q : Path} (hne : sourcePlace? t cwd p ≠ sourcePlace? t cwd q) {loc : Location}
    (hp : place? t cwd p = some loc) : place? t cwd q ≠ some loc := by
  intro hq
  rw [place?_eq] at hp hq
  obtain ⟨⟨dir, name⟩, hHere, rfl⟩ := Option.map_eq_some_iff.1 hp
  obtain ⟨⟨dir', name'⟩, hThere, hSame⟩ := Option.map_eq_some_iff.1 hq
  obtain ⟨rfl, hName⟩ := List.append_inj' hSame rfl
  obtain rfl := nameOf_injective (List.head_eq_of_cons_eq hName)
  exact hne (hHere.trans hThere.symm)

/-! ## Contents of places -/

/-- What stands at a location after the shadows of texts were written in order. -/
def entryAfter? (t : FileTree) (cwd : Location) (texts : List ShadowText) (loc : Location) :
    Option Entry :=
  texts.foldl (fun e s =>
    if place? t cwd s.source = some loc then some (.file (Utf8.encode s.text)) else e) (t.find? loc)

/-- **A place holds the last text that was written there, and nothing else has changed.** -/
theorem find?_writeEach (hLinks : t.NoLinks) {texts : List ShadowText}
    (h : writeEach t cwd texts = .ok u) (loc : Location) :
    u.find? loc = entryAfter? t cwd texts loc := by
  induction texts generalizing t with
  | nil =>
      obtain rfl := Except.ok.inj h
      rfl
  | cons s texts ih =>
      obtain ⟨t', hWrite, hRest⟩ := writeEach_cons_eq_ok_iff.1 h
      obtain ⟨dir, name, hPlace, hAdmits, rfl⟩ := write_place hLinks hWrite
      have hne : dir ++ [name] ≠ [] := by simp
      have hOverlay := overlay_place hne hAdmits (Utf8.encode s.text)
      rw [ih (hOverlay.noLinks hLinks) hRest, entryAfter?, entryAfter?, List.foldl_cons, hPlace,
        find?_place hne]
      simp only [place?_of_overlay hOverlay, Option.some.injEq, eq_comm]

/-! ## Reading shadows -/

theorem walk_single (hLinks : t.NoLinks) {dir : Location} {name : FileName}
    (h : u.find? (dir ++ [name]) = t.find? (dir ++ [name])) (last : LastName) (slashed : Bool)
    (links : Nat) :
    walk u last slashed links dir [name] = walk t last slashed links dir [name] := by
  cases hFind : t.find? (dir ++ [name]) with
  | none => simp [walk, h, hFind]
  | some e =>
      cases e with
      | directory => simp [walk, h, hFind]
      | file content => simp [walk, h, hFind]
      | link target => exact absurd hFind (hLinks _ target)

theorem readText_of_overlay (hLinks : t.NoLinks) {locs : List Location} (h : Overlay t locs u)
    {p : Path} {loc : Location} (hPlace : place? t cwd p = some loc) (hLoc : loc ∉ locs) :
    u.readText cwd (namePath p) = t.readText cwd (namePath p) := by
  obtain ⟨dir, hWay, rfl⟩ := Option.map_eq_some_iff.1 hPlace
  rw [(namePath_way cwd p).1, List.dropLast_concat] at hWay
  have hWay' := (h.descend_eq (origin cwd (namePath p)) (p.parent?.elim [] namesOf)).trans hWay
  have hWalk : walk u .followed (isSlashed (namePath p)) linkLimit (origin cwd (namePath p))
        (namesOf (namePath p)) =
      walk t .followed (isSlashed (namePath p)) linkLimit (origin cwd (namePath p))
        (namesOf (namePath p)) := by
    rw [(namePath_way cwd p).1, walk_of_descend hWay' (Or.inl (List.cons_ne_nil _ _)),
      walk_of_descend hWay (Or.inl (List.cons_ne_nil _ _)),
      walk_single hLinks (h.find?_eq hLoc)]
  have hResolve : u.resolve cwd (namePath p) .followed = t.resolve cwd (namePath p) .followed := by
    rw [origin] at hWalk
    rw [resolve, resolve, hWalk]
  rw [readText, readText, FileTree.read, FileTree.read, hResolve]

theorem readText_writeEach (hLinks : t.NoLinks) {texts : List ShadowText}
    (h : writeEach t cwd texts = .ok u)
    (hApart : (texts.map fun s => sourcePlace? t cwd s.source).Nodup) :
    ∀ s ∈ texts, u.readText cwd (namePath s.source) = .ok s.text := by
  induction texts generalizing t with
  | nil => exact List.forall_mem_nil _
  | cons s texts ih =>
      obtain ⟨t', hWrite, hRest⟩ := writeEach_cons_eq_ok_iff.1 h
      obtain ⟨loc, hPlace, hOverlay⟩ := overlay_write hLinks hWrite
      have hLinks' := hOverlay.noLinks hLinks
      rw [List.map_cons, List.nodup_cons] at hApart
      obtain ⟨hOther, hApart⟩ := hApart
      intro s' hs'
      rcases List.mem_cons.1 hs' with rfl | hs'
      · obtain ⟨locs, hLater, hPlaces⟩ := overlay_writeEach hLinks' hRest
        rw [readText_of_overlay hLinks' hLater ((place?_of_overlay hOverlay cwd _).trans hPlace) ?_]
        · exact readText_write hWrite
        · intro hLoc
          obtain ⟨s'', hs'', hPlace''⟩ := hPlaces loc hLoc
          rw [place?_of_overlay hOverlay] at hPlace''
          refine place?_ne (fun hSame => hOther ?_) hPlace hPlace''
          rw [hSame]
          exact List.mem_map_of_mem hs''
      · refine ih hLinks' hRest ?_ s' hs'
        simpa only [sourcePlace?_of_overlay hOverlay] using hApart

end

/-! ## All shadows of a run -/

/-- **Shadows are written in order up to the first that fails, and nothing else is.** The texts of
instrumented files come first and then those of files that are passed through. Either all of them
are written and their paths come back, or the shadow of the first that cannot be written is the
failure and those before it stay. If no file is among those that were written twice, each of their
shadows holds its own text. -/
theorem writeAll_outcome {t : FileTree} (hLinks : t.NoLinks) (cwd : Location)
    (files : List InstrumentedFile) (passThrough : List SourceFile) :
    let texts := Instrumentation.shadowTexts files passThrough
    let w := writeAll t cwd texts
    ∃ done, writeEach t cwd done = .ok w.tree ∧
      (texts = done ∧ w.result = .ok (texts.map fun s => namePath s.source) ∨
        ∃ s rest cause, texts = done ++ s :: rest ∧
          w.tree.write cwd (namePath s.source) (Utf8.encode s.text) = .error cause ∧
          w.result = .error ⟨namePath s.source, cause⟩) ∧
      (∀ loc, w.tree.find? loc = entryAfter? t cwd done loc) ∧
      ((done.map fun s => sourcePlace? t cwd s.source).Nodup →
        ∀ s ∈ done, w.tree.readText cwd (namePath s.source) = .ok s.text) := by
  intro texts w
  obtain ⟨done, hDone, hWritten, hEnd⟩ := writeAll_stops t cwd texts
  refine ⟨done, hDone, ?_, find?_writeEach hLinks hDone, readText_writeEach hLinks hDone⟩
  rcases hEnd with ⟨hAll, hNone⟩ | ⟨s, rest, cause, hSplit, hError, hSome⟩
  · refine Or.inl ⟨hAll, ?_⟩
    rw [Writing.result, hNone, hWritten, ← hAll]
  · exact Or.inr ⟨s, rest, cause, hSplit, hError, by rw [Writing.result, hSome]⟩

/-- The directory of the last shadow is missing, and the first one was there with another text. -/
theorem writeAll_outcome_stopped :
    let t : FileTree :=
      ⟨OrderedMap.ofList [(["c"], .directory), (["c", ".F.cover.sol"], .file [0])]⟩
    let f : InstrumentedFile := ⟨⟨"c", "F.sol", "s"⟩, "x", OrderedMap.empty⟩
    let g : SourceFile := ⟨"./c", "G.sol", "y"⟩
    let h : SourceFile := ⟨"d", "H.sol", "z"⟩
    let w := writeAll t [] (Instrumentation.shadowTexts [f] [g, h])
    t.NoLinks ∧ w.result = .error ⟨"d/.H.cover.sol", .notFound⟩ ∧
      w.tree.readText [] "c/.F.cover.sol" = .ok "x" ∧
      w.tree.readText [] "./c/.G.cover.sol" = .ok "y" := by
  intro t f g h w
  have hLinks : t.NoLinks := noLinks_of_entries (by decide +kernel)
  have hF : namePath f.file.path = "c/.F.cover.sol" := by decide +kernel
  have hG : namePath g.path = "./c/.G.cover.sol" := by decide +kernel
  have hH : namePath h.path = "d/.H.cover.sol" := by decide +kernel
  let t₁ := t.place ["c", ".F.cover.sol"] (.file (Utf8.encode "x"))
  let t₂ := t₁.place ["c", ".G.cover.sol"] (.file (Utf8.encode "y"))
  have hFirst : t.write [] "c/.F.cover.sol" (Utf8.encode "x") = .ok t₁ := by
    have hLeads : LeadsTo t [] "c/.F.cover.sol" ["c"] ".F.cover.sol" :=
      ⟨⟨by decide, by decide, by decide⟩, by decide, by decide, by decide, ["c"],
        by decide +kernel, by decide +kernel⟩
    exact hLeads.write_file (by decide) (Or.inr ⟨[0], by decide +kernel⟩) _
  have hSecond : t₁.write [] "./c/.G.cover.sol" (Utf8.encode "y") = .ok t₂ := by
    have hLeads : LeadsTo t₁ [] "./c/.G.cover.sol" ["c"] ".G.cover.sol" :=
      ⟨⟨by decide, by decide, by decide⟩, by decide, by decide, by decide, [".", "c"],
        by decide +kernel, by decide +kernel⟩
    exact hLeads.write_file (by decide) (Or.inl (by decide +kernel)) _
  have hThird : t₂.write [] "d/.H.cover.sol" (Utf8.encode "z") = .error .notFound := by
    have hNames : namesOf "d/.H.cover.sol" = (["d", ".H.cover.sol"] : Location) := by decide +kernel
    have hFree : t₂.find? ["d"] = none := by decide +kernel
    rw [write, resolve, if_neg (by decide), if_neg (by decide), if_neg (by decide), hNames, walk,
      if_neg (by decide), if_neg (by decide), if_neg (by decide), if_neg (by decide)]
    simp [hFree]
  have hResult : w.result = .error ⟨"d/.H.cover.sol", .notFound⟩ := by
    show (writeAll t [] [⟨f.file.path, "x"⟩, ⟨g.path, "y"⟩, ⟨h.path, "z"⟩]).result = _
    simp only [writeAll, hF, hG, hH, hFirst, hSecond, hThird, Writing.result]
  obtain ⟨done, -, hEnd, -, hRead⟩ := writeAll_outcome hLinks [] [f] [g, h]
  have hDone : done = [⟨f.file.path, "x"⟩, ⟨g.path, "y"⟩] := by
    rcases hEnd with ⟨-, hAll⟩ | ⟨s, rest, cause, hSplit, -, hError⟩
    · cases hResult.symm.trans hAll
    · have hPath : ("d/.H.cover.sol" : Path) = namePath s.source :=
        congrArg ShadowError.path (Except.error.inj (hResult.symm.trans hError))
      change [⟨f.file.path, "x"⟩, ⟨g.path, "y"⟩, ⟨h.path, "z"⟩] = done ++ s :: rest at hSplit
      rcases done with _ | ⟨a, _ | ⟨b, done⟩⟩ <;>
        simp only [List.nil_append, List.cons_append, List.cons.injEq] at hSplit
      · rw [← hSplit.1, hF] at hPath
        exact absurd hPath (by decide)
      · rw [← hSplit.2.1, hG] at hPath
        exact absurd hPath (by decide)
      · obtain ⟨rfl, rfl, hLast⟩ := hSplit
        cases done with
        | nil => rfl
        | cons c done => simp at hLast
  subst hDone
  have hTexts := hRead (by decide +kernel)
  refine ⟨hLinks, hResult, ?_, ?_⟩
  · rw [← hF]
    exact hTexts ⟨f.file.path, "x"⟩ List.mem_cons_self
  · rw [← hG]
    exact hTexts ⟨g.path, "y"⟩ (List.mem_cons_of_mem _ List.mem_cons_self)

/-- Two paths of one file: the text that was passed through is all that is left. -/
theorem exists_overwritten :
    let t : FileTree := ⟨OrderedMap.ofList [(["c"], .directory)]⟩
    let f : InstrumentedFile := ⟨⟨"c", "F.sol", "s"⟩, "x", OrderedMap.empty⟩
    let g : SourceFile := ⟨"./c", "F.sol", "y"⟩
    let w := writeAll t [] (Instrumentation.shadowTexts [f] [g])
    t.Plain ∧ f.file.path.components ≠ g.path.components ∧
      w.result = .ok ["c/.F.cover.sol", "./c/.F.cover.sol"] ∧
      namePath f.file.path = "c/.F.cover.sol" ∧
      w.tree.readText [] "c/.F.cover.sol" = .ok "y" := by
  intro t f g w
  have hPlain : t.Plain :=
    ⟨⟨by unfold Rooted; decide +kernel, by decide +kernel⟩, noLinks_of_entries (by decide +kernel),
      by decide +kernel⟩
  have hF : namePath f.file.path = "c/.F.cover.sol" := by decide +kernel
  have hG : namePath g.path = "./c/.F.cover.sol" := by decide +kernel
  let t₁ := t.place ["c", ".F.cover.sol"] (.file (Utf8.encode "x"))
  let t₂ := t₁.place ["c", ".F.cover.sol"] (.file (Utf8.encode "y"))
  have hLeads (u : FileTree) (hWay : descend u [] ["c"] = some (["c"] : Location)) :
      LeadsTo u [] "c/.F.cover.sol" ["c"] ".F.cover.sol" :=
    ⟨⟨by decide, by decide, by decide⟩, by decide, by decide, by decide, ["c"],
      by decide +kernel, hWay⟩
  have hFirst : t.write [] "c/.F.cover.sol" (Utf8.encode "x") = .ok t₁ :=
    (hLeads t (by decide +kernel)).write_file (by decide) (Or.inl (by decide +kernel)) _
  have hSecond : t₁.write [] "./c/.F.cover.sol" (Utf8.encode "y") = .ok t₂ := by
    have hLeads' : LeadsTo t₁ [] "./c/.F.cover.sol" ["c"] ".F.cover.sol" :=
      ⟨⟨by decide, by decide, by decide⟩, by decide, by decide, by decide, [".", "c"],
        by decide +kernel, by decide +kernel⟩
    exact hLeads'.write_file (by decide) (Or.inr ⟨Utf8.encode "x", by decide +kernel⟩) _
  have hWritten : w = ⟨t₂, ["c/.F.cover.sol", "./c/.F.cover.sol"], none⟩ := by
    show writeAll t [] [⟨f.file.path, "x"⟩, ⟨g.path, "y"⟩] = _
    simp only [writeAll, hF, hG, hFirst, hSecond]
  have hRead : t₂.read [] "c/.F.cover.sol" = .ok (Utf8.encode "y") := by
    have hFile : t₂.find? ((["c"] : Location) ++ [FileName.ofText ".F.cover.sol"]) =
        some (.file (Utf8.encode "y")) := by decide +kernel
    have hHere := hLeads t₂ (by decide +kernel)
    rw [FileTree.read, hHere.resolve (by decide), walk_file hHere.short hFile]
  refine ⟨hPlain, by decide +kernel, by rw [hWritten]; rfl, hF, ?_⟩
  rw [hWritten, readText, hRead]
  simp only [Utf8.decode?_encode]

end CoverRun.Shadow

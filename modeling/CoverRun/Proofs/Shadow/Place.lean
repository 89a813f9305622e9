import CoverRun.Proofs.FileTree.Overlay
import CoverRun.Proofs.Shadow
import CoverRun.Proofs.Shadow.Name

/-!
# Places of shadows

The shadow of a file stands under a hidden name in the directory that the path of the file has
before its last name (`Shadow.place?`). Where no links stand, writing it puts one file there and
changes nothing else (`Shadow.overlay_write`), so after any number of writes, whether the last one
failed or not, a tree is what it was but for shadows at their places (`Shadow.overlay_writeAll`).
-/

namespace CoverRun.Shadow

open CoverRun.Path FileTree

/-! ## Places -/

theorem namesOf_single {name : FileName} (h : IsName name) : namesOf ⟨name.bytes⟩ = [name] := by
  rw [namesOf, pieces_of_not_mem h.no_slash,
    List.filter_cons_of_pos (by simpa using h.nonempty)]
  rfl

/-- The way to a shadow is that to the parent of its source, and then its own name. -/
theorem namePath_way (cwd : Location) (p : Path) :
    namesOf (namePath p) = p.parent?.elim [] namesOf ++ [nameOf (p.fileName?.getD "")] ∧
      origin cwd (namePath p) = p.parent?.elim cwd (origin cwd) := by
  let shadow := nameOf (p.fileName?.getD "")
  have hName : IsName shadow := isName_nameOf (no_slash_fileName p)
  have hRelative : (Path.mk shadow.bytes).isAbsolute = false := hName.isAbsolute
  have hAlone : namesOf ⟨shadow.bytes⟩ = [] ++ [shadow] ∧ origin cwd ⟨shadow.bytes⟩ = cwd :=
    ⟨namesOf_single hName, by rw [origin, hRelative]; rfl⟩
  rw [namePath]
  cases p.parent? with
  | none => exact hAlone
  | some parent =>
      by_cases hBytes : parent.bytes = []
      · obtain rfl : parent = ⟨[]⟩ := congrArg Path.mk hBytes
        have hJoin : (Path.mk []).join ⟨shadow.bytes⟩ = ⟨shadow.bytes⟩ := empty_join _
        exact ⟨(congrArg namesOf hJoin).trans hAlone.1,
          (congrArg (origin cwd) hJoin).trans hAlone.2⟩
      · refine ⟨namesOf_join hBytes hName, ?_⟩
        show origin cwd (parent.join ⟨shadow.bytes⟩) = origin cwd parent
        rw [origin, origin, isAbsolute_join hBytes hRelative]

/-- Where the shadow of a file stands or would stand: in the directory that the names of its path
lead to, under its own name. -/
def place? (t : FileTree) (cwd : Location) (p : Path) : Option Location :=
  (descend t (origin cwd (namePath p)) (namesOf (namePath p)).dropLast).map
    (· ++ [nameOf (p.fileName?.getD "")])

theorem exists_place {t : FileTree} {cwd : Location} {p : Path} {loc : Location}
    (h : place? t cwd p = some loc) :
    ∃ dir name, loc = dir ++ [name] ∧ name.bytes.head? = some dot := by
  obtain ⟨dir, -, rfl⟩ := Option.map_eq_some_iff.1 h
  exact ⟨dir, _, rfl, head?_nameOf _⟩

theorem place?_of_overlay {t u : FileTree} {locs : List Location} (h : Overlay t locs u)
    (cwd : Location) (p : Path) : place? u cwd p = place? t cwd p := by
  rw [place?, place?, h.descend_eq]

/-! ## Writing -/

section

variable {t u : FileTree} {cwd : Location}

/-- Writing a shadow places one file, where a file or nothing was. -/
theorem write_place (hLinks : t.NoLinks) {p : Path} {content : Bytes}
    (h : t.write cwd (namePath p) content = .ok u) :
    ∃ dir name, place? t cwd p = some (dir ++ [name]) ∧
      (t.find? (dir ++ [name]) = none ∨ ∃ old, t.find? (dir ++ [name]) = some (.file old)) ∧
      u = t.place (dir ++ [name]) (.file content) := by
  have hNames := (namePath_way cwd p).1
  have hPlace {dir : Location} (hWay : descend t (origin cwd (namePath p))
      (p.parent?.elim [] namesOf) = some dir) :
      place? t cwd p = some (dir ++ [nameOf (p.fileName?.getD "")]) := by
    rw [place?, hNames, List.dropLast_concat, hWay]
    rfl
  rw [write] at h
  split at h
  · next loc old hResolve =>
    obtain ⟨dir, hWay, rfl, hStands⟩ := (hNames ▸ leads_of_resolve hLinks hResolve).of_file
    exact ⟨dir, _, hPlace hWay, Or.inr ⟨old, hStands⟩, (Except.ok.inj h).symm⟩
  · cases h
  · cases h
  · next dir name hResolve =>
    obtain ⟨hWay, rfl, hFree⟩ := (hNames ▸ leads_of_resolve hLinks hResolve).of_absent
    exact ⟨dir, _, hPlace hWay, Or.inl hFree, (Except.ok.inj h).symm⟩
  · cases h

/-- **Writing a shadow puts one file at its place.** -/
theorem overlay_write (hLinks : t.NoLinks) {p : Path} {content : Bytes}
    (h : t.write cwd (namePath p) content = .ok u) :
    ∃ loc, place? t cwd p = some loc ∧ Overlay t [loc] u := by
  obtain ⟨dir, name, hPlace, hAdmits, rfl⟩ := write_place hLinks h
  exact ⟨_, hPlace, overlay_place (by simp) hAdmits content⟩

theorem overlay_writeEach (hLinks : t.NoLinks) {texts : List ShadowText}
    (h : writeEach t cwd texts = .ok u) :
    ∃ locs, Overlay t locs u ∧ ∀ loc ∈ locs, ∃ s ∈ texts, place? t cwd s.source = some loc := by
  induction texts generalizing t with
  | nil =>
      obtain rfl := Except.ok.inj h
      exact ⟨[], overlay_refl t, fun loc hLoc => absurd hLoc List.not_mem_nil⟩
  | cons s texts ih =>
      obtain ⟨t', hWrite, hRest⟩ := writeEach_cons_eq_ok_iff.1 h
      obtain ⟨loc, hPlace, hFirst⟩ := overlay_write hLinks hWrite
      obtain ⟨locs, hLater, hPlaces⟩ := ih (hFirst.noLinks hLinks) hRest
      refine ⟨[loc] ++ locs, hFirst.trans hLater, fun loc' hLoc => ?_⟩
      rcases List.mem_append.1 hLoc with hHere | hLoc
      · rw [List.mem_singleton.1 hHere]
        exact ⟨s, List.mem_cons_self, hPlace⟩
      · obtain ⟨s', hMem, hPlace'⟩ := hPlaces loc' hLoc
        rw [place?_of_overlay hFirst] at hPlace'
        exact ⟨s', List.mem_cons_of_mem s hMem, hPlace'⟩

end

/-- **Writing shadows leaves the tree but for files at their places.** -/
theorem overlay_writeAll {t : FileTree} (hLinks : t.NoLinks) (cwd : Location)
    (texts : List ShadowText) :
    ∃ locs, Overlay t locs (writeAll t cwd texts).tree ∧
      ∀ loc ∈ locs, ∃ s ∈ texts, place? t cwd s.source = some loc := by
  obtain ⟨done, hDone, -, hEnd⟩ := writeAll_stops t cwd texts
  obtain ⟨locs, hOverlay, hPlaces⟩ := overlay_writeEach hLinks hDone
  have hMem : ∀ s ∈ done, s ∈ texts := by
    rcases hEnd with ⟨rfl, -⟩ | ⟨s, rest, cause, rfl, -⟩
    · exact fun s hs => hs
    · exact fun s' hs => List.mem_append_left _ hs
  refine ⟨locs, hOverlay, fun loc hLoc => ?_⟩
  obtain ⟨s, hs, hPlace⟩ := hPlaces loc hLoc
  exact ⟨s, hMem s hs, hPlace⟩

end CoverRun.Shadow

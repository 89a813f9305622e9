import CoverRun.Proofs.FileTree.Growth
import CoverRun.Proofs.FileTree.Location
import CoverRun.Proofs.FileTree.Written
import CoverRun.Proofs.Settings.RoundTrip
import CoverRun.Setup

/-!
# Setting up changes no plan

A run on a project succeeds unless a file stands where the directory for settings belongs
(`Setup.exists_run_iff`). It leaves the tree as it is if a settings file is there, and otherwise
puts the standard settings where nothing was (`Setup.leaves_of_run`). These are the settings that a
project without a file has, so plans come out as before (`Setup.plan_unchanged_by_run`). The file is
written under the path that was given, and plans look for it under the path of the location: that
both lead to one place, if anywhere, is what links inside the project could spoil.
-/

namespace CoverRun

open FileTree CoverRun.Path

/-- Where the settings file of a project stands. -/
def Settings.place (project : Location) : Location :=
  project ++ [.ofText directoryName, .ofText fileName]

/-- The text that a new settings file holds. -/
def Settings.standardText : String := String.ofList (Toml.writeBlocks standard.blocks)

theorem Settings.write?_standard : standard.write? = some standardText :=
  write?_eq_some_iff.2 ⟨by decide +kernel, rfl⟩

theorem Settings.place_eq (project : Location) :
    place project = project ++ [.ofText directoryName] ++ [.ofText fileName] := by
  rw [place, List.append_assoc]
  rfl

namespace Setup

/-- A project directory without links in it. -/
structure IsProject (t : FileTree) (cwd : Location) (project : Path) (loc : Location) : Prop where
  wellFormed : t.WellFormed
  working : t.find? cwd = some .directory
  directory : t.directory? cwd project = some loc
  noLinks : ∀ names target, t.find? (loc ++ names) ≠ some (.link target)

/-- What a run leaves behind: a settings file that was there, or the standard settings where nothing
was, and whether they are new. -/
inductive Leaves (t : FileTree) (loc : Location) : FileTree → Bool → Prop
  | kept {e : Entry} (stands : t.find? (Settings.place loc) = some e) : Leaves t loc t false
  | created {u : FileTree} (free : t.find? (Settings.place loc) = none) (grown : t.GrowsTo u)
      (written : u.find? (Settings.place loc) =
        some (.file (Utf8.encode Settings.standardText))) : Leaves t loc u true

section

variable {t u : FileTree} {cwd loc : Location} {project : Path} {setup : Setup}

theorem IsProject.find? (h : IsProject t cwd project loc) : t.find? loc = some .directory :=
  resolve_holds h.wellFormed.rooted h.working (directory?_eq_some_iff.1 h.directory)

/-- A project stays one when an entry that is no link is put where nothing was. -/
theorem IsProject.place (h : IsProject t cwd project loc) {parent : Location} {name : FileName}
    (hParent : t.find? parent = some .directory) (hFree : t.find? (parent ++ [name]) = none)
    (hName : IsName name) {e : Entry} (hLink : ∀ target, e ≠ .link target) :
    IsProject (t.place (parent ++ [name]) e) cwd project loc := by
  have hGrown : t.GrowsTo (t.place (parent ++ [name]) e) := growsTo_place hFree e
  refine ⟨h.wellFormed.place_absent ⟨hParent, hFree, hName⟩ e, hGrown _ _ h.working,
    hGrown.directory? h.directory, fun names target hFind => ?_⟩
  rw [find?_place (by simp)] at hFind
  split at hFind
  · exact hLink target (Option.some.inj hFind)
  · exact h.noLinks names target hFind

/-! ## The directory for settings -/

theorem makeDirectories_iff (h : IsProject t cwd project loc) :
    t.makeDirectories cwd (Settings.directory project) = (u, .ok ()) ↔
      IsPassable (Settings.directory project) ∧
        (t.find? (loc ++ [.ofText Settings.directoryName]) = some .directory ∧ u = t ∨
          t.find? (loc ++ [.ofText Settings.directoryName]) = none ∧
            u = t.place (loc ++ [.ofText Settings.directoryName]) .directory) :=
  makeDirectories_join_iff h.directory (by decide) (by decide) (h.noLinks _)

theorem IsProject.makeDirectories (h : IsProject t cwd project loc)
    (hMake : t.makeDirectories cwd (Settings.directory project) = (u, .ok ())) :
    IsProject u cwd project loc ∧ t.GrowsTo u ∧
      u.find? (loc ++ [.ofText Settings.directoryName]) = some .directory ∧
      u.find? (Settings.place loc) = t.find? (Settings.place loc) := by
  obtain ⟨-, ⟨hThere, rfl⟩ | ⟨hFree, rfl⟩⟩ := (makeDirectories_iff h).1 hMake
  · exact ⟨h, .refl u, hThere, rfl⟩
  · refine ⟨h.place h.find? hFree (by decide) (by simp), growsTo_place hFree _, ?_, ?_⟩
    · rw [find?_place (by simp), if_pos rfl]
    · rw [find?_place (by simp), if_neg (by simp [Settings.place])]

/-! ## The settings file -/

theorem resolve_file (h : IsProject t cwd project loc)
    (hThere : t.find? (loc ++ [.ofText Settings.directoryName]) = some .directory)
    (hDirectory : IsPassable (Settings.directory project))
    (hFile : IsPassable (Settings.file project)) (last : LastName) :
    t.resolve cwd (Settings.file project) last =
      .ok (t.lookUp (loc ++ [.ofText Settings.directoryName]) Settings.fileName) := by
  have hInner : t.directory? cwd (Settings.directory project) =
      some (loc ++ [.ofText Settings.directoryName]) :=
    directory?_join h.directory (by decide) (by decide) hThere hDirectory
  refine resolve_join hInner (by decide) (by decide) ?_ hFile last
  rw [List.append_assoc]
  exact h.noLinks _

theorem run_of_stands (h : IsProject t cwd project loc) {e : Entry}
    (hStands : t.find? (Settings.place loc) = some e)
    (hDirectory : IsPassable (Settings.directory project))
    (hFile : IsPassable (Settings.file project)) :
    run t cwd project =
      (t, .ok ⟨Settings.directory project, Settings.file project, false⟩) := by
  rw [Settings.place_eq] at hStands
  have hThere : t.find? (loc ++ [.ofText Settings.directoryName]) = some .directory :=
    h.wellFormed.rooted.find?_of_append (List.cons_ne_nil _ _) hStands
  have hMake := (makeDirectories_iff h).2 ⟨hDirectory, Or.inl ⟨hThere, rfl⟩⟩
  have hResolve := resolve_file h hThere hDirectory hFile .followed
  rw [lookUp_of_some hStands] at hResolve
  simp only [run, hMake, exists?, hResolve, if_true]

theorem run_of_free (h : IsProject t cwd project loc)
    (hFree : t.find? (Settings.place loc) = none)
    (hMake : t.makeDirectories cwd (Settings.directory project) = (u, .ok ()))
    (hFile : IsPassable (Settings.file project)) :
    run t cwd project =
      (u.place (Settings.place loc) (.file (Utf8.encode Settings.standardText)),
        .ok ⟨Settings.directory project, Settings.file project, true⟩) := by
  obtain ⟨hProject, -, hThere, hSame⟩ := h.makeDirectories hMake
  have hResolve := resolve_file hProject hThere ((makeDirectories_iff h).1 hMake).1 hFile
  rw [hFree, Settings.place_eq] at hSame
  simp only [run, hMake, exists?, hResolve, Settings.write?_standard, FileTree.write,
    lookUp_of_none hSame, Bool.false_eq_true, if_false, Settings.place_eq]

theorem exists_makeDirectories (hRun : run t cwd project = (u, .ok setup)) :
    (∃ v, t.makeDirectories cwd (Settings.directory project) = (v, .ok ())) ∧
      IsPassable (Settings.file project) := by
  simp only [run, Settings.write?_standard] at hRun
  split at hRun
  · cases hRun
  next v hMake =>
  refine ⟨⟨v, hMake⟩, ?_⟩
  split at hRun
  · next hExists =>
    obtain ⟨_, _, hResolve⟩ := exists?_eq_true_iff.1 hExists
    exact isPassable_of_resolve hResolve
  · split at hRun
    · cases hRun
    · next hWrite =>
      obtain ⟨_, _, hResolve, -, -⟩ := exists_place_of_write hWrite
      exact isPassable_of_resolve hResolve

/-- **A run succeeds exactly if no file stands where the directory belongs** and both paths can be
handed over. -/
theorem exists_run_iff (h : IsProject t cwd project loc) :
    (∃ u setup, run t cwd project = (u, .ok setup)) ↔
      IsPassable (Settings.directory project) ∧ IsPassable (Settings.file project) ∧
        ∀ content, t.find? (loc ++ [.ofText Settings.directoryName]) ≠ some (.file content) := by
  constructor
  · rintro ⟨u, setup, hRun⟩
    obtain ⟨⟨v, hMake⟩, hFile⟩ := exists_makeDirectories hRun
    obtain ⟨hDirectory, hStands⟩ := (makeDirectories_iff h).1 hMake
    refine ⟨hDirectory, hFile, fun content hContent => ?_⟩
    rw [hContent] at hStands
    simp at hStands
  · rintro ⟨hDirectory, hFile, hNoFile⟩
    have hMake : ∃ v, t.makeDirectories cwd (Settings.directory project) = (v, .ok ()) := by
      simp only [makeDirectories_iff h]
      cases hFind : t.find? (loc ++ [.ofText Settings.directoryName]) with
      | none => exact ⟨_, hDirectory, Or.inr ⟨rfl, rfl⟩⟩
      | some e =>
          cases e with
          | directory => exact ⟨t, hDirectory, Or.inl ⟨rfl, rfl⟩⟩
          | file content => exact absurd hFind (hNoFile content)
          | link target => exact absurd hFind (h.noLinks _ target)
    obtain ⟨v, hMake⟩ := hMake
    cases hFind : t.find? (Settings.place loc) with
    | some e => exact ⟨_, _, run_of_stands h hFind hDirectory hFile⟩
    | none => exact ⟨_, _, run_of_free h hFind hMake hFile⟩

/-- **A run that succeeds keeps a settings file or creates one.** -/
theorem leaves_of_run (h : IsProject t cwd project loc)
    (hRun : run t cwd project = (u, .ok setup)) :
    setup = ⟨Settings.directory project, Settings.file project, setup.created⟩ ∧
      IsProject u cwd project loc ∧ Leaves t loc u setup.created := by
  obtain ⟨⟨v, hMake⟩, hFile⟩ := exists_makeDirectories hRun
  have hDirectory : IsPassable (Settings.directory project) := ((makeDirectories_iff h).1 hMake).1
  cases hFind : t.find? (Settings.place loc) with
  | some e =>
      rw [run_of_stands h hFind hDirectory hFile] at hRun
      cases hRun
      exact ⟨rfl, h, .kept hFind⟩
  | none =>
      obtain ⟨hProject, hGrown, hThere, hSame⟩ := h.makeDirectories hMake
      rw [run_of_free h hFind hMake hFile] at hRun
      cases hRun
      rw [hFind] at hSame
      have hPlaced : v.GrowsTo
          (v.place (Settings.place loc) (.file (Utf8.encode Settings.standardText))) :=
        growsTo_place hSame _
      refine ⟨rfl, ?_, .created hFind (hGrown.trans hPlaced) ?_⟩
      · rw [Settings.place_eq] at hSame ⊢
        exact hProject.place hThere hSame (by decide) (by simp)
      · rw [find?_place (by simp [Settings.place]), if_pos rfl]

/-! ## Plans -/

theorem namesOf_file (h : ∀ n ∈ loc, IsName n) :
    namesOf (Settings.file loc.path) = Settings.place loc ∧
      (Settings.file loc.path).isAbsolute = true := by
  have hDirectory : IsName Settings.directoryName := by decide
  have hFile : IsName Settings.fileName := by decide
  have hOuter : Settings.directory loc.path =
      loc.path.join ⟨(FileName.ofText Settings.directoryName).bytes⟩ := rfl
  have hInner : Settings.file loc.path =
      (Settings.directory loc.path).join ⟨(FileName.ofText Settings.fileName).bytes⟩ := rfl
  have hNonempty : (Settings.directory loc.path).bytes ≠ [] :=
    bytes_join_ne (bytes_path_ne loc) hDirectory.isAbsolute
  refine ⟨?_, ?_⟩
  · rw [hInner, namesOf_join hNonempty hFile, hOuter, namesOf_join (bytes_path_ne loc) hDirectory,
      namesOf_path h, Settings.place_eq]
  · rw [hInner, isAbsolute_join hNonempty hFile.isAbsolute, hOuter,
      isAbsolute_join (bytes_path_ne loc) hDirectory.isAbsolute, isAbsolute_path]

theorem IsProject.noLink_before (h : IsProject t cwd project loc) {before after : Location}
    (hSplit : Settings.place loc = before ++ after) (target : Path) :
    t.find? before ≠ some (.link target) := by
  obtain ⟨inner, hBefore, -⟩ | ⟨inner, hLoc, -⟩ := List.append_eq_append_iff.1 hSplit
  · rw [hBefore]
    exact h.noLinks inner target
  · have hDirectory : t.find? before = some .directory := by
      have hFind := h.find?
      rw [hLoc] at hFind
      by_cases hEmpty : inner = []
      · simpa [hEmpty] using hFind
      · exact h.wellFormed.rooted.find?_of_append hEmpty hFind
    simp [hDirectory]

/-- What the path of a settings file leads to from the root stands at its place. -/
theorem find?_of_resolve_file (h : IsProject t cwd project loc) {found : Location} {e : Entry}
    (hResolve : t.resolve cwd (Settings.file loc.path) .followed = .ok (.present found e)) :
    t.find? (Settings.place loc) = some e := by
  have hNames : ∀ n ∈ loc, IsName n := h.wellFormed.named_of_find? h.find?
  have hOwn : ∀ n ∈ ([Settings.directoryName, Settings.fileName] : Location), IsName n := by decide
  obtain ⟨hSpelled, hStart⟩ := namesOf_file hNames
  have hWalk := (walk_of_resolve hResolve).2
  rw [hSpelled, hStart, if_pos rfl] at hWalk
  have hFound : found = [] ++ Settings.place loc := by
    refine walk_names (fun n hn => ?_) (fun before after target hSplit _ => ?_) hWalk
    · exact (List.mem_append.1 hn).elim (hNames n) (hOwn n)
    · exact h.noLink_before hSplit target
  have hHolds : t.find? found = some e := resolve_holds h.wellFormed.rooted h.working hResolve
  rwa [hFound] at hHolds

theorem loadOrStandard_of_standard (h : IsProject t cwd project loc)
    (hStandard : ∀ e, t.find? (Settings.place loc) = some e →
      e = .file (Utf8.encode Settings.standardText)) :
    Settings.loadOrStandard t cwd loc.path = .ok Settings.standard := by
  rw [Settings.loadOrStandard]
  split
  · next hExists =>
    obtain ⟨found, e, hResolve⟩ := exists?_eq_true_iff.1 hExists
    obtain rfl := hStandard e (find?_of_resolve_file h hResolve)
    have hRead : t.read cwd (Settings.file loc.path) =
        .ok (Utf8.encode Settings.standardText) := by rw [FileTree.read, hResolve]
    exact Settings.load_of_readText Settings.write?_standard (readText_of_read hRead)
  · rfl

theorem plan_eq (h : IsProject t cwd project loc) (h' : IsProject u cwd project loc)
    (hSettings : Settings.loadOrStandard u cwd loc.path = Settings.loadOrStandard t cwd loc.path)
    (o : Overrides) : Plan.load u cwd project none o = Plan.load t cwd project none o := by
  have hLocate {v : FileTree} (hProject : IsProject v cwd project loc) :
      v.locate cwd project = .ok loc := by
    rw [locate, directory?_eq_some_iff.1 hProject.directory]
  simp only [Plan.load, hLocate h, hLocate h', hSettings]

section

variable {created : Bool} (hLeaves : Leaves t loc u created)

include hLeaves

theorem Leaves.growsTo : t.GrowsTo u := by
  cases hLeaves with
  | kept stands => exact .refl t
  | created free grown written => exact grown

theorem Leaves.created_iff : created = true ↔ t.find? (Settings.place loc) = none := by
  cases hLeaves with
  | kept stands => simp [stands]
  | created free grown written => simp [free]

theorem Leaves.exists_stands : ∃ e, u.find? (Settings.place loc) = some e := by
  cases hLeaves with
  | kept stands => exact ⟨_, stands⟩
  | created free grown written => exact ⟨_, written⟩

theorem Leaves.loadOrStandard_eq (h : IsProject t cwd project loc)
    (h' : IsProject u cwd project loc) :
    Settings.loadOrStandard u cwd loc.path = Settings.loadOrStandard t cwd loc.path := by
  cases hLeaves with
  | kept stands => rfl
  | created free grown written =>
      rw [loadOrStandard_of_standard h (by simp [free]),
        loadOrStandard_of_standard h' (by simp [written])]

end

/-- **Setting a project up changes no plan.** Whatever is in the settings file, and with or without
one, a run that succeeds leaves all that was there as it was, creates a file exactly if there was
none, and every plan comes out the same, or fails in the same way. Another run succeeds, creates
nothing and changes nothing. -/
theorem plan_unchanged_by_run (h : IsProject t cwd project loc)
    (hRun : run t cwd project = (u, .ok setup)) :
    (∀ o, Plan.load u cwd project none o = Plan.load t cwd project none o) ∧
      (∀ place e, t.find? place = some e → u.find? place = some e) ∧
      (setup.created = true ↔ t.find? (Settings.place loc) = none) ∧
      run u cwd project = (u, .ok { setup with created := false }) := by
  obtain ⟨hSetup, hProject, hLeaves⟩ := leaves_of_run h hRun
  refine ⟨plan_eq h hProject (hLeaves.loadOrStandard_eq h hProject), hLeaves.growsTo,
    hLeaves.created_iff, ?_⟩
  obtain ⟨⟨v, hMake⟩, hFile⟩ := exists_makeDirectories hRun
  obtain ⟨e, hStands⟩ := hLeaves.exists_stands
  rw [run_of_stands hProject hStands ((makeDirectories_iff h).1 hMake).1 hFile, hSetup]

end

/-- A project in a directory of its own, without settings. -/
theorem plan_unchanged_by_run_fresh :
    let t := FileTree.empty.place ["p"] .directory
    let settled := t.place ["p", ".solcover"] .directory
    let u := settled.place ["p", ".solcover", "solcover.toml"]
      (.file (Utf8.encode Settings.standardText))
    let setup : Setup := ⟨"/p/.solcover", "/p/.solcover/solcover.toml", true⟩
    IsProject t [] "/p" ["p"] ∧ run t [] "/p" = (u, .ok setup) ∧
      (∀ o, Plan.load u [] "/p" none o = Plan.load t [] "/p" none o) ∧
      (∀ place e, t.find? place = some e → u.find? place = some e) ∧
      (setup.created = true ↔ t.find? ["p", ".solcover", "solcover.toml"] = none) ∧
      run u [] "/p" = (u, .ok { setup with created := false }) := by
  intro t settled u setup
  have hTree : t.WellFormed := ⟨by unfold Rooted; decide +kernel, by decide +kernel⟩
  have hLinks : t.NoLinks := noLinks_of_entries (by decide +kernel)
  have hSpelled : IsSpelled ["p"] := by decide +kernel
  have h : IsProject t [] "/p" ["p"] :=
    ⟨hTree, rfl, directory?_path hTree.rooted [] hSpelled rfl, fun names => hLinks (_ ++ names)⟩
  have hMake : t.makeDirectories [] (Settings.directory "/p") = (settled, .ok ()) :=
    (makeDirectories_iff h).2 ⟨⟨by decide, by decide, by decide +kernel⟩, Or.inr ⟨by decide, rfl⟩⟩
  have hRun : run t [] "/p" = (u, .ok setup) :=
    run_of_free h (by decide) hMake ⟨by decide, by decide, by decide +kernel⟩
  exact ⟨h, hRun, plan_unchanged_by_run h hRun⟩

end Setup

end CoverRun

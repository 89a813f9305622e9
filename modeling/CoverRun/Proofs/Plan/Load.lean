import CoverRun.Plan.Load
import CoverRun.Proofs.FileTree.Location
import CoverRun.Proofs.Path.Parent
import CoverRun.Proofs.Plan
import CoverRun.Proofs.Text.Utf8

/-!
# Plans that are loaded

A plan that is loaded is one that settings make for the location of its project
(`Plan.exists_location_of_load`). So its roots are absolute (`Plan.isAbsolute_root_of_load`), and
its stages have their names.
-/

namespace CoverRun.Plan

open Outcome

theorem name_of_commandOf {stage : StageName} {words : List String} {command : StageCommand}
    (h : commandOf stage words = .ok command) : command.name = stage.text := by
  cases words with
  | nil => cases h
  | cons program arguments =>
      by_cases hBlank : Blank.isBlankText program = true
      · simp [commandOf, StageCommand.ofWords?, hBlank] at h
      · simp only [commandOf, StageCommand.ofWords?, if_neg hBlank] at h
        exact (congrArg StageCommand.name (Except.ok.inj h)).symm

section

variable {t : FileTree} {cwd : Location} {project : Path} {named : Option Path} {o : Overrides}
  {plan : Plan}

/-- **A loaded plan is made for the location of its project.** -/
theorem exists_location_of_load (h : load t cwd project named o = .ok plan) :
    ∃ loc : Location, ∃ s, t.locate cwd project = .ok loc ∧ Accepts loc.path s o plan := by
  rw [load] at h
  split at h
  · cases h
  · next loc hLocated =>
    rcases named with _ | file
    all_goals
      obtain ⟨s, -, hPlan⟩ := bind_eq_ok_iff.1 h
      beta_reduce at hPlan
      split at hPlan
      · next plan' hSettings =>
        obtain rfl := Except.ok.inj hPlan
        exact ⟨loc, s, hLocated, ofSettings_eq_ok_iff.1 hSettings⟩
      · cases hPlan

theorem exists_settings_of_load (h : load t cwd project named o = .ok plan) :
    ∃ path s, Accepts path s o plan := by
  obtain ⟨loc, s, -, hAccepts⟩ := exists_location_of_load h
  exact ⟨loc.path, s, hAccepts⟩

theorem isAbsolute_resolve (hProject : project.isAbsolute = true) (path : Path) :
    (resolve project path).isAbsolute = true := by
  rw [Path.isAbsolute_iff, components_resolve, ← Path.isAbsolute_iff]
  cases hRelative : path.isAbsolute with
  | true => rwa [Path.join, if_pos hRelative]
  | false =>
      have hBytes : project.bytes ≠ [] := by
        intro hEmpty
        simp [Path.isAbsolute, hEmpty] at hProject
      rwa [FileTree.isAbsolute_join hBytes hRelative]

theorem Accepts.isAbsolute_root {s : Settings} (h : Accepts project s o plan)
    (hProject : project.isAbsolute = true) {root : SourceRoot} (hRoot : root ∈ plan.roots) :
    root.path.isAbsolute = true := by
  obtain ⟨r, -, hPath⟩ := h.exists_resolve hRoot
  rw [hPath]
  exact isAbsolute_resolve hProject r.path

theorem isAbsolute_root_of_load (h : load t cwd project named o = .ok plan) {root : SourceRoot}
    (hRoot : root ∈ plan.roots) : root.path.isAbsolute = true := by
  obtain ⟨loc, s, -, hAccepts⟩ := exists_location_of_load h
  exact hAccepts.isAbsolute_root (FileTree.isAbsolute_path loc) hRoot

theorem bytes_project_of_load (h : load t cwd project named o = .ok plan) :
    plan.project.bytes ≠ [] := by
  obtain ⟨loc, s, -, hAccepts⟩ := exists_location_of_load h
  rw [hAccepts.project_eq]
  exact FileTree.bytes_path_ne loc

theorem pairwise_normalize_of_load (h : load t cwd project named o = .ok plan) :
    plan.roots.Pairwise fun a b => a.path.normalize ≠ b.path.normalize := by
  obtain ⟨path, s, hAccepts⟩ := exists_settings_of_load h
  exact List.pairwise_map.1 (rootsOf_spec hAccepts.roots).2

theorem load_of_settings {loc : Location} {s : Settings} (hProject : t.locate cwd project = .ok loc)
    (hSettings : Settings.loadOrStandard t cwd loc.path = .ok s)
    (hPlan : ofSettings loc.path s o = .ok plan) : load t cwd project none o = .ok plan := by
  rw [load, hProject]
  refine bind_eq_ok_iff.2 ⟨s, hSettings, ?_⟩
  simp only [hPlan]

/-- A plan is made from the settings file of a project that stands where its own path says. -/
theorem load_of_file {loc dir : Location} {name : FileName} {text : String} {s : Settings}
    (hRooted : t.Rooted) (hLoc : FileTree.IsSpelled loc) (hFind : t.find? loc = some .directory)
    (hPath : Settings.file loc.path = (dir ++ [name]).path)
    (hSpelled : FileTree.IsSpelled (dir ++ [name])) (hDir : t.find? dir = some .directory)
    (hFile : t.find? (dir ++ [name]) = some (.file (Utf8.encode text)))
    (hParse : Settings.parse text = .ok s) (hPlan : ofSettings loc.path s o = .ok plan) :
    load t cwd loc.path none o = .ok plan := by
  have hProject : t.locate cwd loc.path = .ok loc := by
    have hFound := FileTree.directory?_path hRooted cwd hLoc hFind
    rw [FileTree.locate, FileTree.directory?_eq_some_iff.1 hFound]
  have hResolve := FileTree.resolve_path_file hRooted cwd hSpelled hDir hFile .followed
  rw [← hPath] at hResolve
  refine load_of_settings hProject ?_ hPlan
  simp only [Settings.loadOrStandard, FileTree.exists?, hResolve, if_true, Settings.load,
    FileTree.readText, FileTree.read, Utf8.decode?_encode, hParse]

theorem names_of_load (h : load t cwd project named o = .ok plan) :
    plan.generate.name = "generate" ∧ plan.test.name = "test" := by
  obtain ⟨path, s, hAccepts⟩ := exists_settings_of_load h
  exact ⟨name_of_commandOf hAccepts.generate, name_of_commandOf hAccepts.test⟩

end

end CoverRun.Plan

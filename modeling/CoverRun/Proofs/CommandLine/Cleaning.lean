import CoverRun.Proofs.CommandLine
import CoverRun.Proofs.Json.WrittenNumber
import CoverRun.Proofs.Path.Remainder
import CoverRun.Proofs.Shadow.Listing
import Mathlib.Data.List.Perm.Subperm

/-!
# What cleaning does

Cleaning succeeds exactly if all that it lists is in reach, and then it removes the shadow files
below the roots that are directories, and nothing else. What it reports is what it listed before. So
the report is right exactly if nothing was listed twice, which happens below nested roots
(`CommandLine.run_clean`).
-/

namespace CoverRun.CommandLine

open CoverRun.Path FileTree Shadow

/-! ## What is reported -/

/-- The text that says which files were removed, and how many they are. -/
def removalText (shown : List String) (count : Nat) : String :=
  if count = 0 then "No shadow files found\n"
  else
    String.join (shown.map fun name => "  -" ++ name ++ "\n") ++
      "Removed " ++ toString count ++ " shadow file(s)\n"

/-- A text shows a path that leads, from within the project, to what stands at a location. -/
def Shows (t : FileTree) (cwd : Location) (plan : Plan) (text : String) (loc : Location) : Prop :=
  ∃ shown p e, Path.text shown = text ∧ (plan.project.join shown).components = p.components ∧
    t.resolve cwd p .named = .ok (.present loc e)

/-- A text says truly which shadow files below the roots there were to be removed: each of them is
shown once, and counted once. -/
def Truthful (t : FileTree) (cwd : Location) (plan : Plan) (text : String) : Prop :=
  ∃ shown removed, List.Forall₂ (Shows t cwd plan) shown removed ∧ removed.Nodup ∧
    (∀ loc, loc ∈ removed ↔ ShadowBelow t cwd plan.roots loc) ∧
      text = removalText shown removed.length

theorem cleaned_eq (plan : Plan) (paths : List Path) :
    Screen.cleaned plan paths = removalText (paths.map plan.display) paths.length := by
  cases paths with
  | nil => rfl
  | cons p paths =>
      rw [Screen.cleaned, removalText, if_neg (by simp), if_neg (by simp), Screen.ofLines,
        List.map_append, String.join_append, List.map_map, List.map_map]
      simp [Function.comp_def, String.append_assoc]

/-- The number at the end of a text. -/
theorem digits_of_append {front front' : String} {n m : Nat}
    (h : front ++ " " ++ toString n = front' ++ " " ++ toString m) : n = m := by
  have hDigits (front : String) (n : Nat) :
      (front ++ " " ++ toString n).toList.reverse.takeWhile Char.isDigit =
        (Nat.toDigits 10 n).reverse := by
    have hAll : ∀ c ∈ (Nat.toDigits 10 n).reverse, c.isDigit = true := by
      intro c hc
      exact Nat.isDigit_of_mem_toDigits (by decide) (by decide) (List.mem_reverse.1 hc)
    rw [String.toList_append, String.toList_append, List.reverse_append, Nat.toString_eq_repr,
      Nat.toList_repr, List.takeWhile_append_of_pos hAll]
    simp
  have hSame := hDigits front n
  rw [h, hDigits front' m, List.reverse_inj] at hSame
  rw [← Json.digitsValue_toDigits n, ← hSame, Json.digitsValue_toDigits]

theorem removalText_ne {shown shown' : List String} {count : Nat} (h : count ≠ 0) :
    removalText shown count ≠ removalText shown' 0 := by
  intro hEq
  rw [removalText, removalText, if_neg h, if_pos rfl] at hEq
  have hSplit : "No shadow files found\n".toList =
      "No sha".toList ++ "dow files found\n".toList := by decide
  have hChars := congrArg String.toList hEq
  rw [String.toList_append, hSplit] at hChars
  exact absurd (List.append_inj' hChars (by decide)).2 (by decide)

/-- **A report has one number of files.** -/
theorem count_of_removalText {shown shown' : List String} {count count' : Nat}
    (h : removalText shown count = removalText shown' count') : count = count' := by
  by_cases hNone : count = 0
  · subst hNone
    by_contra hSome
    exact removalText_ne (Ne.symm hSome) h.symm
  · by_cases hNone' : count' = 0
    · subst hNone'
      exact absurd h (removalText_ne hNone)
    · rw [removalText, removalText, if_neg hNone, if_neg hNone', String.append_left_inj] at h
      have hSplit : "Removed " = "Removed" ++ " " := by decide
      rw [hSplit, ← String.append_assoc, ← String.append_assoc] at h
      exact digits_of_append h

/-- What is shown of a path is the same path from within the project. -/
theorem components_join_display {plan : Plan} (hProject : plan.project.bytes ≠ []) {p : Path}
    (hp : p.isAbsolute = true) : ∃ shown, Path.text shown = plan.display p ∧
      (plan.project.join shown).components = p.components := by
  refine ⟨_, rfl, ?_⟩
  cases hRemainder : p.remainder? plan.project with
  | none =>
      rw [Option.getD_none, join, if_pos hp]
  | some r => exact components_join_remainder hp hProject hRemainder

section

variable {w : World} {project : Path} {settings : Option Path} {plan : Plan}

theorem shows_of_mem_spots (hPlain : w.tree.Plain) {o : Overrides}
    (hPlan : Plan.load w.tree w.cwd project settings o = .ok plan) {s : Spot}
    (hs : s ∈ spots w.tree w.cwd plan.roots)
    (hShort : s.path.bytes.length < pathLimit) :
    Shows w.tree w.cwd plan (plan.display s.path) s.place := by
  obtain ⟨⟨root, hRoot, hSame⟩, hDirectory, -, ⟨content, hFile⟩, -⟩ :=
    (mem_spots hPlain.wellFormed).1 hs
  obtain ⟨dir, name, content, hLeads, hPlace, hFile⟩ := leadsTo_of_mem_spots hPlain hs
  have hAbsolute : s.path.isAbsolute = true := by
    have hNonempty : s.root.bytes ≠ [] :=
      (walk_of_resolve (directory?_eq_some_iff.1 hDirectory)).1
    have hNames : ∀ n ∈ s.names, IsName n := by
      intro n hn
      exact (hPlain.names hFile n (hPlace ▸ List.mem_append_right s.base hn)).1
    rw [Spot.path, isAbsolute_join hNonempty (isAbsolute_ofNames hNames), hSame]
    exact Plan.isAbsolute_root_of_load hPlan hRoot
  obtain ⟨shown, hShown, hSame⟩ :=
    components_join_display (Plan.bytes_project_of_load hPlan) hAbsolute
  refine ⟨shown, s.path, .file content, hShown, hSame, ?_⟩
  rw [hPlace]
  exact hLeads.resolve_file hShort hFile

/-- **The report is true exactly if roots are not nested around a shadow file.** -/
theorem truthful_iff (hPlain : w.tree.Plain) {o : Overrides}
    (hPlan : Plan.load w.tree w.cwd project settings o = .ok plan)
    (hShort : ∀ s ∈ spots w.tree w.cwd plan.roots, s.path.bytes.length < pathLimit) :
    Truthful w.tree w.cwd plan
        (Screen.cleaned plan ((spots w.tree w.cwd plan.roots).map Spot.path)) ↔
      ¬ Nested w.tree w.cwd plan.roots := by
  have hNodup : ((spots w.tree w.cwd plan.roots).map Spot.place).Nodup ↔
      ¬ Nested w.tree w.cwd plan.roots :=
    nodup_places_iff hPlain.wellFormed (pairwise_directories hPlain.noLinks hPlan)
  rw [← hNodup, cleaned_eq, List.map_map, List.length_map]
  constructor
  · rintro ⟨shown, removed, -, hOnce, hMem, hText⟩
    have hCount : removed.length = ((spots w.tree w.cwd plan.roots).map Spot.place).length := by
      rw [List.length_map]
      exact (count_of_removalText hText).symm
    have hSubset : removed ⊆ (spots w.tree w.cwd plan.roots).map Spot.place := by
      intro loc hLoc
      exact (mem_places_iff hPlain.wellFormed).2 ((hMem loc).1 hLoc)
    have hPerm := (List.subperm_of_subset hOnce hSubset).perm_of_length_le hCount.ge
    exact hPerm.nodup_iff.1 hOnce
  · intro hOnce
    have hShown : List.Forall₂ (Shows w.tree w.cwd plan)
        ((spots w.tree w.cwd plan.roots).map (plan.display ∘ Spot.path))
        ((spots w.tree w.cwd plan.roots).map Spot.place) := by
      rw [List.forall₂_map_left_iff, List.forall₂_map_right_iff, List.forall₂_same]
      intro s hs
      exact shows_of_mem_spots hPlain hPlan hs (hShort s hs)
    refine ⟨_, _, hShown, hOnce, fun loc => mem_places_iff hPlain.wellFormed, ?_⟩
    rw [List.length_map]

/-! ## What cleaning comes to -/

/-- The shadow files below the roots are gone, and all else is as it was. -/
structure Cleaned (t : FileTree) (cwd : Location) (roots : List SourceRoot) (t' : FileTree) :
    Prop where
  gone : ∀ loc, ShadowBelow t cwd roots loc → t'.find? loc = none
  kept : ∀ loc, ¬ ShadowBelow t cwd roots loc → t'.find? loc = t.find? loc

theorem cleaned_without {t : FileTree} (hTree : t.WellFormed) (cwd : Location)
    (roots : List SourceRoot) :
    Cleaned t cwd roots (t.without ((spots t cwd roots).map Spot.place)) := by
  have hRoot : [] ∉ (spots t cwd roots).map Spot.place := by
    intro hMem
    obtain ⟨content, hFile⟩ := ((mem_places_iff hTree).1 hMem).stands.file
    cases hFile
  constructor
  · intro loc hLoc
    rw [find?_without hRoot, if_pos ((mem_places_iff hTree).2 hLoc)]
  · intro loc hLoc
    rw [find?_without hRoot, if_neg (mt (mem_places_iff hTree).1 hLoc)]

/-- What is in reach is removed and reported. -/
theorem clean_of_inReach (hPlain : w.tree.Plain)
    (hPlan : Plan.load w.tree w.cwd project settings Overrides.none = .ok plan)
    (hReach : InReach w.tree w.cwd plan.roots) :
    clean true project settings w =
      (World.print
        { w with tree := w.tree.without ((spots w.tree w.cwd plan.roots).map Spot.place) } .output
          (Screen.cleaned plan ((spots w.tree w.cwd plan.roots).map Spot.path)), .ok ()) := by
  obtain ⟨shadows, hShadows, hShort⟩ := (inReach_iff hPlain.wellFormed).1 hReach
  have hListed := eq_spots_of_shadowsOf hPlain.wellFormed hShadows
  subst hListed
  obtain ⟨n, hRemoved⟩ := removeAll_spots hPlain (List.forall_mem_map.1 hShort)
  simp [clean, hPlan, hShadows, hRemoved]

theorem clean_of_not_inReach (hPlain : w.tree.Plain)
    (hPlan : Plan.load w.tree w.cwd project settings Overrides.none = .ok plan)
    (hReach : ¬ InReach w.tree w.cwd plan.roots) :
    ∃ w' chain, clean true project settings w = (w', .error chain) := by
  cases hShadows : shadowsOf w.tree w.cwd plan.roots with
  | error e => exact ⟨w, e.chain, by simp [clean, hPlan, hShadows]⟩
  | ok shadows =>
      obtain ⟨p, hp, hLong⟩ : ∃ p ∈ shadows, pathLimit ≤ p.bytes.length := by
        by_contra hNone
        apply hReach
        rw [inReach_iff hPlain.wellFormed]
        refine ⟨shadows, hShadows, ?_⟩
        intro p hp
        exact Nat.lt_of_not_le fun hLong => hNone ⟨p, hp, hLong⟩
      have hListed := eq_spots_of_shadowsOf hPlain.wellFormed hShadows
      obtain ⟨s, hs, rfl⟩ := List.mem_map.1 (hListed ▸ hp)
      obtain ⟨dir, name, -, hLeads, -, -⟩ := leadsTo_of_mem_spots hPlain hs
      obtain ⟨e, hError⟩ := removeAll_error (by decide) (hLeads.remove_long hLong) hp w.tree
      exact ⟨_, e.chain, by simp [clean, hPlan, hShadows, hError]; rfl⟩

theorem run_of_clean {environment : OrderedMap String String} {arguments : List String}
    {given settings : Option Path} {force : Bool}
    (h : Invocation.ofArguments environment arguments = .ok ⟨given, settings, .clean force⟩)
    (machine : Machine) (time : String) (w : World) :
    run machine time environment arguments w =
      finish (clean force (given.getD w.cwd.path) settings w) := by
  rw [run, h]
  rfl

/-- **What cleaning does.** It succeeds exactly if all directories and shadow files below the roots
are in reach. Then the shadow files below the roots that are directories are gone, and all else is
as it was. The report shows and counts each of them once, exactly if no root with a shadow file
below it lies below another root. -/
theorem run_clean {environment : OrderedMap String String} {arguments : List String}
    {given settings : Option Path}
    (h : Invocation.ofArguments environment arguments = .ok ⟨given, settings, .clean true⟩)
    (machine : Machine) (time : String) {w : World} (hPlain : w.tree.Plain) {plan : Plan}
    (hPlan : Plan.load w.tree w.cwd (given.getD w.cwd.path) settings Overrides.none = .ok plan) :
    let outcome := run machine time environment arguments w
    (outcome.exitCode = 0 ↔ InReach w.tree w.cwd plan.roots) ∧
      (outcome.exitCode = 0 → Cleaned w.tree w.cwd plan.roots outcome.world.tree ∧
        ((∃ text, outcome.world.journal = w.journal ++ [.printed .output text] ∧
            Truthful w.tree w.cwd plan text) ↔
          ¬ Nested w.tree w.cwd plan.roots)) := by
  intro outcome
  have hOutcome : outcome = finish (clean true (given.getD w.cwd.path) settings w) :=
    run_of_clean h machine time w
  by_cases hReach : InReach w.tree w.cwd plan.roots
  · rw [clean_of_inReach hPlain hPlan hReach] at hOutcome
    obtain ⟨shadows, hShadows, hShort⟩ := (inReach_iff hPlain.wellFormed).1 hReach
    rw [eq_spots_of_shadowsOf hPlain.wellFormed hShadows, List.forall_mem_map] at hShort
    rw [hOutcome]
    refine ⟨⟨fun _ => hReach, fun _ => rfl⟩, fun _ => ⟨?_, ?_⟩⟩
    · exact cleaned_without hPlain.wellFormed w.cwd plan.roots
    · rw [← truthful_iff hPlain hPlan hShort]
      constructor
      · rintro ⟨text, hJournal, hTruthful⟩
        have hText := List.append_cancel_left hJournal
        rw [List.cons.injEq, Effect.printed.injEq] at hText
        rw [hText.1.2]
        exact hTruthful
      · intro hTruthful
        exact ⟨_, rfl, hTruthful⟩
  · obtain ⟨w', chain, hClean⟩ := clean_of_not_inReach hPlain hPlan hReach
    rw [hClean] at hOutcome
    have hExit : outcome.exitCode ≠ 0 := by
      rw [hOutcome]
      exact Nat.one_ne_zero
    exact ⟨⟨fun hZero => absurd hZero hExit, fun hIn => absurd hIn hReach⟩,
      fun hZero => absurd hZero hExit⟩

end

/-- Settings with a root inside another one. -/
def nestedText : String :=
  "[[roots]]\npath = \"contracts\"\n[[roots]]\npath = \"contracts/lib\"\n"

/-- A project with these settings, and a shadow file below both roots. -/
def nestedProject : World :=
  World.start ⟨OrderedMap.ofList [(["p"], .directory), (["p", ".solcover"], .directory),
    (["p", ".solcover", "solcover.toml"], .file (Utf8.encode nestedText)),
    (["p", "contracts"], .directory), (["p", "contracts", "lib"], .directory),
    (["p", "contracts", "lib", ".L.cover.sol"], .file [120])]⟩ ["p"]

theorem plain_nestedProject : nestedProject.tree.Plain :=
  ⟨⟨by unfold Rooted; decide +kernel, by decide +kernel⟩, noLinks_of_entries (by decide +kernel),
    by decide +kernel⟩

theorem exists_plan_nested : ∃ plan,
    Plan.load nestedProject.tree ["p"] (Location.path ["p"]) none Overrides.none = .ok plan ∧
      plan.project = Path.ofText "/p" ∧
      plan.roots = [⟨"/p/contracts", []⟩, ⟨"/p/contracts/lib", []⟩] := by
  have hMade : ((Settings.parse nestedText).toOption.bind fun s =>
      (Plan.ofSettings (Location.path ["p"]) s Overrides.none).toOption).map
        (fun plan => (plan.project, plan.roots)) =
      some (Path.ofText "/p", [⟨"/p/contracts", []⟩, ⟨"/p/contracts/lib", []⟩]) := by
    decide +kernel
  obtain ⟨plan, hPlan, hFields⟩ := Option.map_eq_some_iff.1 hMade
  obtain ⟨s, hParsed, hSettled⟩ := Option.bind_eq_some_iff.1 hPlan
  let dir : Location := ["p", ".solcover"]
  refine ⟨plan, ?_, (Prod.mk.inj hFields).1, (Prod.mk.inj hFields).2⟩
  exact Plan.load_of_file plain_nestedProject.wellFormed.rooted (by decide +kernel)
    (by decide +kernel)
    (by decide +kernel : Settings.file (Location.path ["p"]) =
      Location.path (dir ++ [.ofText "solcover.toml"]))
    (by decide +kernel) (by decide +kernel)
    (by decide +kernel : nestedProject.tree.find? (dir ++ [.ofText "solcover.toml"]) =
      some (.file (Utf8.encode nestedText)))
    (Outcome.eq_ok_of_toOption hParsed) (Outcome.eq_ok_of_toOption hSettled)

theorem directories_nestedProject :
    nestedProject.tree.directory? ["p"] "/p/contracts" = some (["p", "contracts"] : Location) ∧
      nestedProject.tree.directory? ["p"] "/p/contracts/lib" =
        some (["p", "contracts", "lib"] : Location) := by
  have hOuter : Path.ofText "/p/contracts" = Location.path ["p", "contracts"] := by decide +kernel
  have hInner : Path.ofText "/p/contracts/lib" = Location.path ["p", "contracts", "lib"] := by
    decide +kernel
  rw [hOuter, hInner]
  exact ⟨directory?_path plain_nestedProject.wellFormed.rooted ["p"] (by decide +kernel)
      (by decide +kernel),
    directory?_path plain_nestedProject.wellFormed.rooted ["p"] (by decide +kernel)
      (by decide +kernel)⟩

theorem inReach_nestedProject : InReach nestedProject.tree ["p"]
    [⟨"/p/contracts", []⟩, ⟨"/p/contracts/lib", []⟩] := by
  obtain ⟨hOuter, hInner⟩ := directories_nestedProject
  intro root hRoot base names hBase hne hFind
  obtain ⟨e, hFind⟩ : ∃ e, nestedProject.tree.find? (base ++ names) = some e := by
    rcases hFind with hFind | ⟨⟨content, hFind⟩, -⟩
    · exact ⟨_, hFind⟩
    · exact ⟨_, hFind⟩
  have hMem : (names, e) ∈ nestedProject.tree.below base :=
    mem_below.2 ⟨hne, (find?_eq_some_iff (by simp [hne])).1 hFind⟩
  rcases List.mem_pair.1 hRoot with rfl | rfl
  · rw [hOuter, Option.some.injEq] at hBase
    subst hBase
    have hShort : ∀ e ∈ nestedProject.tree.below ["p", "contracts"],
        isTooLong ((Path.ofText "/p/contracts").join (ofNames e.1)) = false := by
      decide +kernel
    exact hShort (names, e) hMem
  · rw [hInner, Option.some.injEq] at hBase
    subst hBase
    have hShort : ∀ e ∈ nestedProject.tree.below ["p", "contracts", "lib"],
        isTooLong ((Path.ofText "/p/contracts/lib").join (ofNames e.1)) = false := by
      decide +kernel
    exact hShort (names, e) hMem

/-- What is shown of that project: its shadow file, as often as there are roots around it. -/
theorem cleaned_nestedProject {plan : Plan} (hProject : plan.project = Path.ofText "/p")
    (hRoots : plan.roots = [⟨"/p/contracts", []⟩, ⟨"/p/contracts/lib", []⟩]) :
    Screen.cleaned plan ((spots nestedProject.tree ["p"] plan.roots).map Spot.path) =
      "  -contracts/lib/.L.cover.sol\n  -contracts/lib/.L.cover.sol\n" ++
        "Removed 2 shadow file(s)\n" := by
  obtain ⟨hOuter, hInner⟩ := directories_nestedProject
  have hListed : (spots nestedProject.tree ["p"] plan.roots).map Spot.path =
      (["/p/contracts/lib/.L.cover.sol", "/p/contracts/lib/.L.cover.sol"] : List Path) := by
    rw [hRoots, spots]
    simp only [List.flatMap_cons, List.flatMap_nil, spotsOf, hOuter, hInner]
    decide +kernel
  rw [hListed]
  simp only [Screen.cleaned, Plan.display, hProject]
  decide +kernel

/-- The one shadow file is removed, and is shown and counted twice. -/
theorem run_clean_nested :
    let outcome := run failing "" OrderedMap.empty ["clean", "--force"] nestedProject
    ∃ plan,
      Plan.load nestedProject.tree ["p"] (Location.path ["p"]) none Overrides.none = .ok plan ∧
      outcome.exitCode = 0 ∧
      outcome.world.tree.find? ["p", "contracts", "lib", ".L.cover.sol"] = none ∧
      outcome.world.journal = [.printed .output
        ("  -contracts/lib/.L.cover.sol\n  -contracts/lib/.L.cover.sol\n" ++
          "Removed 2 shadow file(s)\n")] ∧
      ¬ ∃ text, outcome.world.journal = [.printed .output text] ∧
        Truthful nestedProject.tree ["p"] plan text := by
  intro outcome
  obtain ⟨plan, hPlan, hProject, hRoots⟩ := exists_plan_nested
  obtain ⟨hOuter, hInner⟩ := directories_nestedProject
  have hInvocation : Invocation.ofArguments OrderedMap.empty ["clean", "--force"] =
      .ok ⟨none, none, .clean true⟩ := by
    decide +kernel
  have hStands : StandsAt nestedProject.tree ["p", "contracts", "lib", ".L.cover.sol"] :=
    ⟨⟨[120], by decide +kernel⟩, by decide +kernel⟩
  obtain ⟨hExit, hRest⟩ := run_clean hInvocation failing "" plain_nestedProject hPlan
  have hReach : InReach nestedProject.tree ["p"] plan.roots := by
    rw [hRoots]
    exact inReach_nestedProject
  have hZero := hExit.2 hReach
  obtain ⟨hCleaned, hReport⟩ := hRest hZero
  refine ⟨plan, hPlan, hZero, ?_, ?_, fun hTruthful => hReport.1 hTruthful ?_⟩
  · apply hCleaned.gone
    rw [hRoots]
    exact ⟨hStands, _, List.mem_cons_self, ["p", "contracts"], hOuter, ["lib", ".L.cover.sol"],
      by decide, rfl⟩
  · have hOutcome : outcome = finish (clean true (Location.path ["p"]) none nestedProject) :=
      run_of_clean hInvocation failing "" nestedProject
    rw [hOutcome, clean_of_inReach plain_nestedProject hPlan hReach]
    exact congrArg (fun text => [Effect.printed .output text])
      (cleaned_nestedProject hProject hRoots)
  · rw [hRoots]
    exact ⟨_, List.mem_cons_self, _, List.mem_cons_of_mem _ List.mem_cons_self, ["p", "contracts"],
      ["p", "contracts", "lib"], hOuter, hInner, ⟨["lib"], by decide, rfl⟩, _, hStands,
      [".L.cover.sol"], by decide, rfl⟩

end CoverRun.CommandLine

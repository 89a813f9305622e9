import CoverRun.CommandLine
import CoverRun.Proofs.Pipeline.Report
import CoverRun.Proofs.Pipeline.Trace
import CoverRun.Proofs.Plan.Load

/-!
# What running coverage does

Coverage comes to a point if there is a plan with an instrumenter and the run by this plan comes to
it (`CommandLine.Comes`). The command does what the run does, and saves the report of a run that was
tested (`CommandLine.cover_cases`). So the failure of a step keeps all later ones from happening,
the tree is what that step left, and the exit code is zero exactly if none failed
(`CommandLine.run_effects`).
-/

namespace CoverRun.CommandLine

open Pipeline FileTree

/-! ## Coverage of a project -/

/-- What is given to cover a project. -/
structure Request where
  project : Path
  settings : Option Path
  overrides : Overrides

/-- There is a plan with an instrumenter. -/
structure Planned (request : Request) (w : World) (plan : Plan) (command : String) : Prop where
  load : Plan.load w.tree w.cwd request.project request.settings request.overrides = .ok plan
  instrumenter : plan.instrumenter = some command

/-- There is a plan with an instrumenter, and the run by it comes to a point. -/
def Comes (machine : Machine) (request : Request) (w : World) (plan : Plan) (a : Point) : Prop :=
  ∃ command, Planned request w plan command ∧ (ofPlan plan command).Reaches machine w a

/-- What saving the report of a run comes to, in which all lines of the second stage are merged. -/
def saving (time : String) (plan : Plan) (w : World) (i : Instrumentation) (y : Execution) :
    FileTree × Except ReportError Unit :=
  let tally := (Tally.start plan.sentinel i.table).ingestAll (allLines y)
  (CoverageReport.mk time tally.table).save w.tree w.cwd plan.output

section

variable {machine : Machine} {time : String} {request : Request} {w : World} {plan : Plan}
  {command : String}

theorem cover_of_planned (machine : Machine) (time : String) (h : Planned request w plan command) :
    cover machine time request.project request.settings request.overrides w =
      coverPlan machine time plan command w := by
  rw [cover, h.load]
  simp only [h.instrumenter]

theorem cover_of_failure (time : String) (hPlanned : Planned request w plan command) {a : Point}
    {w₁ : World} {e : RunError} (ha : (ofPlan plan command).Reaches machine w a)
    (hFailure : Failure (ofPlan plan command) machine a w₁ e) :
    cover machine time request.project request.settings request.overrides w =
      (w₁, .error ("Coverage run failed" :: e.chain)) := by
  rw [cover_of_planned machine time hPlanned, coverPlan, run_of_failure ha hFailure]

theorem cover_of_tested (time : String) (hPlanned : Planned request w plan command) {w₁ : World}
    {sel : Selection} {i : Instrumentation} {x y : Execution}
    (hTested : (ofPlan plan command).Reaches machine w (.tested w₁ sel i x y)) :
    cover machine time request.project request.settings request.overrides w =
      saveReport plan time ((ofPlan plan command).report sel i (shadowPaths sel i) x y) w₁ := by
  rw [cover_of_planned machine time hPlanned, coverPlan, run_of_tested hTested]

/-- **What running coverage comes to.** There is no plan or no instrumenter, or the run fails at a
point, or it is tested and its report is saved or not. -/
theorem cover_cases (machine : Machine) (time : String) (request : Request) (w : World) :
    (∃ chain, (∀ plan command, ¬ Planned request w plan command) ∧
      cover machine time request.project request.settings request.overrides w =
        (w, .error chain)) ∨
    ∃ plan command, Planned request w plan command ∧
      ((∃ a w' e, (ofPlan plan command).Reaches machine w a ∧
        Failure (ofPlan plan command) machine a w' e ∧
        cover machine time request.project request.settings request.overrides w =
          (w', .error ("Coverage run failed" :: e.chain))) ∨
      ∃ w' sel i x y, (ofPlan plan command).Reaches machine w (.tested w' sel i x y) ∧
        cover machine time request.project request.settings request.overrides w =
          saveReport plan time ((ofPlan plan command).report sel i (shadowPaths sel i) x y)
            w') := by
  cases hLoad : Plan.load w.tree w.cwd request.project request.settings request.overrides with
  | error e =>
      refine Or.inl ⟨e.chain, fun plan command hPlanned => ?_, ?_⟩
      · cases hLoad.symm.trans hPlanned.load
      · rw [cover, hLoad]
  | ok plan =>
      cases hInstrumenter : plan.instrumenter with
      | none =>
          refine Or.inl ⟨[noInstrumenter], fun plan' command hPlanned => ?_, ?_⟩
          · obtain rfl := Except.ok.inj (hLoad.symm.trans hPlanned.load)
            cases hInstrumenter.symm.trans hPlanned.instrumenter
          · rw [cover, hLoad]
            simp only [hInstrumenter]
      | some command =>
          have hPlanned : Planned request w plan command := ⟨hLoad, hInstrumenter⟩
          refine Or.inr ⟨plan, command, hPlanned, ?_⟩
          rcases (ofPlan plan command).run_cases machine Progress.idle w with
            ⟨a, w', e, ha, hFailure, -⟩ | ⟨w', sel, i, x, y, hTested, -⟩
          · exact Or.inl ⟨a, w', e, ha, hFailure, cover_of_failure time hPlanned ha hFailure⟩
          · exact Or.inr ⟨w', sel, i, x, y, hTested, cover_of_tested time hPlanned hTested⟩

theorem cover_of_unplanned (machine : Machine) (time : String)
    (h : ∀ plan command, ¬ Planned request w plan command) :
    ∃ chain, cover machine time request.project request.settings request.overrides w =
      (w, .error chain) := by
  rcases cover_cases machine time request w with ⟨chain, -, hCover⟩ | ⟨plan, command, hPlanned, -⟩
  · exact ⟨chain, hCover⟩
  · exact absurd hPlanned (h plan command)

/-! ## Effects -/

/-- What holds of the effects of running coverage: a step that fails keeps all that comes after it
from happening, and a file that is written is a shadow, before any stage, or the report, after both
of them exited with zero and all lines of the second one were merged and forwarded. -/
structure Obeys (machine : Machine) (request : Request) (w : World) (effects : List Effect) :
    Prop where
  /-- If loading, selecting or instrumenting fails, no file is written and no stage is started. -/
  unwritten : (∀ plan w₁ sel i, ¬ Comes machine request w plan (.instrumented w₁ sel i)) →
    (∀ path, .fileWritten path ∉ effects) ∧ ∀ stage, .stageStarted stage ∉ effects
  /-- If a shadow is not written, no stage is started. -/
  unstaged : (∀ plan w₁ sel i, ¬ Comes machine request w plan (.written w₁ sel i)) →
    ∀ stage, .stageStarted stage ∉ effects
  /-- If the first stage fails, the second one is not started. -/
  untested : (∀ plan w₁ sel i x, ¬ Comes machine request w plan (.generated w₁ sel i x)) →
    .stageStarted "test" ∉ effects
  /-- What is written, and when. -/
  ordered : ∀ before path, before ++ [.fileWritten path] <+: effects →
    (∃ plan w₁ sel i, Comes machine request w plan (.instrumented w₁ sel i) ∧
      path ∈ shadowPaths sel i ∧ ∀ stage, .stageStarted stage ∉ before) ∨
    ∃ plan w₁ sel i x y, Comes machine request w plan (.tested w₁ sel i x y) ∧
      path = plan.output ∧ w₁.journal = w.journal ++ before ∧
      .stageEnded "generate" (.exited 0) ∈ before ∧ .stageEnded "test" (.exited 0) ∈ before ∧
      ∀ e ∈ StageSite.forwarded y, e ∈ before

theorem obeys_nil : Obeys machine request w [] :=
  ⟨fun _ => by simp, fun _ => by simp, fun _ => by simp, fun before path h => by simp at h⟩

theorem Obeys.print {effects : List Effect} (h : Obeys machine request w effects)
    (stream : OutputStream) (text : String) :
    Obeys machine request w (effects ++ [.printed stream text]) where
  unwritten hNone := by simpa using h.unwritten hNone
  unstaged hNone := by simpa using h.unstaged hNone
  untested hNone := by simpa using h.untested hNone
  ordered before path hPrefix := by
    rcases List.prefix_concat_iff.1 hPrefix with hAll | hPrefix
    · simp at hAll
    · exact h.ordered before path hPrefix

/-- The effects of a run obey. -/
theorem obeys_of_traces (hPlanned : Planned request w plan command) {effects : List Effect}
    (h : Traces (ofPlan plan command) machine w effects) : Obeys machine request w effects where
  unwritten hNone := by
    refine ⟨fun path hPath => ?_, fun stage hStage => ?_⟩
    · obtain ⟨w₁, sel, i, ha, -⟩ := h.exists_instrumented hPath
      exact hNone plan w₁ sel i ⟨command, hPlanned, ha⟩
    · obtain ⟨⟨w₁, sel, i, ha⟩, -⟩ := h.exists_written hStage
      obtain ⟨w₂, hInstrumented, -⟩ := reaches_written_iff.1 ha
      exact hNone plan w₂ sel i ⟨command, hPlanned, hInstrumented⟩
  unstaged hNone := by
    intro stage hStage
    obtain ⟨⟨w₁, sel, i, ha⟩, -⟩ := h.exists_written hStage
    exact hNone plan w₁ sel i ⟨command, hPlanned, ha⟩
  untested hNone := by
    intro hStage
    obtain ⟨-, hName | ⟨w₁, sel, i, x, ha⟩⟩ := h.exists_written hStage
    · have hGenerate : (ofPlan plan command).plan.generate.name = "generate" :=
        (Plan.names_of_load hPlanned.load).1
      rw [hGenerate] at hName
      cases (by decide : "test" ≠ "generate") hName
    · exact hNone plan w₁ sel i x ⟨command, hPlanned, ha⟩
  ordered before path hPrefix := by
    obtain ⟨w₁, sel, i, ha, hPath⟩ := h.exists_instrumented
      (List.IsPrefix.subset hPrefix (List.mem_append_right _ List.mem_cons_self))
    exact Or.inl ⟨plan, w₁, sel, i, ⟨command, hPlanned, ha⟩, hPath,
      h.not_mem_of_isPrefix hPrefix⟩

theorem obeys_of_tested (hPlanned : Planned request w plan command) {w₁ : World} {sel : Selection}
    {i : Instrumentation} {x y : Execution}
    (h : (ofPlan plan command).Reaches machine w (.tested w₁ sel i x y)) :
    Obeys machine request w
      ((Point.tested w₁ sel i x y).trace (ofPlan plan command) ++ [.fileWritten plan.output]) := by
  have hTrace := obeys_of_traces hPlanned h.traces
  obtain ⟨w₂, hGenerated, hTest, -⟩ := reaches_tested_iff.1 h
  obtain ⟨w₃, hWritten, hGenerate, -⟩ := reaches_generated_iff.1 hGenerated
  obtain ⟨w₄, hInstrumented, -⟩ := reaches_written_iff.1 hWritten
  refine ⟨fun hNone => ?_, fun hNone => ?_, fun hNone => ?_, fun before path hPrefix => ?_⟩
  · exact absurd ⟨command, hPlanned, hInstrumented⟩ (hNone plan w₄ sel i)
  · exact absurd ⟨command, hPlanned, hWritten⟩ (hNone plan w₃ sel i)
  · exact absurd ⟨command, hPlanned, hGenerated⟩ (hNone plan w₂ sel i x)
  · rcases List.prefix_concat_iff.1 hPrefix with hAll | hPrefix
    · obtain ⟨rfl, hPath⟩ := List.append_inj' hAll rfl
      obtain ⟨hGenerateName, hTestName⟩ := Plan.names_of_load hPlanned.load
      have hGenerateMem : StageSite.effects plan.generate x ⊆
          (Point.tested w₁ sel i x y).trace (ofPlan plan command) := fun e he =>
        List.mem_append_right _ (List.mem_append_left _ he)
      have hTestMem : StageSite.effects plan.test y ⊆
          (Point.tested w₁ sel i x y).trace (ofPlan plan command) := fun e he =>
        List.mem_append_right _ (List.mem_append_right _ he)
      refine Or.inr ⟨plan, w₁, sel, i, x, y, ⟨command, hPlanned, h⟩, ?_, h.journal_eq, ?_, ?_,
        fun e he => ?_⟩
      · simpa using hPath
      · rw [← hGenerateName, ← hGenerate.exits]
        exact hGenerateMem (StageSite.stageEnded_mem_effects plan.generate x)
      · rw [← hTestName, ← hTest.exits]
        exact hTestMem (StageSite.stageEnded_mem_effects plan.test y)
      · exact hTestMem (List.mem_cons_of_mem _ (List.mem_append_left _ he))
    · exact hTrace.ordered before path hPrefix

/-! ## The command -/

theorem run_of_invocation {environment : OrderedMap String String} {arguments : List String}
    {project settings : Option Path} {o : Overrides}
    (h : Invocation.ofArguments environment arguments = .ok ⟨project, settings, .run o⟩)
    (machine : Machine) (time : String) (w : World) :
    run machine time environment arguments w =
      finish (cover machine time (project.getD w.cwd.path) settings o w) := by
  rw [run, h]
  rfl

/-- Saving a report comes to a file and a failure, or to a file that is told of. -/
theorem saveReport_cases (time : String) (plan : Plan) (command : String) {w₁ : World}
    {sel : Selection} {i : Instrumentation} {shadows : List Path} {x y : Execution}
    (h : y.ending = .exited 0) :
    let saved : World := { w₁ with tree := (saving time plan w₁ i y).1 }
    let report := (ofPlan plan command).report sel i shadows x y
    (∃ chain, (saving time plan w₁ i y).2 ≠ .ok () ∧
      saveReport plan time report w₁ = (saved, .error chain)) ∨
    ((saving time plan w₁ i y).2 = .ok () ∧ saveReport plan time report w₁ =
      ((saved.record [.fileWritten plan.output]).print .output
        (Screen.report report plan.output), .ok ())) := by
  intro saved report
  have hSave : (CoverageReport.mk time report.table).save w₁.tree w₁.cwd plan.output =
      saving time plan w₁ i y := by
    rw [saving, ← linesBy_of_exits h]
    rfl
  rw [saveReport, hSave]
  rcases hSaving : saving time plan w₁ i y with ⟨tree, e | ⟨⟩⟩
  · exact Or.inl ⟨e.chain, by simp, by simp only [saved, hSaving]⟩
  · exact Or.inr ⟨rfl, by simp only [saved, hSaving]⟩

/-- What is left when a run was tested, and when that is a success. -/
theorem finish_saveReport (time : String) (plan : Plan) (command : String) {w₁ : World}
    {sel : Selection} {i : Instrumentation} {shadows : List Path} {x y : Execution}
    (h : y.ending = .exited 0) :
    let outcome := finish (saveReport plan time
      ((ofPlan plan command).report sel i shadows x y) w₁)
    outcome.world.tree = (saving time plan w₁ i y).1 ∧
      (outcome.exitCode = 0 ↔ (saving time plan w₁ i y).2 = .ok ()) := by
  intro outcome
  rcases saveReport_cases time plan command h with ⟨chain, hUnsaved, hSave⟩ | ⟨hSaved, hSave⟩
  · have hOutcome : outcome = finish _ := congrArg finish hSave
    rw [hOutcome]
    exact ⟨rfl, iff_of_false Nat.one_ne_zero hUnsaved⟩
  · have hOutcome : outcome = finish _ := congrArg finish hSave
    rw [hOutcome]
    exact ⟨rfl, iff_of_true rfl hSaved⟩

theorem exists_obeys_finish {w' : World} {effects : List Effect}
    (hJournal : w'.journal = w.journal ++ effects) (h : Obeys machine request w effects)
    (chain : List String) :
    ∃ effects, (finish (w', .error chain)).world.journal = w.journal ++ effects ∧
      Obeys machine request w effects := by
  refine ⟨_, ?_, h.print .errors (Screen.failure chain)⟩
  rw [← List.append_assoc, ← hJournal]
  rfl

/-- **The effects of running coverage obey.** -/
theorem exists_obeys (machine : Machine) (time : String) (request : Request) (w : World) :
    ∃ effects, (finish (cover machine time request.project request.settings request.overrides
        w)).world.journal = w.journal ++ effects ∧ Obeys machine request w effects := by
  rcases cover_cases machine time request w with
    ⟨chain, -, hCover⟩ | ⟨plan, command, hPlanned, ⟨a, w', e, ha, hFailure, hCover⟩ |
      ⟨w₁, sel, i, x, y, hTested, hCover⟩⟩ <;> rw [hCover]
  · exact exists_obeys_finish (List.append_nil _).symm obeys_nil chain
  · obtain ⟨effects, hJournal, hTraces⟩ := Failure.exists_traces ha hFailure
    exact exists_obeys_finish hJournal (obeys_of_traces hPlanned hTraces) _
  · obtain ⟨_, _, -, -, -, -, -, hExits⟩ := exists_makes_of_tested hTested
    rcases saveReport_cases time plan command hExits with ⟨chain, -, hSave⟩ | ⟨-, hSave⟩ <;>
      rw [hSave]
    · exact exists_obeys_finish hTested.journal_eq (obeys_of_traces hPlanned hTested.traces) chain
    · refine ⟨_, ?_, (obeys_of_tested hPlanned hTested).print .output (Screen.report
        ((ofPlan plan command).report sel i (shadowPaths sel i) x y) plan.output)⟩
      rw [← List.append_assoc, ← List.append_assoc, ← hTested.journal_eq]
      rfl

end

/-! ## A report file that is a shadow

Nothing keeps the report file from being the shadow of a source. It is then written as a shadow,
before the stages, and stays if one of them fails. -/

/-- Settings with one root, in which the only source is skipped. -/
def skippingText : String :=
  "[[roots]]\npath = \"contracts\"\nskip = [\"Foo.sol\"]\n" ++
    "[stages]\ngenerate = [\"false\"]\ntest = [\"true\"]\n"

/-- A project with these settings. -/
def skippingProject : World :=
  World.start ⟨OrderedMap.ofList [(["p"], .directory), (["p", ".solcover"], .directory),
    (["p", ".solcover", "solcover.toml"], .file (Utf8.encode skippingText)),
    (["p", "contracts"], .directory),
    (["p", "contracts", "Foo.sol"], .file (Utf8.encode "contract Foo \x7b\x7d"))]⟩ ["p"]

/-- A report file that is the shadow of that source. -/
def shadowedOutput : Request :=
  ⟨"/p", none, ⟨none, some "contracts/.Foo.cover.sol", some "true"⟩⟩

/-- Each program exits with one. -/
def failing : Machine := fun _ t => .ok ⟨t, [], [], .exited 1⟩

theorem planned_shadowedOutput : ∃ plan, Planned shadowedOutput skippingProject plan "true" ∧
    plan.output = Path.ofText "/p/contracts/.Foo.cover.sol" ∧
    plan.roots = [⟨"/p/contracts", [⟨"Foo.sol", ["Foo.sol"], none⟩]⟩] ∧
    plan.extensions = ["sol"] := by
  have hRooted : skippingProject.tree.Rooted := by
    unfold Rooted
    decide +kernel
  have hMade : ((Settings.parse skippingText).toOption.bind fun s =>
      (Plan.ofSettings (Location.path ["p"]) s shadowedOutput.overrides).toOption).map
        (fun plan => (plan.instrumenter, plan.output, plan.roots, plan.extensions)) =
      some (some "true", Path.ofText "/p/contracts/.Foo.cover.sol",
        [⟨"/p/contracts", [⟨"Foo.sol", ["Foo.sol"], none⟩]⟩], ["sol"]) := by
    decide +kernel
  obtain ⟨plan, hPlan, hFields⟩ := Option.map_eq_some_iff.1 hMade
  obtain ⟨s, hParsed, hSettled⟩ := Option.bind_eq_some_iff.1 hPlan
  obtain ⟨hInstrumenter, hOutput, hRoots, hExtensions⟩ :
      plan.instrumenter = some "true" ∧ plan.output = Path.ofText "/p/contracts/.Foo.cover.sol" ∧
        plan.roots = [⟨"/p/contracts", [⟨"Foo.sol", ["Foo.sol"], none⟩]⟩] ∧
          plan.extensions = ["sol"] := by simpa using hFields
  let dir : Location := ["p", ".solcover"]
  have hLoad : Plan.load skippingProject.tree ["p"] (Location.path ["p"]) none
      shadowedOutput.overrides = .ok plan :=
    Plan.load_of_file hRooted (by decide +kernel) (by decide +kernel)
      (by decide +kernel : Settings.file (Location.path ["p"]) =
        Location.path (dir ++ [.ofText "solcover.toml"]))
      (by decide +kernel) (by decide +kernel)
      (by decide +kernel : skippingProject.tree.find? (dir ++ [.ofText "solcover.toml"]) =
        some (.file (Utf8.encode skippingText)))
      (Outcome.eq_ok_of_toOption hParsed) (Outcome.eq_ok_of_toOption hSettled)
  have hPath : Location.path ["p"] = "/p" := by decide +kernel
  rw [hPath] at hLoad
  exact ⟨plan, ⟨hLoad, hInstrumenter⟩, hOutput, hRoots, hExtensions⟩

/-- The tree of that project with the shadow. -/
def shadowedTree : FileTree :=
  skippingProject.tree.place ["p", "contracts", ".Foo.cover.sol"]
    (.file (Utf8.encode "contract Foo \x7b\x7d"))

/-- The run by that plan writes the shadow, and then the first stage fails. -/
theorem exists_failure_shadowedOutput {plan : Plan}
    (hRoots : plan.roots = [⟨"/p/contracts", [⟨"Foo.sol", ["Foo.sol"], none⟩]⟩])
    (hExtensions : plan.extensions = ["sol"]) :
    ∃ w sel w' e, (ofPlan plan "true").Reaches failing skippingProject
        (.written w sel Instrumentation.empty) ∧
      Failure (ofPlan plan "true") failing (.written w sel Instrumentation.empty) w' e ∧
      w'.journal = [.fileWritten "/p/contracts/.Foo.cover.sol",
        .stageStarted plan.generate.name, .stageEnded plan.generate.name (.exited 1)] ∧
      w'.tree = shadowedTree := by
  have hTree : skippingProject.tree.WellFormed :=
    ⟨by unfold Rooted; decide +kernel, by decide +kernel⟩
  let sel : Selection := ⟨[], [⟨"/p/contracts", "Foo.sol", "contract Foo \x7b\x7d"⟩]⟩
  have hSelected : Selection.ofRoots skippingProject.tree skippingProject.cwd plan.extensions
      plan.roots = .ok sel := by
    have hRoot : skippingProject.tree.directory? ["p"] (Location.path ["p", "contracts"]) =
        some (["p", "contracts"] : Location) :=
      directory?_path hTree.rooted ["p"] (by decide +kernel) (by decide +kernel)
    have hPath : Location.path ["p", "contracts"] = "/p/contracts" := by decide +kernel
    rw [hPath] at hRoot
    rw [hRoots, hExtensions, Selection.ofRoots, Selection.ofRoots, Selection.discover]
    simp only [skippingProject, World.start] at hRoot ⊢
    rw [hRoot]
    decide +kernel
  have hWritten : writing skippingProject sel Instrumentation.empty =
      ⟨shadowedTree, ["/p/contracts/.Foo.cover.sol"], none⟩ := by
    let dir : Location := ["p", "contracts"]
    let shadow : FileName := ".Foo.cover.sol"
    have hTexts : Instrumentation.shadowTexts Instrumentation.empty.files sel.passThrough =
        [⟨"/p/contracts/Foo.sol", "contract Foo \x7b\x7d"⟩] := by decide +kernel
    have hPath : Shadow.namePath "/p/contracts/Foo.sol" = "/p/contracts/.Foo.cover.sol" := by
      decide +kernel
    have hPlace : (dir ++ [shadow]).path = "/p/contracts/.Foo.cover.sol" := by decide +kernel
    have hSpelled : IsSpelled (dir ++ [shadow]) := by decide +kernel
    have hFree : skippingProject.tree.find? (dir ++ [shadow]) = none := by decide +kernel
    have hWrite := write_path hTree.rooted skippingProject.cwd hSpelled (by decide +kernel)
      (Or.inl hFree) (Utf8.encode "contract Foo \x7b\x7d")
    rw [writing, hTexts, Shadow.writeAll, hPath, ← hPlace, hWrite]
    rfl
  have hInstrumented : (ofPlan plan "true").Reaches failing skippingProject
      (.instrumented skippingProject sel Instrumentation.empty) :=
    reaches_instrumented_iff.2 ⟨reaches_selected_iff.2 ⟨rfl, hSelected⟩, rfl⟩
  refine ⟨_, sel, _, .stage (.failed plan.generate.name (some 1)),
    reaches_written_iff.2 ⟨_, hInstrumented, by rw [hWritten], rfl⟩, .generate (.finish rfl rfl),
    ?_, ?_⟩
  · rw [StageSite.journal_after, afterWriting, hWritten]
    rfl
  · rw [StageSite.after, afterWriting, hWritten]
    rfl

/-- **A report file that is a shadow is written before any stage ends.** -/
theorem exists_output_written_early :
    let arguments := ["run", "--instrumenter", "true", "--output", "contracts/.Foo.cover.sol"]
    let outcome := run failing "" OrderedMap.empty arguments skippingProject
    ∃ plan, Plan.load skippingProject.tree skippingProject.cwd "/p" none
        shadowedOutput.overrides = .ok plan ∧
      .fileWritten plan.output ∈ outcome.world.journal ∧
      (∀ stage, .stageEnded stage (.exited 0) ∉ outcome.world.journal) ∧
      outcome.exitCode = 1 := by
  intro arguments outcome
  obtain ⟨plan, hPlanned, hOutput, hRoots, hExtensions⟩ := planned_shadowedOutput
  obtain ⟨w, sel, w', e, hWritten, hFailure, hJournal, -⟩ :=
    exists_failure_shadowedOutput hRoots hExtensions
  have hInvocation : Invocation.ofArguments OrderedMap.empty arguments =
      .ok ⟨none, none, .run shadowedOutput.overrides⟩ := by decide +kernel
  have hOutcome : outcome = finish (w', .error ("Coverage run failed" :: e.chain)) := by
    have hProject : (none : Option Path).getD skippingProject.cwd.path = "/p" := by
      decide +kernel
    simp only [outcome, run_of_invocation hInvocation, hProject]
    exact congrArg finish (cover_of_failure "" hPlanned hWritten hFailure)
  have hEffects : outcome.world.journal = w'.journal ++
      [.printed .errors (Screen.failure ("Coverage run failed" :: e.chain))] := by
    rw [hOutcome]
    rfl
  refine ⟨plan, hPlanned.load, ?_, ?_, ?_⟩
  · rw [hEffects, hJournal, hOutput]
    simp
  · intro stage
    rw [hEffects, hJournal]
    simp
  · rw [hOutcome]
    rfl

/-- **What running coverage does.** The effects obey: a step that fails keeps all later ones from
happening, and nothing but shadows is written before both stages exited with zero. Where a step
fails the run ends: all that follows is the wording of the failure, and the tree is what the step
left. When both stages exited with zero, the report with all lines of the second one is saved. The
exit code is zero exactly if there is a plan with an instrumenter, each step of the run succeeds,
and so does saving. -/
theorem run_effects {environment : OrderedMap String String} {arguments : List String}
    {project settings : Option Path} {o : Overrides}
    (h : Invocation.ofArguments environment arguments = .ok ⟨project, settings, .run o⟩)
    (machine : Machine) (time : String) (w : World) :
    let request : Request := ⟨project.getD w.cwd.path, settings, o⟩
    let outcome := run machine time environment arguments w
    (∃ effects, outcome.world.journal = w.journal ++ effects ∧
      Obeys machine request w effects) ∧
    ((∀ plan command, ¬ Planned request w plan command) →
      ∃ chain, outcome.world = w.print .errors (Screen.failure chain)) ∧
    (∀ plan command a w₁ e, Planned request w plan command →
      (ofPlan plan command).Reaches machine w a → Failure (ofPlan plan command) machine a w₁ e →
        outcome.world = w₁.print .errors (Screen.failure ("Coverage run failed" :: e.chain)) ∧
          outcome.world.tree = a.remains (ofPlan plan command) machine) ∧
    (∀ plan w₁ sel i x y, Comes machine request w plan (.tested w₁ sel i x y) →
      outcome.world.tree = (saving time plan w₁ i y).1) ∧
    (outcome.exitCode = 0 ↔ ∃ plan w₁ sel i x y,
      Comes machine request w plan (.tested w₁ sel i x y) ∧
        (saving time plan w₁ i y).2 = .ok ()) := by
  intro request outcome
  have hOutcome : outcome =
      finish (cover machine time request.project request.settings request.overrides w) :=
    run_of_invocation h machine time w
  have hUnplanned (hNone : ∀ plan command, ¬ Planned request w plan command) :
      ∃ chain, outcome.world = w.print .errors (Screen.failure chain) := by
    obtain ⟨chain, hCover⟩ := cover_of_unplanned machine time hNone
    exact ⟨chain, by rw [hOutcome, hCover]; rfl⟩
  have hFails (plan : Plan) (command : String) (a : Point) (w₁ : World) (e : RunError)
      (hPlanned : Planned request w plan command) (ha : (ofPlan plan command).Reaches machine w a)
      (hFailure : Failure (ofPlan plan command) machine a w₁ e) :
      outcome.world = w₁.print .errors (Screen.failure ("Coverage run failed" :: e.chain)) ∧
        outcome.world.tree = a.remains (ofPlan plan command) machine := by
    rw [hOutcome, cover_of_failure time hPlanned ha hFailure, ← hFailure.tree_eq]
    exact ⟨rfl, rfl⟩
  have hTested {plan : Plan} {w₁ : World} {sel : Selection} {i : Instrumentation} {x y : Execution}
      (hComes : Comes machine request w plan (.tested w₁ sel i x y)) :
      outcome.world.tree = (saving time plan w₁ i y).1 ∧
        (outcome.exitCode = 0 ↔ (saving time plan w₁ i y).2 = .ok ()) := by
    obtain ⟨command, hPlanned, hReaches⟩ := hComes
    obtain ⟨_, _, -, -, -, -, -, hExits⟩ := exists_makes_of_tested hReaches
    rw [hOutcome, cover_of_tested time hPlanned hReaches]
    exact finish_saveReport time plan command hExits
  refine ⟨?_, hUnplanned, hFails, fun plan w₁ sel i x y hComes => (hTested hComes).1,
    fun hZero => ?_, ?_⟩
  · rw [hOutcome]
    exact exists_obeys machine time request w
  · rcases cover_cases machine time request w with
      ⟨chain, -, hCover⟩ | ⟨plan, command, hPlanned, ⟨a, w', e, -, -, hCover⟩ |
        ⟨w₁, sel, i, x, y, hReaches, -⟩⟩
    · rw [hOutcome, hCover] at hZero
      exact absurd hZero Nat.one_ne_zero
    · rw [hOutcome, hCover] at hZero
      exact absurd hZero Nat.one_ne_zero
    · have hComes : Comes machine request w plan (.tested w₁ sel i x y) :=
        ⟨command, hPlanned, hReaches⟩
      exact ⟨plan, w₁, sel, i, x, y, hComes, (hTested hComes).2.1 hZero⟩
  · rintro ⟨plan, w₁, sel, i, x, y, hComes, hSaves⟩
    exact (hTested hComes).2.2 hSaves

/-- When the first stage fails, the second one is not started, all that was written was written
before the first one, the shadow at the place of the report stays, and the exit code is not zero. -/
theorem run_effects_shadowed :
    let arguments := ["run", "--instrumenter", "true", "--output", "contracts/.Foo.cover.sol"]
    let outcome := run failing "" OrderedMap.empty arguments skippingProject
    Invocation.ofArguments OrderedMap.empty arguments =
        .ok ⟨none, none, .run shadowedOutput.overrides⟩ ∧
      .stageStarted "test" ∉ outcome.world.journal ∧
      (∀ before path, before ++ [.fileWritten path] <+: outcome.world.journal →
        ∀ stage, .stageStarted stage ∉ before) ∧
      outcome.world.tree = shadowedTree ∧ outcome.exitCode ≠ 0 := by
  intro arguments outcome
  have hInvocation : Invocation.ofArguments OrderedMap.empty arguments =
      .ok ⟨none, none, .run shadowedOutput.overrides⟩ := by decide +kernel
  obtain ⟨⟨effects, hJournal, hObeys⟩, -, hFails, -, hExit⟩ :=
    run_effects hInvocation failing "" skippingProject
  have hEffects : outcome.world.journal = effects := hJournal
  have hNot {request : Request} {plan : Plan} {w₁ : World} {sel : Selection} {i : Instrumentation}
      {x : Execution} : ¬ Comes failing request skippingProject plan (.generated w₁ sel i x) := by
    rintro ⟨command, -, hGenerated⟩
    obtain ⟨w₂, -, hSucceeds, -⟩ := reaches_generated_iff.1 hGenerated
    obtain rfl := Except.ok.inj hSucceeds.starts
    cases hSucceeds.exits
  have hUntested {request : Request} {plan : Plan} {w₁ : World} {sel : Selection}
      {i : Instrumentation} {x y : Execution} :
      ¬ Comes failing request skippingProject plan (.tested w₁ sel i x y) := by
    rintro ⟨command, hPlanned, hTested⟩
    obtain ⟨w₂, hGenerated, -⟩ := reaches_tested_iff.1 hTested
    exact hNot ⟨command, hPlanned, hGenerated⟩
  refine ⟨hInvocation, ?_, fun before path hPrefix => ?_, ?_, fun hZero => ?_⟩
  · rw [hEffects]
    exact hObeys.untested fun plan w₁ sel i x => hNot
  · rw [hEffects] at hPrefix
    rcases hObeys.ordered before path hPrefix with
      ⟨_, _, _, _, -, -, hNone⟩ | ⟨_, _, _, _, _, _, h, -⟩
    · exact hNone
    · exact absurd h hUntested
  · obtain ⟨plan, hPlanned, -, hRoots, hExtensions⟩ := planned_shadowedOutput
    obtain ⟨w, sel, w', e, hWritten, hFailure, -, hTree⟩ :=
      exists_failure_shadowedOutput hRoots hExtensions
    obtain ⟨-, hLeft⟩ := hFails plan "true" _ w' e hPlanned hWritten hFailure
    rw [← hTree, hFailure.tree_eq]
    exact hLeft
  · obtain ⟨_, _, _, _, _, _, hTested, -⟩ := hExit.1 hZero
    exact absurd hTested hUntested

end CoverRun.CommandLine

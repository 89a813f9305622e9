import CoverRun.Proofs.Coverage.Merging
import CoverRun.Proofs.Instrumentation
import CoverRun.Proofs.Pipeline

/-!
# What a run reports

The sites of a report are those that the instrumented files declare, and their hits are those that
the lines of the second stage report (`Pipeline.run_report`). So two runs with the same files and
the same output of the second stage report the same table, whatever else was printed.
-/

namespace CoverRun.Pipeline

open Instrumentation FileTree

/-- The lines that the process of a stage wrote, those of its output first. -/
def allLines (y : Execution) : List String := Lines.ofBytes y.output ++ Lines.ofBytes y.errors

/-- The payloads among the lines that the process of the second stage wrote. -/
def payloadsOf (p : Pipeline) (y : Execution) : List Payload :=
  Tally.payloadsOf p.plan.sentinel (allLines y)

section

variable {p : Pipeline} {machine : Machine} {progress : Progress} {w w' : World}
  {sel : Selection} {i : Instrumentation} {x y : Execution}

theorem linesBy_of_exits (h : y.ending = .exited 0) : StageSite.linesBy y = allLines y := by
  rw [StageSite.linesBy, h]
  rfl

/-- A run that is tested instrumented the selected sources, and both stages succeeded in it. -/
theorem exists_makes_of_tested (h : p.Reaches machine w (.tested w' sel i x y)) :
    ∃ w₁ files, p.engine.Makes machine sel.instrument w w₁ files ∧ i = ofFiles files ∧
      Selection.ofRoots w.tree w.cwd p.plan.extensions p.plan.roots = .ok sel ∧
      p.site.Succeeds machine p.plan.generate (afterWriting w₁ sel i) x ∧
      machine (p.site.launch p.plan.test) x.tree = .ok y ∧ y.ending = .exited 0 := by
  obtain ⟨w₃, hGenerated, hTest, -⟩ := reaches_tested_iff.1 h
  obtain ⟨w₂, hWritten, hGenerate, rfl⟩ := reaches_generated_iff.1 hGenerated
  obtain ⟨w₁, hInstrumented, -, rfl⟩ := reaches_written_iff.1 hWritten
  obtain ⟨hSelected, hInstrument⟩ := reaches_instrumented_iff.1 hInstrumented
  obtain ⟨files, hMakes, rfl⟩ := Engine.instrument_eq_ok_iff.1 hInstrument
  exact ⟨w₁, files, hMakes, rfl, (reaches_selected_iff.1 hSelected).2, hGenerate, hTest.starts,
    hTest.exits⟩

theorem table_report {files : List InstrumentedFile} {shadows : List Path}
    (h : y.ending = .exited 0) :
    (p.report sel (ofFiles files) shadows x y).table =
      (ofFiles files).table.credit (Tally.hitsOf (p.payloadsOf y)) := by
  simp only [report, linesBy_of_exits h, Tally.ingestAll_eq]
  rfl

theorem counts_report {files : List InstrumentedFile} {shadows : List Path}
    (h : y.ending = .exited 0) :
    (p.report sel (ofFiles files) shadows x y).counts =
      ⟨(allLines y).length, (p.payloadsOf y).length,
        (allLines y).countP (Tally.isMalformed p.plan.sentinel),
        Tally.unknownIn (ofFiles files).table (p.payloadsOf y)⟩ := by
  simp only [report, linesBy_of_exits h, Tally.ingestAll_eq, Tally.start, Nat.zero_add]
  rfl

theorem shadowPaths_eq {files : List InstrumentedFile}
    (h : files.map (·.file) = sel.instrument) :
    shadowPaths sel (ofFiles files) =
      (sel.instrument ++ sel.passThrough).map fun f => Shadow.namePath f.path := by
  rw [← h, shadowPaths, shadowTexts]
  simp only [ofFiles, List.map_append, List.map_map]
  rfl

end

/-- **What a run reports.** The targets become files by what the engine returns. A report knows the
sites that the files declare, each with the metadata of the last file that declares it, and its hits
are those of all payloads that the second stage printed, as far as 64 bits go. What else was printed
does not matter: a run with the same files and the same output of the second stage reports the same
table and counts. The report counts the sources of both lists and names their shadows in order. -/
theorem run_report {p : Pipeline} {machine : Machine} {progress progress' : Progress}
    {w w' : World} {r : RunReport}
    (h : p.run machine ⟨progress, w⟩ = (⟨progress', w'⟩, .ok r)) :
    ∃ sel w₁ files x y,
      Selection.ofRoots w.tree w.cwd p.plan.extensions p.plan.roots = .ok sel ∧
      p.engine.Makes machine sel.instrument w w₁ files ∧
      files.map (·.file) = sel.instrument ∧
      p.Reaches machine w (.tested w' sel (ofFiles files) x y) ∧
      machine (p.site.launch p.plan.test) x.tree = .ok y ∧
      (∀ site, site ∈ r.table.sites.keys ↔ ∃ f ∈ files, site ∈ f.sites.keys) ∧
      (∀ site counter, r.table.find? site = some counter →
        (∃ v, lastDeclared files site = some v ∧ SiteTable.Describes v counter.metadata) ∧
          counter.hits.toNat = min (2 ^ 64 - 1) (Tally.hitsOf (p.payloadsOf y) site)) ∧
      (∀ machine₂ progress₂ progress₂' w₂ w₂' r₂ sel₂ x₂ y₂,
        p.run machine₂ ⟨progress₂, w₂⟩ = (⟨progress₂', w₂'⟩, .ok r₂) →
        p.Reaches machine₂ w₂ (.tested w₂' sel₂ (ofFiles files) x₂ y₂) →
        y₂.output = y.output → y₂.errors = y.errors →
          r₂.table = r.table ∧ r₂.counts = r.counts) ∧
      r.instrumented = sel.instrument.length ∧ r.passedThrough = sel.passThrough.length ∧
      r.shadows = (sel.instrument ++ sel.passThrough).map (fun f => Shadow.namePath f.path) ∧
      r.testLines = (allLines y).length ∧ r.counts.lines = r.testLines := by
  rcases p.run_cases machine progress w with
    ⟨a, w₁, e, -, -, hRun⟩ | ⟨w₀, sel, i, x, y, hTested, hRun⟩
  · cases (Prod.mk.inj (h.symm.trans hRun)).2
  obtain ⟨hRun', hReport⟩ := Prod.mk.inj (h.symm.trans hRun)
  obtain rfl : w' = w₀ := congrArg Run.world hRun'
  obtain rfl := Except.ok.inj hReport
  obtain ⟨w₁, files, hMakes, rfl, hSelected, -, hStarts, hExits⟩ := exists_makes_of_tested hTested
  have hFiles := hMakes.map_file
  have hLines : (StageSite.linesBy y).length = (allLines y).length := by
    rw [linesBy_of_exits hExits]
  refine ⟨sel, w₁, files, x, y, hSelected, hMakes, hFiles, hTested, hStarts, ?_, ?_, ?_, ?_, rfl,
    shadowPaths_eq hFiles, hLines, ?_⟩
  · intro site
    rw [table_report hExits, SiteTable.keys_credit, mem_keys_ofFiles]
  · intro site counter hFind
    rw [table_report hExits, SiteTable.find?_credit, find?_ofFiles] at hFind
    obtain ⟨_, hDeclared, rfl⟩ := Option.map_eq_some_iff.1 hFind
    obtain ⟨v, hLast, rfl⟩ := Option.map_eq_some_iff.1 hDeclared
    refine ⟨⟨v, hLast, SiteTable.describes_metadataOf v⟩, ?_⟩
    simp only [Hits.toNat_upTo, UInt64.toNat_zero, Nat.zero_add]
  · intro machine₂ progress₂ progress₂' w₂ w₂' r₂ sel₂ x₂ y₂ h₂ hTested₂ hOutput hErrors
    rw [run_of_tested hTested₂] at h₂
    obtain rfl := Except.ok.inj (Prod.mk.inj h₂).2
    obtain ⟨-, -, -, -, -, -, -, hExits₂⟩ := exists_makes_of_tested hTested₂
    have hSame : allLines y₂ = allLines y := by rw [allLines, allLines, hOutput, hErrors]
    have hPayloads : p.payloadsOf y₂ = p.payloadsOf y := by rw [payloadsOf, payloadsOf, hSame]
    refine ⟨?_, ?_⟩
    · rw [table_report hExits₂, table_report hExits, hPayloads]
    · rw [counts_report hExits₂, counts_report hExits, hPayloads, hSame]
  · rw [← hFiles, List.length_map]
    rfl
  · rw [counts_report hExits]
    exact hLines.symm

/-- Of two files that declare a site the later target gives its metadata, whatever comes first in
the response. The second stage reports the site on both streams, up to the limit; what the engine
and the first stage print of it does not count. -/
theorem run_report_shared :
    let t : FileTree := ⟨OrderedMap.ofList [(["p"], .directory), (["p", "A.sol"], .file []),
      (["p", "B.sol"], .file []), (["p", "C.sol"], .file [])]⟩
    let plan : Plan :=
      { project := "/p", roots := [⟨"/p", [⟨"A.sol", ["A.sol"], none⟩]⟩], extensions := ["sol"],
        generate := ⟨"generate", "make", []⟩, test := ⟨"test", "check", []⟩, stageLimit := none,
        environment := OrderedMap.empty, sentinel := "#", output := "/p/report.json",
        instrumenter := none, instrumenterLimit := 1 }
    let response := "[[[\"/p/C.sol\", \"\", \x7b\"s\": \x7b\"hits\": 9, \"line\": 3\x7d\x7d], " ++
      "[\"/p/B.sol\", \"\", \x7b\"s\": null, \"u\": 7\x7d]]]"
    let two := "#\x7b\"s\": \x7b\"hits\": 2\x7d\x7d#"
    let most := "#\x7b\"s\": \x7b\"hits\": 18446744073709551615\x7d\x7d#"
    let machine : Machine := fun l tree =>
      if l.program = "sh" then .ok ⟨tree, Utf8.encode response, Utf8.encode two, .exited 0⟩
      else if l.program = "make" then .ok ⟨tree, Utf8.encode two, Utf8.encode two, .exited 0⟩
      else .ok ⟨tree, Utf8.encode two, Utf8.encode most, .exited 0⟩
    let p := Pipeline.ofPlan plan "engine"
    ∃ progress w r, p.run machine ⟨Progress.idle, World.start t []⟩ = (⟨progress, w⟩, .ok r) ∧
      r.instrumented = 2 ∧ r.passedThrough = 1 ∧
      r.shadows = (["/p/.B.cover.sol", "/p/.C.cover.sol", "/p/.A.cover.sol"] : List Path) ∧
      r.counts.lines = 2 ∧
      r.table.sites.entries.map (fun e => (e.1, e.2.hits.toNat, e.2.metadata.keys)) =
        [("s", 2 ^ 64 - 1, ["line"]), ("u", 0, ["value"])] := by
  intro t plan response two most machine p
  have hTree : t.WellFormed := ⟨by unfold Rooted; decide +kernel, by decide +kernel⟩
  let sel : Selection := ⟨[⟨"/p", "B.sol", ""⟩, ⟨"/p", "C.sol", ""⟩],
    [⟨"/p", "A.sol", ""⟩]⟩
  have hSelected : Selection.ofRoots t [] plan.extensions plan.roots = .ok sel := by
    have hPath : Location.path ["p"] = "/p" := by decide +kernel
    have hRoot : t.directory? [] "/p" = some (["p"] : Location) :=
      hPath ▸ directory?_path hTree.rooted [] (by decide +kernel) (by decide +kernel)
    rw [Selection.ofRoots, Selection.ofRoots, Selection.discover, hRoot]
    decide +kernel
  let result := (p.engine.instrument machine sel.instrument (World.start t [])).2
  have hOk : result.toOption.isSome = true := by decide +kernel
  let i := result.toOption.getD Instrumentation.empty
  have hSome : result.toOption = some i := by
    obtain ⟨j, hj⟩ := Option.isSome_iff_exists.1 hOk
    simp only [i, hj, Option.getD_some]
  have hInstrumented : p.engine.instrument machine sel.instrument (World.start t []) =
      (⟨t, [], [.instrumenterStarted]⟩, .ok i) :=
    Prod.ext rfl (Outcome.eq_ok_of_toOption hSome)
  have hWritten : (writing ⟨t, [], [.instrumenterStarted]⟩ sel i).failure = none := by
    refine Shadow.failure_writeAll hTree [] (by decide +kernel : t.find? ["p"] = some .directory)
      fun s hs => ?_
    have hSources : (shadowTexts i.files sel.passThrough).map (·.source) =
        (["/p/B.sol", "/p/C.sol", "/p/A.sol"] : List Path) := by decide +kernel
    have hSource : s.source ∈ (shadowTexts i.files sel.passThrough).map (·.source) :=
      List.mem_map_of_mem hs
    rw [hSources, List.mem_cons, List.mem_cons, List.mem_singleton] at hSource
    rcases hSource with hSource | hSource | hSource <;> rw [hSource]
    · exact ⟨".B.cover.sol", by decide +kernel, by decide +kernel, Or.inl (by decide +kernel)⟩
    · exact ⟨".C.cover.sol", by decide +kernel, by decide +kernel, Or.inl (by decide +kernel)⟩
    · exact ⟨".A.cover.sol", by decide +kernel, by decide +kernel, Or.inl (by decide +kernel)⟩
  have hGenerate (tree : FileTree) : machine (p.site.launch plan.generate) tree =
      .ok ⟨tree, Utf8.encode two, Utf8.encode two, .exited 0⟩ := rfl
  have hTest (tree : FileTree) : machine (p.site.launch plan.test) tree =
      .ok ⟨tree, Utf8.encode two, Utf8.encode most, .exited 0⟩ := rfl
  have hInstrument := reaches_instrumented_iff.2
    ⟨reaches_selected_iff.2 ⟨rfl, hSelected⟩, hInstrumented⟩
  have hGenerated := reaches_generated_iff.2
    ⟨_, reaches_written_iff.2 ⟨_, hInstrument, hWritten, rfl⟩, ⟨hGenerate _, rfl⟩, rfl⟩
  have hTested := reaches_tested_iff.2 ⟨_, hGenerated, ⟨hTest _, rfl⟩, rfl⟩
  have hRun := run_of_tested hTested Progress.idle
  refine ⟨_, _, _, hRun, ?_⟩
  obtain ⟨sel', -, -, x, y, hSelected', -, -, -, hTest', -, -, -, hLeft, hRight, hShadows, hLines,
    hCount⟩ := run_report hRun
  obtain rfl : sel = sel' := Except.ok.inj (hSelected.symm.trans hSelected')
  obtain rfl := Except.ok.inj ((hTest x.tree).symm.trans hTest')
  have hTwo : (Lines.ofBytes (Utf8.encode two) ++ Lines.ofBytes (Utf8.encode most)).length = 2 := by
    decide +kernel
  exact ⟨hLeft, hRight, hShadows.trans (by decide +kernel), hCount.trans (hLines.trans hTwo),
    by decide +kernel⟩
end CoverRun.Pipeline

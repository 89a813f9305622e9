import CoverRun.Proofs.Instrumentation

/-!
# Which responses serve

Targets take their files one after the other, and a file that was taken is gone. So a response
serves the targets exactly if it has a file for each of them and no two ask for the same path
(`Exchange.exists_assemble_iff`); otherwise the first target that gets no file is the one said to be
missing (`Exchange.assemble_eq_error_iff`). Only the files under the paths of the targets matter,
and of these the last one of each path (`Exchange.take_congr`): files that no target asks for
change neither the files nor the table that come out (`Exchange.assemble_outcome`).
-/

namespace CoverRun

open Outcome

namespace Exchange

/-! ## What matters of a response -/

theorem lastReturned_eq_none_iff {returned : List ReturnedFile} {path : String} :
    lastReturned returned path = none ↔ ∀ r ∈ returned, r.path ≠ path := by
  simp [lastReturned]

theorem covers_iff {returned : List ReturnedFile} {targets : List SourceFile} :
    Covers returned targets ↔
      ∀ target ∈ targets, ∃ r, lastReturned returned (requestPath target) = some r := by
  refine forall₂_congr fun target _ => ⟨lastReturned_isSome, ?_⟩
  rintro ⟨r, hr⟩
  by_contra hNone
  push Not at hNone
  rw [lastReturned_eq_none_iff.2 hNone] at hr
  cases hr

theorem take_congr {m m' : OrderedMap String ReturnedFile} {targets : List SourceFile}
    (h : ∀ target ∈ targets, m.find? (requestPath target) = m'.find? (requestPath target)) :
    take m targets = take m' targets := by
  induction targets generalizing m m' with
  | nil => rfl
  | cons target targets ih =>
      obtain ⟨hHere, hLater⟩ := List.forall_mem_cons.1 h
      have hRest : take (m.erase (requestPath target)) targets =
          take (m'.erase (requestPath target)) targets := by
        refine ih fun other hOther => ?_
        rw [OrderedMap.find?_erase, OrderedMap.find?_erase, hLater other hOther]
      rw [take, take, hHere, hRest]

/-! ## Success and failure -/

/-- **A response serves the targets exactly if it has a file for each and none asks for the path of
another.** -/
theorem exists_assemble_iff {targets : List SourceFile} {returned : List ReturnedFile} :
    (∃ i, assemble targets returned = .ok i) ↔
      Covers returned targets ∧ (targets.map requestPath).Nodup := by
  simp only [assemble_eq_ok_iff]
  constructor
  · rintro ⟨i, files, hNodup, hBecome, -⟩
    refine ⟨covers_iff.2 fun target hTarget => ?_, hNodup⟩
    obtain ⟨i, hi, rfl⟩ := List.mem_iff_getElem.1 hTarget
    obtain ⟨r, hr, -⟩ := hBecome.get hi (hBecome.length_eq ▸ hi)
    exact ⟨r, hr⟩
  · rintro ⟨hCovers, hNodup⟩
    obtain ⟨files, hFiles⟩ := exists_becomesBy (covers_iff.1 hCovers)
    exact ⟨_, files, hNodup, hFiles, rfl⟩

theorem assemble_eq_error_iff {targets : List SourceFile} {returned : List ReturnedFile}
    {path : Path} :
    assemble targets returned = .error path ↔
      ∃ target, FirstUnserved (lastReturned returned) targets target ∧ path = target.path := by
  have hFind : (byPath returned).find? = lastReturned returned := funext (find?_byPath returned)
  rw [assemble, bind_eq_error_iff, take_eq_error_iff, hFind]
  simp [pure, Except.pure]

theorem assemble_congr {targets : List SourceFile} {returned others : List ReturnedFile}
    (h : ∀ target ∈ targets, others.filter (·.path = requestPath target) =
      returned.filter (·.path = requestPath target)) :
    assemble targets others = assemble targets returned := by
  rw [assemble, assemble, take_congr fun target hTarget => ?_]
  rw [find?_byPath, find?_byPath, lastReturned, lastReturned, h target hTarget]

end Exchange

theorem Engine.judge_of_response {engine : Engine} {targets : List SourceFile} {x : Execution}
    {returned : List ReturnedFile} (hExits : x.ending = .exited 0)
    (hReads : Exchange.response? x.output = some returned) :
    engine.judge targets x =
      (Exchange.assemble targets returned).mapError EngineError.missingFile := by
  simp only [judge, hExits, hReads]
  cases Exchange.assemble targets returned <;> rfl

namespace Exchange

/-- **What a response comes to for targets.** It serves them exactly if it covers them and no path
is asked for twice. Each target then becomes, in its place, the last returned file with its path,
and the table has the sites of these files. Otherwise the first target that gets no file is said to
be missing, and the engine fails with its path. Responses with the same files under the paths of the
targets come to the same, whatever else they hold and in whatever order. -/
theorem assemble_outcome (targets : List SourceFile) (returned : List ReturnedFile) :
    ((∃ i, assemble targets returned = .ok i) ↔
      Covers returned targets ∧ (targets.map requestPath).Nodup) ∧
    (∀ i, assemble targets returned = .ok i →
      List.Forall₂ (BecomesBy (lastReturned returned)) targets i.files ∧
      ∀ site, i.table.find? site = (Instrumentation.lastDeclared i.files site).map fun v =>
        ⟨0, SiteTable.metadataOf v⟩) ∧
    (∀ path, assemble targets returned = .error path ↔
      ∃ target, FirstUnserved (lastReturned returned) targets target ∧ path = target.path) ∧
    (∀ others, (∀ target ∈ targets, others.filter (·.path = requestPath target) =
        returned.filter (·.path = requestPath target)) →
      assemble targets others = assemble targets returned) ∧
    ∀ (engine : Engine) (x : Execution), x.ending = .exited 0 → response? x.output = some returned →
      engine.judge targets x = (assemble targets returned).mapError EngineError.missingFile := by
  refine ⟨exists_assemble_iff, ?_, fun path => assemble_eq_error_iff, fun others => assemble_congr,
    fun engine x => Engine.judge_of_response⟩
  intro i hAssemble
  obtain ⟨files, -, hBecome, rfl⟩ := assemble_eq_ok_iff.1 hAssemble
  exact ⟨hBecome, Instrumentation.find?_ofFiles files⟩

/-- Files in another order, one for a path that no target has, and two for the path of one target.
A target that comes again is not served. -/
theorem assemble_outcome_shuffled :
    let a : SourceFile := ⟨"/p", "a.sol", "A"⟩
    let b : SourceFile := ⟨"/p", "b.sol", "B"⟩
    let returned : List ReturnedFile := [⟨"/p/b.sol", "first", OrderedMap.empty⟩,
      ⟨"/p/x.sol", "extra", OrderedMap.empty.insert "S" .null⟩,
      ⟨"/p/b.sol", "second", OrderedMap.empty⟩, ⟨"/p/a.sol", "only", OrderedMap.empty⟩]
    (∃ i, assemble [a, b] returned = .ok i ∧ i.files.map (·.text) = ["only", "second"] ∧
      i.table.find? "S" = none) ∧
    ¬ ∃ i, assemble [a, b, a] returned = .ok i := by
  intro a b returned
  have hCovers : Covers returned [a, b] := by
    unfold Covers
    decide +kernel
  have hNodup : ([a, b].map requestPath).Nodup := by decide +kernel
  have hPathA : requestPath a = "/p/a.sol" := by decide +kernel
  have hPathB : requestPath b = "/p/b.sol" := by decide +kernel
  have hLastA : lastReturned returned (requestPath a) = some returned[3] := by
    simp [hPathA, lastReturned, returned]
  have hLastB : lastReturned returned (requestPath b) = some returned[2] := by
    simp [hPathB, lastReturned, returned]
  obtain ⟨hServes, hFiles, -⟩ := assemble_outcome [a, b] returned
  obtain ⟨i, hAssemble⟩ := hServes.2 ⟨hCovers, hNodup⟩
  obtain ⟨hBecome, hTable⟩ := hFiles i hAssemble
  have hEq : i.files = [instrumentedBy a returned[3], instrumentedBy b returned[2]] := by
    simpa [BecomesBy, List.forall₂_cons_left_iff, hLastA, hLastB] using hBecome
  refine ⟨⟨i, hAssemble, by rw [hEq]; rfl, by rw [hTable, hEq]; rfl⟩, fun hServed => ?_⟩
  exact absurd ((assemble_outcome [a, b, a] returned).1.1 hServed).2 (by decide +kernel)

end Exchange

end CoverRun

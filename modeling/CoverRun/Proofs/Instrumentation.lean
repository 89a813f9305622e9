import CoverRun.Instrumentation.Engine
import CoverRun.Proofs.Coverage.Operations
import CoverRun.Proofs.Instrumentation.Exchange

/-!
# What instrumenting comes to

An engine succeeds exactly if there is nothing to do, or its process exits with zero and returns a
file for each target (`Engine.instrument_eq_ok_iff`). The table of the files knows a site exactly if
one of them declares it, and has it from the last one that does (`Instrumentation.find?_ofFiles`).
-/

namespace CoverRun

/-! ## The table of files -/

namespace Instrumentation

/-- The value by which the last of the files that declare a site does so. -/
def lastDeclared (files : List InstrumentedFile) (site : String) : Option Json.Value :=
  (files.filterMap fun f => f.sites.find? site).getLast?

theorem find?_registerFile (t : SiteTable) (f : InstrumentedFile) (site : String) :
    (registerFile t f).find? site =
      ((f.sites.find? site).map fun v => ⟨0, SiteTable.metadataOf v⟩).or (t.find? site) := by
  obtain ⟨file, text, ⟨es, hAscending⟩⟩ := f
  simp only [registerFile, OrderedMap.find?]
  induction es generalizing t with
  | nil => rfl
  | cons e rest ih =>
      obtain ⟨hHead, hTail⟩ := List.pairwise_cons.1 hAscending
      rw [List.foldl_cons, ih _ hTail, SiteTable.find?_register]
      by_cases hSite : site = e.1
      · have hNone : Entries.find? site rest = none := Entries.find?_eq_none_iff.2 fun hMem => by
          obtain ⟨e', he', hEq⟩ := List.mem_map.1 hMem
          exact KeyOrder.ne_of_before (hHead e' he') (hSite.symm.trans hEq.symm)
        rw [hNone]
        simp [Entries.find?, hSite]
      · simp [Entries.find?, hSite]

theorem lastDeclared_concat (files : List InstrumentedFile) (f : InstrumentedFile)
    (site : String) :
    lastDeclared (files ++ [f]) site = (f.sites.find? site).or (lastDeclared files site) := by
  rw [lastDeclared, List.filterMap_append]
  cases h : f.sites.find? site <;> simp [lastDeclared, h]

/-- **The last declaration of a site counts**, and no site has hits yet. -/
theorem find?_ofFiles (files : List InstrumentedFile) (site : String) :
    (ofFiles files).table.find? site =
      (lastDeclared files site).map fun v => ⟨0, SiteTable.metadataOf v⟩ := by
  induction files using List.reverseRecOn with
  | nil => rfl
  | append_singleton files f ih =>
      have hLast : (ofFiles (files ++ [f])).table = registerFile (ofFiles files).table f := by
        rw [ofFiles, List.foldl_append]
        rfl
      rw [hLast, find?_registerFile, ih, lastDeclared_concat]
      cases f.sites.find? site <;> rfl

theorem mem_keys_ofFiles {files : List InstrumentedFile} {site : String} :
    site ∈ (ofFiles files).table.sites.keys ↔ ∃ f ∈ files, site ∈ f.sites.keys := by
  have hKnown : site ∉ (ofFiles files).table.sites.keys ↔ lastDeclared files site = none := by
    rw [← OrderedMap.find?_eq_none_iff]
    change (ofFiles files).table.find? site = none ↔ _
    rw [find?_ofFiles, Option.map_eq_none_iff]
  have hDeclared : lastDeclared files site = none ↔ ∀ f ∈ files, site ∉ f.sites.keys := by
    simp only [lastDeclared, List.getLast?_eq_none_iff, List.filterMap_eq_nil_iff,
      OrderedMap.find?_eq_none_iff]
  rw [← not_iff_not, hKnown, hDeclared]
  push Not
  rfl

end Instrumentation

/-! ## Engines -/

namespace Engine

/-- What an engine makes of targets, and the world after it. Without targets it is not started. Its
process must exit with zero, and each target takes the last file that it returns under its path. -/
inductive Makes (engine : Engine) (machine : Machine) (targets : List SourceFile) (w : World) :
    World → List InstrumentedFile → Prop
  | idle (empty : targets = []) : Makes engine machine targets w w []
  | served {x : Execution} {returned : List ReturnedFile} {files : List InstrumentedFile}
      (busy : targets ≠ [])
      (starts : machine (engine.launch targets) w.tree = .ok x)
      (exits : x.ending = .exited 0)
      (reads : Exchange.response? x.output = some returned)
      (nodup : (targets.map Exchange.requestPath).Nodup)
      (takes : List.Forall₂ (Exchange.BecomesBy (Exchange.lastReturned returned)) targets files) :
      Makes engine machine targets w
        { w.record [.instrumenterStarted] with tree := x.tree } files

/-- What an engine leaves in the journal, whether it succeeds or not. -/
def effects (targets : List SourceFile) : List Effect :=
  if targets = [] then [] else [.instrumenterStarted]

section

variable {engine : Engine} {machine : Machine} {targets : List SourceFile} {w w' : World}

theorem Makes.map_file {files : List InstrumentedFile}
    (h : engine.Makes machine targets w w' files) : files.map (·.file) = targets := by
  cases h with
  | idle empty => exact empty.symm
  | served _ _ _ _ _ takes => exact Exchange.map_file_of_becomesBy takes

theorem journal_instrument (engine : Engine) (machine : Machine) (targets : List SourceFile)
    (w : World) :
    (engine.instrument machine targets w).1.journal = w.journal ++ effects targets := by
  rw [effects, instrument]
  cases targets with
  | nil => exact (List.append_nil _).symm
  | cons target targets =>
      simp only [List.isEmpty_cons, Bool.false_eq_true, if_false, reduceCtorEq]
      split <;> rfl

theorem judge_eq_ok_iff {x : Execution} {i : Instrumentation} :
    engine.judge targets x = .ok i ↔ x.ending = .exited 0 ∧
      ∃ returned, Exchange.response? x.output = some returned ∧
        Exchange.assemble targets returned = .ok i := by
  rw [judge]
  cases x.ending with
  | exited code =>
      cases code with
      | zero =>
          cases Exchange.response? x.output with
          | none => simp
          | some returned => cases hTaken : Exchange.assemble targets returned <;> simp [hTaken]
      | succ code => simp
  | signalled => simp
  | expired => simp

/-- **An engine succeeds exactly if it makes files**, whose sites are then known. -/
theorem instrument_eq_ok_iff {i : Instrumentation} :
    engine.instrument machine targets w = (w', .ok i) ↔
      ∃ files, engine.Makes machine targets w w' files ∧ i = Instrumentation.ofFiles files := by
  by_cases hIdle : targets = []
  · have hEmpty : engine.instrument machine targets w = (w, .ok (Instrumentation.ofFiles [])) := by
      subst hIdle
      rfl
    rw [hEmpty]
    constructor
    · intro h
      obtain ⟨rfl, hResult⟩ := Prod.mk.inj h
      exact ⟨[], .idle hIdle, (Except.ok.inj hResult).symm⟩
    · rintro ⟨files, hMakes, rfl⟩
      cases hMakes with
      | idle => rfl
      | served busy => exact absurd hIdle busy
  · have hBusy : targets.isEmpty = false := by simp [hIdle]
    rw [instrument, hBusy]
    simp only [Bool.false_eq_true, if_false]
    constructor
    · intro h
      split at h
      · cases (Prod.mk.inj h).2
      · next x starts =>
        obtain ⟨rfl, hJudge⟩ := Prod.mk.inj h
        obtain ⟨exits, returned, reads, hAssemble⟩ := judge_eq_ok_iff.1 hJudge
        obtain ⟨files, nodup, takes, rfl⟩ := Exchange.assemble_eq_ok_iff.1 hAssemble
        exact ⟨files, .served hIdle starts exits reads nodup takes, rfl⟩
    · rintro ⟨files, hMakes, rfl⟩
      cases hMakes with
      | idle empty => exact absurd empty hIdle
      | @served x returned _ busy starts exits reads nodup takes =>
          have hAssemble := Exchange.assemble_eq_ok_iff.2 ⟨files, nodup, takes, rfl⟩
          have hJudge : engine.judge targets x = .ok (Instrumentation.ofFiles files) :=
            judge_eq_ok_iff.2 ⟨exits, returned, reads, hAssemble⟩
          simp only [World.record, starts, hJudge]

end

end Engine

end CoverRun

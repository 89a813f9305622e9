import CoverRun.Proofs.Coverage.Merging
import CoverRun.Proofs.Stage
import CoverRun.Stage.Relay

/-!
# Nothing is lost or doubled on the way

Whatever moves next, the lines of a stream are at any time those that were ingested, those in the
channel and those that its pump has still to send, in this order (`Relay.Flows`). Each move keeps
this (`Relay.Flows.step`) and brings the end nearer (`Relay.Step.left_lt`), and before the end there
is always a move (`Relay.exists_step`). So each relay can be brought to its end, and what it has
done by then does not depend on the order of the moves (`Relay.reaches_delivers`).
-/

namespace CoverRun

theorem World.printedOn_append (stream : OutputStream) (es es' : List Effect) :
    printedOn stream (es ++ es') = printedOn stream es ++ printedOn stream es' := by
  rw [printedOn, List.filterMap_append, String.join_append]
  rfl

theorem World.printed_record (w : World) (stream : OutputStream) (es : List Effect) :
    (w.record es).printed stream = w.printed stream ++ printedOn stream es :=
  printedOn_append stream w.journal es

namespace Relay

/-! ## The lines of one stream -/

/-- The texts of the lines of a stream. -/
def linesOn (stream : OutputStream) (lines : List StreamLine) : List String :=
  (lines.filter (·.1 = stream)).map (·.2)

@[simp] theorem linesOn_nil (stream : OutputStream) : linesOn stream [] = [] := rfl

@[simp] theorem linesOn_append (stream : OutputStream) (lines lines' : List StreamLine) :
    linesOn stream (lines ++ lines') = linesOn stream lines ++ linesOn stream lines' := by
  simp [linesOn]

theorem linesOn_cons (stream : OutputStream) (line : StreamLine) (lines : List StreamLine) :
    linesOn stream (line :: lines) = linesOn stream [line] ++ linesOn stream lines :=
  linesOn_append stream [line] lines

theorem linesOn_singleton (stream stream' : OutputStream) (text : String) :
    linesOn stream [(stream', text)] = if stream = stream' then [text] else [] := by
  by_cases h : stream = stream' <;> simp [linesOn, h, eq_comm]

/-- The lines of both streams one after the other. -/
def inTurn (written : OutputStream → List String) : List StreamLine :=
  (written .output).map (Prod.mk .output) ++ (written .errors).map (Prod.mk .errors)

/-- Lines whose texts are known stream by stream are known but for how the streams alternate. -/
theorem perm_inTurn (lines : List StreamLine) : lines.Perm (inTurn fun s => linesOn s lines) := by
  have hTagged (stream : OutputStream) :
      (linesOn stream lines).map (Prod.mk stream) = lines.filter (·.1 = stream) := by
    rw [linesOn, List.map_map]
    refine (List.map_congr_left fun line hLine => ?_).trans (List.map_id _)
    have hStream : line.1 = stream := by simpa using (List.mem_filter.1 hLine).2
    exact Prod.ext hStream.symm rfl
  have hOther : (fun line : StreamLine => decide (line.1 = .errors)) =
      fun line => !decide (line.1 = .output) := by
    funext ⟨stream, text⟩
    cases stream <;> rfl
  have hParts := List.filter_append_perm (fun line : StreamLine => decide (line.1 = .output)) lines
  rw [inTurn, hTagged, hTagged, hOther]
  exact hParts.symm

theorem printedOn_forward (stream : OutputStream) (lines : List StreamLine) :
    World.printedOn stream (lines.map fun line => StageSite.forward line.1 line.2) =
      String.join ((linesOn stream lines).map (· ++ "\n")) := by
  induction lines with
  | nil => rfl
  | cons line lines ih =>
      have hHead : World.printedOn stream [StageSite.forward line.1 line.2] =
          String.join ((linesOn stream [line]).map (· ++ "\n")) := by
        by_cases h : line.1 = stream <;> simp [World.printedOn, linesOn, StageSite.forward, h]
      rw [linesOn_cons, List.map_append, String.join_append, ← ih, ← hHead,
        ← World.printedOn_append]
      rfl

/-! ## What each move keeps -/

/-- How the lines that were written to the streams are spread over a relay. -/
structure Flows (written : OutputStream → List String) (tally : Tally) (r : Relay) : Prop where
  spread : ∀ stream,
    linesOn stream r.ingested ++ (linesOn stream r.channel ++ (r.pump stream).getD []) =
      written stream
  holds : r.ingested = r.forwarded ++ r.held.toList
  counted : r.lines = r.forwarded.length
  merged : r.tally = tally.ingestAll (r.ingested.map (·.2))
  drained : r.ended = true → r.held = none ∧ r.channel = [] ∧ ∀ stream, r.pump stream = none

theorem flows_start (written : OutputStream → List String) (tally : Tally) :
    Flows written tally (start written tally) where
  spread := fun _ => rfl
  holds := rfl
  counted := rfl
  merged := rfl
  drained := fun h => by cases h

theorem ingestAll_concat (t : Tally) (lines : List String) (line : String) :
    t.ingestAll (lines ++ [line]) = (t.ingestAll lines).ingest line := by
  rw [Tally.ingestAll, List.foldl_append]
  rfl

variable {written : OutputStream → List String} {tally : Tally} {r s : Relay}

/-- Before a move other than the last one, the driver runs. -/
theorem Flows.not_ended (h : Flows written tally r)
    (hBusy : r.held ≠ none ∨ r.channel ≠ [] ∨ ∃ stream, r.pump stream ≠ none) :
    r.ended = false := by
  rw [← Bool.not_eq_true]
  intro hEnded
  obtain ⟨hHeld, hChannel, hPump⟩ := h.drained hEnded
  rcases hBusy with hBusy | hBusy | ⟨stream, hBusy⟩
  · exact hBusy hHeld
  · exact hBusy hChannel
  · exact hBusy (hPump stream)

/-- **Each move keeps how the lines are spread.** -/
theorem Flows.step (h : Flows written tally r) (hStep : Step r s) : Flows written tally s := by
  cases hStep with
  | @send stream line rest next =>
      have hRuns : r.ended = false := h.not_ended (Or.inr (Or.inr ⟨stream, by simp [next]⟩))
      refine ⟨fun stream' => ?_, h.holds, h.counted, h.merged, fun hEnded => ?_⟩
      · have hSpread := h.spread stream'
        by_cases hStream : stream' = stream
        · subst hStream
          rw [next] at hSpread
          simpa [Relay.send, setPump, linesOn_singleton] using hSpread
        · simpa [Relay.send, setPump, linesOn_singleton, hStream] using hSpread
      · exact absurd (hRuns.symm.trans hEnded) (by decide)
  | @close stream atEnd =>
      have hRuns : r.ended = false := h.not_ended (Or.inr (Or.inr ⟨stream, by simp [atEnd]⟩))
      refine ⟨fun stream' => ?_, h.holds, h.counted, h.merged, fun hEnded => ?_⟩
      · have hSpread := h.spread stream'
        by_cases hStream : stream' = stream
        · subst hStream
          rw [atEnd] at hSpread
          simpa [setPump] using hSpread
        · simpa [setPump, hStream] using hSpread
      · exact absurd (hRuns.symm.trans hEnded) (by decide)
  | @ingest line rest idle next =>
      have hRuns : r.ended = false := h.not_ended (Or.inr (Or.inl (by simp [next])))
      refine ⟨fun stream => ?_, ?_, h.counted, ?_, fun hEnded => ?_⟩
      · have hSpread := h.spread stream
        rw [next, linesOn_cons] at hSpread
        simpa [Relay.ingest] using hSpread
      · have hHolds := h.holds
        rw [idle] at hHolds
        simpa [Relay.ingest] using hHolds
      · change r.tally.ingest line.2 = tally.ingestAll ((r.ingested ++ [line]).map (·.2))
        rw [List.map_append, List.map_singleton, ingestAll_concat, ← h.merged]
      · exact absurd (hRuns.symm.trans hEnded) (by decide)
  | @forward line holds =>
      have hRuns : r.ended = false := h.not_ended (Or.inl (by simp [holds]))
      refine ⟨h.spread, ?_, ?_, h.merged, fun hEnded => ?_⟩
      · have hHolds := h.holds
        rw [holds] at hHolds
        simpa [Relay.forward] using hHolds
      · simpa [Relay.forward] using h.counted
      · exact absurd (hRuns.symm.trans hEnded) (by decide)
  | finish idle empty closed _ =>
      exact ⟨h.spread, h.holds, h.counted, h.merged, fun _ => ⟨idle, empty, closed⟩⟩

theorem Reaches.flows (h : Reaches (start written tally) r) : Flows written tally r := by
  induction h with
  | refl => exact flows_start written tally
  | tail _ hStep ih => exact ih.step hStep

/-! ## The way to the end -/

/-- How many moves a pump has still to make. -/
def pumpLeft : Option (List String) → Nat
  | none => 0
  | some lines => 3 * lines.length + 1

/-- How many moves are left at most. A line that was not sent is still to be sent, ingested and
forwarded. -/
def left (r : Relay) : Nat :=
  pumpLeft (r.pump .output) + pumpLeft (r.pump .errors) + 2 * r.channel.length +
    r.held.toList.length + (!r.ended).toNat

theorem Step.left_lt (h : Step r s) : s.left < r.left := by
  cases h with
  | @send stream line rest next =>
      cases stream <;>
        simp only [left, Relay.send, setPump, next, pumpLeft, List.length_append,
          List.length_cons, List.length_nil, if_true, reduceCtorEq, if_false] <;> omega
  | @close stream atEnd =>
      cases stream <;>
        simp only [left, setPump, atEnd, pumpLeft, List.length_nil, if_true, reduceCtorEq,
          if_false] <;> omega
  | ingest idle next =>
      simp only [left, Relay.ingest, idle, next, List.length_cons, Option.toList_some,
        Option.toList_none, List.length_nil]
      omega
  | forward holds =>
      simp only [left, Relay.forward, holds, Option.toList_some, Option.toList_none,
        List.length_cons, List.length_nil]
      omega
  | finish idle empty closed running =>
      simp only [left, running, Bool.not_true, Bool.not_false, Bool.toNat_true, Bool.toNat_false]
      omega

/-- **Before the end there is a move.** -/
theorem exists_step (h : r.ended = false) : ∃ s, Step r s := by
  by_cases hClosed : ∀ stream, r.pump stream = none
  · cases hHeld : r.held with
    | some line => exact ⟨_, .forward hHeld⟩
    | none =>
        cases hChannel : r.channel with
        | nil => exact ⟨_, .finish hHeld hChannel hClosed h⟩
        | cons line rest => exact ⟨_, .ingest hHeld hChannel⟩
  · push Not at hClosed
    obtain ⟨stream, hOpen⟩ := hClosed
    obtain ⟨lines, hLines⟩ := Option.ne_none_iff_exists'.1 hOpen
    cases lines with
    | nil => exact ⟨_, .close hLines⟩
    | cons line rest => exact ⟨_, .send hLines⟩

theorem Reaches.trans {q : Relay} (h : Reaches q r) (h' : Reaches r s) : Reaches q s := by
  induction h' with
  | refl => exact h
  | tail _ hStep ih => exact .tail ih hStep

theorem exists_reaches_ended (r : Relay) : ∃ s, Reaches r s ∧ s.ended = true := by
  generalize hLeft : r.left = n
  induction n using Nat.strongRecOn generalizing r with
  | ind n ih =>
      cases hEnded : r.ended with
      | true => exact ⟨r, .refl, hEnded⟩
      | false =>
          obtain ⟨q, hStep⟩ := exists_step hEnded
          obtain ⟨s, hReaches, hEnd⟩ := ih q.left (hLeft ▸ hStep.left_lt) q rfl
          exact ⟨s, Reaches.trans (.tail .refl hStep) hReaches, hEnd⟩

/-! ## At the end -/

theorem Flows.linesOn_ingested (h : Flows written tally r) (hEnded : r.ended = true)
    (stream : OutputStream) : linesOn stream r.ingested = written stream := by
  obtain ⟨-, hChannel, hPump⟩ := h.drained hEnded
  have hSpread := h.spread stream
  rw [hChannel, hPump] at hSpread
  simpa using hSpread

theorem Flows.forwarded_eq (h : Flows written tally r) (hEnded : r.ended = true) :
    r.forwarded = r.ingested := by
  obtain ⟨hHeld, -⟩ := h.drained hEnded
  have hHolds := h.holds
  rw [hHeld] at hHolds
  simpa using hHolds.symm

theorem Flows.ingested_perm (h : Flows written tally r) (hEnded : r.ended = true) :
    r.ingested.Perm (inTurn written) := by
  have hLines : (fun stream => linesOn stream r.ingested) = written :=
    funext (h.linesOn_ingested hEnded)
  have hPerm := perm_inTurn r.ingested
  rwa [hLines] at hPerm

theorem Flows.lines_eq (h : Flows written tally r) (hEnded : r.ended = true) :
    r.lines = (written .output).length + (written .errors).length := by
  rw [h.counted, h.forwarded_eq hEnded, (h.ingested_perm hEnded).length_eq]
  simp [inTurn]

theorem Flows.textOn_eq (h : Flows written tally r) (hEnded : r.ended = true)
    (stream : OutputStream) :
    r.textOn stream = String.join ((written stream).map (· ++ "\n")) := by
  rw [textOn, effects, printedOn_forward, h.forwarded_eq hEnded, h.linesOn_ingested hEnded]

theorem Flows.tally_eq (h : Flows written tally r) (hEnded : r.ended = true) :
    r.tally = tally.ingestAll (written .output ++ written .errors) := by
  have hTexts : (inTurn written).map (·.2) = written .output ++ written .errors := by
    simp [inTurn, Function.comp_def]
  rw [h.merged, Tally.ingestAll_perm tally ((h.ingested_perm hEnded).map (·.2)), hTexts]

end Relay

/-! ## The relay of a stage -/

namespace StageSite

/-- The lines of an execution that come through, stream by stream. -/
def linesOn (x : Execution) : OutputStream → List String
  | .output => linesOf x.ending x.output
  | .errors => linesOf x.ending x.errors

theorem printed_after (command : StageCommand) (x : Execution) (w : World)
    (stream : OutputStream) :
    (after command x w).printed stream =
      w.printed stream ++ String.join ((linesOn x stream).map (· ++ "\n")) := by
  have hForwarded : forwarded x =
      (Relay.inTurn (linesOn x)).map fun line => forward line.1 line.2 := by
    simp [forwarded, Relay.inTurn, linesOn, Function.comp_def]
  have hLines : Relay.linesOn stream (Relay.inTurn (linesOn x)) = linesOn x stream := by
    have hTagged (stream' : OutputStream) (texts : List String) :
        Relay.linesOn stream (texts.map (Prod.mk stream')) =
          if stream' = stream then texts else [] := by
      by_cases h : stream' = stream <;> simp [Relay.linesOn, List.filter_map, Function.comp_def, h]
    rw [Relay.inTurn, Relay.linesOn_append, hTagged, hTagged]
    cases stream <;> simp
  have hEffects : World.printedOn stream (effects command x) =
      World.printedOn stream (forwarded x) := by
    rw [effects, ← List.singleton_append, World.printedOn_append, World.printedOn_append]
    simp [World.printedOn]
  rw [after, World.printed_record, hEffects, hForwarded, Relay.printedOn_forward, hLines]
  rfl

end StageSite

namespace Relay

variable {written : OutputStream → List String} {tally : Tally} {r : Relay}

/-- **Nothing is lost or doubled, in whatever order the pumps and the driver move.** What was
forwarded is at any time a beginning of what was ingested, and the relay can be brought to its end.
Then each line was ingested once, those of a stream in their order; all were counted; the text
forwarded to a stream is that of its lines; and the tally has read the lines of both streams. So a
stage reports and prints just what any relay of the lines of its process comes to. -/
theorem reaches_delivers (h : Reaches (start written tally) r) :
    r.forwarded <+: r.ingested ∧
      (∃ s, Reaches r s ∧ s.ended = true) ∧
      (r.ended = true →
        r.lines = (written .output).length + (written .errors).length ∧
        r.ingested.Perm (inTurn written) ∧
        (∀ stream, linesOn stream r.ingested = written stream) ∧
        (∀ stream, r.textOn stream = String.join ((written stream).map (· ++ "\n"))) ∧
        r.tally = tally.ingestAll (written .output ++ written .errors) ∧
        ∀ (site : StageSite) (machine : Machine) (command : StageCommand) (w : World)
          (x : Execution), machine (site.launch command) w.tree = .ok x →
          written = StageSite.linesOn x →
            let run := site.run machine command (some tally) w
            run.result = site.judge command.name r.lines x.ending ∧ run.tally = some r.tally ∧
              ∀ stream, run.world.printed stream = w.printed stream ++ r.textOn stream) := by
  have hFlows := h.flows
  refine ⟨⟨_, hFlows.holds.symm⟩, exists_reaches_ended r, fun hEnded => ?_⟩
  have hLines := hFlows.lines_eq hEnded
  have hTally := hFlows.tally_eq hEnded
  have hText := hFlows.textOn_eq hEnded
  refine ⟨hLines, hFlows.ingested_perm hEnded, hFlows.linesOn_ingested hEnded, hText, hTally, ?_⟩
  intro site machine command w x hStarts hWritten run
  have hRun := StageSite.run_of_starts hStarts (some tally)
  have hCount : (StageSite.linesBy x).length = r.lines := by
    rw [hLines, hWritten, StageSite.linesBy, List.length_append]
    rfl
  refine ⟨?_, ?_, fun stream => ?_⟩
  · rw [← hCount]
    exact congrArg StageRun.result hRun
  · rw [hTally, hWritten]
    exact congrArg StageRun.tally hRun
  · rw [hText, hWritten, ← StageSite.printed_after command x w stream]
    exact congrArg (fun run : StageRun => run.world.printed stream) hRun

/-- A line that was written to the errors comes first, and its payload cannot be read. -/
theorem reaches_delivers_errors_first :
    let payload := "|\x7b\"a\":[9]\x7d|"
    let defect := "|\x7b\"a\":[9],\"a\"\x7d|"
    let written : OutputStream → List String
      | .output => ["ok", payload]
      | .errors => [defect]
    let table : SiteTable :=
      ⟨OrderedMap.ofList [("a", ⟨Hits.upTo (2 ^ 64 - 3), OrderedMap.empty⟩)]⟩
    let tally := Tally.start "|" table
    ∃ r, Reaches (start written tally) r ∧ r.ended = true ∧
      r.forwarded = [(.errors, defect), (.output, "ok"), (.output, payload)] ∧ r.lines = 3 ∧
      r.textOn .output = "ok\n" ++ payload ++ "\n" ∧
      (r.tally.table.find? "a").map (·.hits.toNat) = some (2 ^ 64 - 1) ∧
      r.tally.counts = ⟨3, 1, 1, 0⟩ := by
  intro payload defect written table tally
  have hStart : Reaches (start written tally) (start written tally) := .refl
  have hSent := Reaches.tail (.tail (.tail hStart (@Step.send _ .errors defect [] rfl))
    (@Step.close _ .errors rfl)) (.ingest rfl rfl)
  have hHeld := Reaches.tail (.tail (.tail hSent (@Step.send _ .output "ok" [payload] rfl))
    (.forward rfl)) (.ingest rfl rfl)
  have hRest := Reaches.tail (.tail (.tail hHeld (@Step.send _ .output payload [] rfl))
    (@Step.close _ .output rfl)) (.forward rfl)
  have hAll := Reaches.tail (.tail hRest (.ingest rfl rfl)) (.forward rfl)
  have hEnd := hAll.tail (.finish rfl rfl (fun stream => by cases stream <;> rfl) rfl)
  obtain ⟨-, -, hDelivers⟩ := reaches_delivers hEnd
  obtain ⟨hLines, -, -, hText, hTally, -⟩ := hDelivers rfl
  refine ⟨_, hEnd, rfl, rfl, hLines, (hText .output).trans (by decide +kernel), ?_, ?_⟩
  · rw [hTally]
    decide +kernel
  · rw [hTally]
    decide +kernel

end Relay

end CoverRun

import CoverRun.Proofs.Coverage.Enclosure
import CoverRun.Proofs.Coverage.Payload
import CoverRun.Proofs.Plan
import CoverRun.Proofs.Text.Lines
import CoverRun.Stage

/-!
# Payloads on their way

A test writes a payload between two sentinels on a line of its own. Whether it is read from the
lines that come through depends on the sentinel alone and on where it meets the text
(`Sentinel.Fits`). One that ends a line or in a carriage return does not come through, and one that
begins inside the text cuts it off.
-/

namespace CoverRun.Sentinel

/-- The sentinel comes through around a text on one line, and does not begin inside the text. -/
structure Fits (sentinel text : List Char) : Prop where
  oneLine : '\n' ∉ sentinel
  kept : sentinel.getLast? ≠ some '\r'
  apart : ∀ k, 1 ≤ k → k < text.length → ¬ OccursAt sentinel (text ++ sentinel) k

/-- A sentinel that begins inside the text cuts it off. -/
theorem payload?_cut {sentinel text : List Char} (unbroken : '\n' ∉ text) {k : Nat} (hk : 1 ≤ k)
    (hLength : k < text.length) (hOccurs : OccursAt sentinel (text ++ sentinel) k) :
    ∃ n < text.length, payload? sentinel (sentinel ++ text ++ sentinel) = some (text.take n) := by
  obtain ⟨n, ⟨hn, hShort, hFirst⟩, hLeast⟩ :=
    exists_first (P := fun n => 1 ≤ n ∧ n < text.length ∧ OccursAt sentinel (text ++ sentinel) n)
      ⟨k, hk, hLength, hOccurs⟩
  have hInside (m : Nat) : OccursAt sentinel (sentinel ++ text ++ sentinel) (sentinel.length + m) ↔
      OccursAt sentinel (text ++ sentinel) m := by
    rw [List.append_assoc]
    exact occursAt_append_right _
  have hBetween : payloadBetween sentinel (sentinel ++ text ++ sentinel) 0 (sentinel.length + n) =
      text.take n := by
    rw [payloadBetween, Nat.zero_add, Nat.add_sub_cancel_left, List.append_assoc, List.drop_left,
      List.take_append_of_le_length hShort.le]
  refine ⟨n, hShort, payload?_eq_some_iff.2 ⟨0, sentinel.length + n,
    ⟨⟨?_, (hInside n).2 hFirst, by omega, ?_, ?_⟩, fun i j h => ⟨Nat.zero_le i, ?_⟩⟩,
    hBetween.symm⟩⟩
  · simp [OccursAt]
  · simp only [List.length_append]
    omega
  · change '\n' ∉ payloadBetween sentinel (sentinel ++ text ++ sentinel) 0 (sentinel.length + n)
    rw [hBetween]
    exact fun hMem => unbroken (List.mem_of_mem_take hMem)
  · rintro rfl
    obtain ⟨m, rfl⟩ : ∃ m, j = sentinel.length + m := ⟨j - sentinel.length, by
      have := h.2.2.1
      omega⟩
    have hm : 1 ≤ m := by have := h.2.2.1; omega
    by_cases hInText : m < text.length
    · have := hLeast m ⟨hm, hInText, (hInside m).1 h.2.1⟩
      omega
    · omega

theorem payload?_of_fits {sentinel text : List Char} (nonempty : text ≠ [])
    (unbroken : '\n' ∉ text) (h : Fits sentinel text) :
    payload? sentinel (sentinel ++ text ++ sentinel) = some text := by
  have hFramed := @payload?_framed sentinel [] text [] nonempty unbroken
    (fun i hi => absurd hi (Nat.not_lt_zero i)) h.apart
  rwa [List.append_nil, List.nil_append] at hFramed

theorem count_of_encloses {sentinel line : List Char} {i j : Nat} (h : Encloses sentinel line i j)
    (c : Char) : 2 * sentinel.count c ≤ line.count c := by
  obtain ⟨⟨us, hUs⟩, ⟨vs, hVs⟩, hSome, -, -⟩ := h
  have hRest : us.drop (j - (i + sentinel.length)) = sentinel ++ vs := by
    calc us.drop (j - (i + sentinel.length))
        = (line.drop i).drop (sentinel.length + (j - (i + sentinel.length))) := by
          rw [← hUs, ← List.drop_drop, List.drop_left]
      _ = line.drop j := by
          rw [List.drop_drop]
          congr 1
          omega
      _ = sentinel ++ vs := hVs.symm
  have hSecond : sentinel.count c ≤ us.count c := by
    refine le_trans ?_ ((List.drop_sublist (j - (i + sentinel.length)) us).count_le c)
    rw [hRest, List.count_append]
    omega
  refine le_trans ?_ ((List.drop_sublist i line).count_le c)
  rw [← hUs, List.count_append]
  omega

end CoverRun.Sentinel

namespace CoverRun

open Lines Sentinel

/-! ## Lines that come through -/

/-- What a test prints: a text between two sentinels on a line of its own. -/
def framed (sentinel text : String) : Bytes := Utf8.encode (sentinel ++ text ++ sentinel ++ "\n")

/-- What ends with a line feed comes through whole, however its process ends. -/
theorem StageSite.linesOf_framed (ending : Ending) (sentinel text : String) :
    linesOf ending (framed sentinel text) =
      (pieces (sentinel.toList ++ text.toList ++ sentinel.toList ++ ['\n'])).map fun p =>
        String.ofList (trimReturns p) := by
  have hBytes : framed sentinel text =
      (sentinel.toList ++ text.toList ++ sentinel.toList ++ ['\n']).flatMap Utf8.encodeChar := by
    rw [framed, Utf8.encode, String.toList_append, String.toList_append, String.toList_append]
    rfl
  have hFinished (cs : List Char) : ofFinished ((cs ++ ['\n']).flatMap Utf8.encodeChar) =
      ofBytes ((cs ++ ['\n']).flatMap Utf8.encodeChar) := by
    rw [ofFinished, List.flatMap_append, List.flatMap_singleton, encodeChar_lineFeed,
      List.reverse_append]
    simp
  rw [hBytes, ← ofBytes_encode]
  cases ending with
  | expired => exact hFinished _
  | _ => rfl

theorem count_trimReturns {cs : List Char} (h : cs.getLast? = some '\r') :
    (trimReturns cs).count '\r' < cs.count '\r' := by
  obtain ⟨front, rfl⟩ := List.getLast?_eq_some_iff.1 h
  rw [trimReturns_concat, if_pos rfl, List.count_append]
  have hLe := (trimReturns_prefix_self front).sublist.count_le '\r'
  simp only [List.count_singleton_self]
  omega

theorem trimReturns_of_getLast? {cs : List Char} (h : cs.getLast? ≠ some '\r') :
    trimReturns cs = cs := by
  induction cs using List.reverseRecOn with
  | nil => rfl
  | append_singleton cs c _ =>
      rw [trimReturns_concat, if_neg]
      simpa using h

/-- No two occurrences of a sentinel that ends a line or in a return are left in the lines. -/
theorem not_encloses_of_not_kept {sentinel text : List Char} (unbroken : '\n' ∉ text)
    (noReturn : '\r' ∉ text) (h : '\n' ∈ sentinel ∨ sentinel.getLast? = some '\r')
    {p : List Char} (hp : p ∈ pieces (sentinel ++ text ++ sentinel ++ ['\n'])) (i j : Nat) :
    ¬ Encloses sentinel (trimReturns p) i j := by
  intro hEncloses
  by_cases hBreak : '\n' ∈ sentinel
  · have hMem := List.mem_of_mem_drop (hEncloses.1.mem hBreak)
    exact not_mem_pieces _ p hp ((trimReturns_prefix_self p).mem hMem)
  · have hReturn : sentinel.getLast? = some '\r' := h.resolve_left hBreak
    rw [pieces_line (by simp [hBreak, unbroken]), List.mem_singleton] at hp
    subst hp
    have hLast : (sentinel ++ text ++ sentinel).getLast? = some '\r' := by
      rw [List.getLast?_append, hReturn, Option.some_or]
    have hFewer := count_trimReturns hLast
    have hTwice := count_of_encloses hEncloses '\r'
    simp only [List.count_append, List.count_eq_zero_of_not_mem noReturn] at hFewer
    omega

end CoverRun

namespace CoverRun.Tally

open Lines Sentinel

/-! ## Delivery -/

/-- The payload has arrived: each known site is credited with its hits, as far as 64 bits go, and
one payload more is counted. -/
structure Delivered (before : Tally) (p : Payload) (after : Tally) : Prop where
  sites : after.table.sites.keys = before.table.sites.keys
  credited : ∀ site counter, before.table.find? site = some counter →
    ∃ credited, after.table.find? site = some credited ∧ credited.metadata = counter.metadata ∧
      credited.hits.toNat = min (2 ^ 64 - 1) (counter.hits.toNat + p.hitsOf site)
  counted : after.counts.payloads = before.counts.payloads + 1
  readable : after.counts.malformed = before.counts.malformed

/-- One line with a payload delivers it. -/
theorem delivered_of_payload? {t : Tally} {line : String} {p : Payload}
    (h : payload? t.sentinel line = some (some p)) : Delivered t p (t.ingestAll [line]) := by
  have hPayloads : payloadsOf t.sentinel [line] = [p] := by simp [payloadsOf, h]
  have hHits : hitsOf [p] = p.hitsOf := funext fun site => by simp [hitsOf]
  rw [ingestAll_eq, hPayloads, hHits]
  refine ⟨SiteTable.keys_credit _ _, fun site counter hFind => ?_, rfl, ?_⟩
  · refine ⟨{ counter with hits := Hits.upTo (counter.hits.toNat + p.hitsOf site) }, ?_, rfl,
      Hits.toNat_upTo _⟩
    simp only [SiteTable.find?_credit, hFind, Option.map_some]
  · simp [isMalformed, h]

theorem not_delivered_of_payloadsOf {t : Tally} {lines : List String}
    (h : payloadsOf t.sentinel lines = []) (p : Payload) :
    ¬ Delivered t p (t.ingestAll lines) := by
  intro hDelivered
  have hCounted := hDelivered.counted
  rw [ingestAll_eq, h] at hCounted
  simp at hCounted

theorem linesOf_kept {sentinel text : String} (ending : Ending) (unbroken : '\n' ∉ text.toList)
    (hne : sentinel.toList ≠ []) (oneLine : '\n' ∉ sentinel.toList)
    (kept : sentinel.toList.getLast? ≠ some '\r') :
    StageSite.linesOf ending (framed sentinel text) =
      [String.ofList (sentinel.toList ++ text.toList ++ sentinel.toList)] := by
  have hLast : (sentinel.toList ++ text.toList ++ sentinel.toList).getLast? ≠ some '\r' := by
    obtain ⟨c, hc⟩ := Option.isSome_iff_exists.1 (List.getLast?_isSome.2 hne)
    rw [List.getLast?_append, hc, Option.some_or, ← hc]
    exact kept
  rw [StageSite.linesOf_framed, pieces_line (by simp [oneLine, unbroken]), List.map_singleton,
    trimReturns_of_getLast? hLast]

theorem written_no_break (es : List (String × Hits)) :
    '\n' ∉ (Payload.written es).compact.toList ∧ '\r' ∉ (Payload.written es).compact.toList := by
  have hControl := Json.Value.noControl_compactChars (Payload.written es)
  rw [Json.Value.compact, String.toList_ofList]
  exact ⟨fun h => absurd (hControl _ h) (by decide), fun h => absurd (hControl _ h) (by decide)⟩

theorem delivered_of_fits {t : Tally} {p : Payload} {es : List (String × Hits)}
    (hOrder : es.Perm p.entries) (hne : t.sentinel.toList ≠ [])
    (hFits : Fits t.sentinel.toList (Payload.written es).compact.toList) (ending : Ending) :
    Delivered t p (t.ingestAll
      (StageSite.linesOf ending (framed t.sentinel (Payload.written es).compact))) := by
  obtain ⟨unbroken, -⟩ := written_no_break es
  rw [linesOf_kept ending unbroken hne hFits.oneLine hFits.kept]
  apply delivered_of_payload?
  rw [payload?, String.toList_ofList, payload?_of_fits (by simp [Json.Value.compact,
    Payload.written, Json.Value.compactChars]) unbroken hFits, Option.map_some, Json.Value.compact,
    String.toList_ofList, Payload.read?_written hOrder]

theorem not_delivered_of_not_kept {t : Tally} {es : List (String × Hits)}
    (h : '\n' ∈ t.sentinel.toList ∨ t.sentinel.toList.getLast? = some '\r') (p : Payload)
    (ending : Ending) :
    ¬ Delivered t p (t.ingestAll
      (StageSite.linesOf ending (framed t.sentinel (Payload.written es).compact))) := by
  obtain ⟨unbroken, noReturn⟩ := written_no_break es
  apply not_delivered_of_payloadsOf
  rw [StageSite.linesOf_framed, payloadsOf, List.filterMap_eq_nil_iff]
  intro line hLine
  obtain ⟨piece, hPiece, rfl⟩ := List.mem_map.1 hLine
  have hNone := payload?_eq_none_iff.2 (not_encloses_of_not_kept unbroken noReturn h hPiece)
  rw [payload?, String.toList_ofList, hNone]
  rfl

theorem not_delivered_of_cut {t : Tally} {es : List (String × Hits)} (hne : t.sentinel.toList ≠ [])
    (oneLine : '\n' ∉ t.sentinel.toList) (kept : t.sentinel.toList.getLast? ≠ some '\r') {k : Nat}
    (hk : 1 ≤ k) (hLength : k < (Payload.written es).compact.toList.length)
    (hOccurs : OccursAt t.sentinel.toList
      ((Payload.written es).compact.toList ++ t.sentinel.toList) k) (p : Payload)
    (ending : Ending) :
    ¬ Delivered t p (t.ingestAll
      (StageSite.linesOf ending (framed t.sentinel (Payload.written es).compact))) := by
  obtain ⟨unbroken, -⟩ := written_no_break es
  obtain ⟨n, hn, hCut⟩ := payload?_cut unbroken hk hLength hOccurs
  have hRead : Payload.read? ((Payload.written es).compact.toList.take n) = none := by
    have hText : (Payload.written es).compactChars = (Payload.written es).compact.toList :=
      String.toList_ofList.symm
    apply Payload.read?_cut (hText.trans (List.take_append_drop n _).symm)
    rw [ne_eq, List.drop_eq_nil_iff, Nat.not_le]
    exact hn
  have hPayload : payload? t.sentinel (String.ofList (t.sentinel.toList ++
      (Payload.written es).compact.toList ++ t.sentinel.toList)) = some none := by
    rw [payload?, String.toList_ofList, hCut, Option.map_some, hRead]
  apply not_delivered_of_payloadsOf
  rw [linesOf_kept ending unbroken hne oneLine kept]
  simp only [payloadsOf, List.filterMap_cons, hPayload, Option.join_some, List.filterMap_nil]

/-- **A payload arrives exactly if the sentinel fits.** Under accepted settings a test writes a
payload, its sites in any order, between two sentinels on a line of its own. The payload arrives
exactly if the sentinel has no line feed, does not end in a carriage return and does not begin
inside the text, not even where it ends in the closing sentinel. -/
theorem delivered_iff_fits {project : Path} {s : Settings} {o : Overrides} {plan : Plan}
    (hPlan : Plan.ofSettings project s o = .ok plan) {t : Tally}
    (hTally : t.sentinel = plan.sentinel) {p : Payload} {es : List (String × Hits)}
    (hOrder : es.Perm p.entries) (ending : Ending) :
    Delivered t p (t.ingestAll
        (StageSite.linesOf ending (framed s.coverage.sentinel (Payload.written es).compact))) ↔
      Fits s.coverage.sentinel.toList (Payload.written es).compact.toList := by
  have hAccepts := Plan.ofSettings_eq_ok_iff.1 hPlan
  rw [← hAccepts.sentinel_eq, ← hTally]
  have hne : t.sentinel.toList ≠ [] := by
    rw [hTally, hAccepts.sentinel_eq, ne_eq, String.toList_eq_nil_iff]
    exact hAccepts.sentinel
  constructor
  · intro hDelivered
    have oneLine : '\n' ∉ t.sentinel.toList := fun h =>
      not_delivered_of_not_kept (Or.inl h) p ending hDelivered
    have kept : t.sentinel.toList.getLast? ≠ some '\r' := fun h =>
      not_delivered_of_not_kept (Or.inr h) p ending hDelivered
    exact ⟨oneLine, kept, fun k hk hLength hOccurs =>
      not_delivered_of_cut hne oneLine kept hk hLength hOccurs p ending hDelivered⟩
  · exact fun hFits => delivered_of_fits hOrder hne hFits ending

/-- The standard sentinel fits a payload whose sites are not in order, and the site that is known
gets its hits. -/
theorem delivered_iff_fits_standard :
    let known := (SiteTable.empty.register "b" .null).addHits "b" 2
    let text := framed defaultSentinel (Payload.written [("b", 7), ("a", 5)]).compact
    ∃ plan, Plan.ofSettings "/p" Settings.standard .none = .ok plan ∧
      let after := (start plan.sentinel known).ingestAll (StageSite.linesOf (.exited 0) text)
      Delivered (start plan.sentinel known) (OrderedMap.ofList [("a", 5), ("b", 7)]) after ∧
        ∃ counter, after.table.find? "b" = some counter ∧ counter.hits.toNat = 9 := by
  intro known text
  have hOk : (Plan.ofSettings "/p" Settings.standard .none).isOk = true := by decide +kernel
  cases hPlan : Plan.ofSettings "/p" Settings.standard .none with
  | error e => rw [hPlan] at hOk; cases hOk
  | ok plan =>
      have hFits : Fits defaultSentinel.toList
          (Payload.written [("b", 7), ("a", 5)]).compact.toList :=
        ⟨by decide, by decide, by decide +kernel⟩
      have hDelivered := (delivered_iff_fits hPlan (t := start plan.sentinel known) rfl
        (p := OrderedMap.ofList [("a", 5), ("b", 7)]) (by decide) (.exited 0)).2 hFits
      obtain ⟨counter, hCounter, -, hHits⟩ := hDelivered.credited "b" _ rfl
      exact ⟨plan, rfl, hDelivered, counter, hCounter, hHits⟩

/-- A sentinel of three braces is accepted and does not occur in the text of a payload, but begins
in its last two braces. -/
theorem exists_accepted_not_delivered :
    ¬ ∀ (project : Path) (s : Settings) (o : Overrides) (plan : Plan) (t : Tally) (p : Payload)
      (ending : Ending), Plan.ofSettings project s o = .ok plan → t.sentinel = plan.sentinel →
      p.entries ≠ [] → ¬ s.coverage.sentinel.toList <:+: p.toValue.compact.toList →
      Delivered t p (t.ingestAll
        (StageSite.linesOf ending (framed s.coverage.sentinel p.toValue.compact))) := by
  intro h
  let braces : Settings :=
    { Settings.standard with
      coverage := { Settings.defaultCoverage with sentinel := "\x7d\x7d\x7d" } }
  have hOk : (Plan.ofSettings "/p" braces .none).isOk = true := by decide +kernel
  cases hPlan : Plan.ofSettings "/p" braces .none with
  | error e => rw [hPlan] at hOk; cases hOk
  | ok plan =>
      have hSentinel : "\x7d\x7d\x7d" = plan.sentinel :=
        (Plan.ofSettings_eq_ok_iff.1 hPlan).sentinel_eq.symm
      have hDelivered := h "/p" braces .none plan (start "\x7d\x7d\x7d" SiteTable.empty)
        (OrderedMap.ofList [("a", 5)]) (.exited 0) hPlan hSentinel (by decide) (by decide +kernel)
      exact absurd hDelivered.counted (by decide +kernel)

end CoverRun.Tally

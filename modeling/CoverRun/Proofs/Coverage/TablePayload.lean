import CoverRun.Proofs.Coverage.Enclosure
import CoverRun.Proofs.Coverage.Operations
import CoverRun.Proofs.Coverage.Payload

/-!
# Tables as payloads

A written table has the form of a payload: a record from sites to counters, in which the metadata
of a site stand beside its hits. The reader of payloads takes the hits and skips all other members,
whatever they hold and however deep they nest, so it reads the hits of the table
(`Payload.read?_table`). All that this needs is that no metadata are called `hits`, which is so in
every table that is reached. A tally that finds the text of such a table between two sentinels adds
the hits of the table to its own (`Tally.process_adds_table`).
-/

namespace CoverRun

open Json SiteTable

/-! ## Reading a table as a payload -/

namespace Payload

/-- The hits of a table, without its metadata. -/
def ofTable (t : SiteTable) : Payload := t.sites.mapValues fun _ c => c.hits

@[simp] theorem find?_ofTable (t : SiteTable) (site : String) :
    (ofTable t).find? site = (t.find? site).map (·.hits) := OrderedMap.find?_mapValues _ _ _

@[simp] theorem keys_ofTable (t : SiteTable) : (ofTable t).keys = t.sites.keys :=
  OrderedMap.keys_mapValues _ _

theorem ofNode?_table {t : SiteTable}
    (h : ∀ site c, t.find? site = some c → SiteCounter.hitsKey ∉ c.metadata.keys) :
    ofNode? t.toValue.node = some (ofTable t) := by
  have hCounters : ∀ e ∈ t.sites.entries, readCounter (counterValue e.2).node = some e.2.hits := by
    intro e he
    exact readCounter_record (h e.1 e.2 (OrderedMap.find?_eq_some_iff.2 he)) e.2.hits
  have hRead := Value.foldlM_insert_as readCounter counterValue (·.hits) hCounters OrderedMap.empty
  have hEntries : t.sites.entries.foldl (fun m e => m.insert e.1 e.2.hits) OrderedMap.empty =
      OrderedMap.ofList (ofTable t).entries := by
    rw [OrderedMap.ofList, ofTable, OrderedMap.mapValues, List.foldl_map]
  rw [SiteTable.toValue, Value.node, ofNode?, hRead, hEntries,
    OrderedMap.ofList_of_perm (List.Perm.refl _)]

/-- **The text of a table that is reached is that of a payload.** -/
theorem read?_table (ops : List Operation) :
    read? (run ops).toValue.compactChars = some (ofTable (run ops)) := by
  rw [read?, Value.read_compactChars, Option.bind_some]
  exact ofNode?_table fun site c => hits_not_mem_run

end Payload

/-! ## Adding a table -/

namespace Tally

open Sentinel

/-- The text of a table between two sentinels is the payload of its line, if no sentinel begins in
front of the closing one. -/
theorem payload?_table {ops : List Operation} {sentinel : String}
    (hApart : ∀ k < (run ops).text.toList.length,
      ¬ OccursAt sentinel.toList ((run ops).text.toList ++ sentinel.toList) k) :
    payload? sentinel (sentinel ++ (run ops).text ++ sentinel) =
      some (some (Payload.ofTable (run ops))) := by
  have hText : (run ops).text.toList = (run ops).toValue.compactChars := String.toList_ofList
  have hNonempty : (run ops).text.toList ≠ [] := by
    rw [hText, SiteTable.toValue, Value.compactChars]
    exact List.cons_ne_nil _ _
  have hUnbroken : '\n' ∉ (run ops).text.toList := by
    intro hMem
    rw [hText] at hMem
    exact absurd (Value.noControl_compactChars _ _ hMem) (by decide)
  have hFramed := @payload?_framed sentinel.toList [] (run ops).text.toList [] hNonempty hUnbroken
    (fun i hi => absurd hi (Nat.not_lt_zero i)) fun k _ hk => hApart k hk
  rw [List.nil_append, List.append_nil] at hFramed
  rw [payload?, String.toList_append, String.toList_append, hFramed, Option.map_some, hText,
    Payload.read?_table]

/-- **What operations make of the empty table is a payload.** Whatever its metadata hold, its text
between two sentinels is read as its hits, if no sentinel begins in front of the closing one. The
sites of the table are counted by whether the tally knows them, each known one has the hits of the
table added, as far as 64 bits go, and all else of the tally's table stays as it was. -/
theorem process_adds_table (ops : List Operation) (t : Tally)
    (hApart : ∀ k < (run ops).text.toList.length,
      ¬ OccursAt t.sentinel.toList ((run ops).text.toList ++ t.sentinel.toList) k) :
    let given := run ops
    let after := t.process (t.sentinel ++ given.text ++ t.sentinel)
    after.1 = .merged (given.sites.keys.countP t.table.knows)
        (given.sites.keys.countP fun site => !t.table.knows site) ∧
      after.2.sites.keys = t.table.sites.keys ∧
      (∀ site counter more, t.table.find? site = some counter → given.find? site = some more →
        ∃ merged, after.2.find? site = some merged ∧ merged.metadata = counter.metadata ∧
          merged.hits.toNat = min (2 ^ 64 - 1) (counter.hits.toNat + more.hits.toNat)) ∧
      ∀ site, given.find? site = none → after.2.find? site = t.table.find? site := by
  intro given after
  have hAfter : after = (.merged ((Payload.ofTable given).keys.filter t.table.knows).length
      ((Payload.ofTable given).size -
        ((Payload.ofTable given).keys.filter t.table.knows).length),
      addPayload t.table (Payload.ofTable given)) := by
    show t.process _ = _
    rw [process, payload?_table hApart]
  rw [hAfter, addPayload_eq_credit]
  refine ⟨?_, SiteTable.keys_credit _ _, ?_, ?_⟩
  · rw [ignored_eq, Payload.keys_ofTable, ← List.countP_eq_length_filter]
  · intro site counter more hFind hGiven
    refine ⟨{ counter with hits := Hits.upTo (counter.hits.toNat + more.hits.toNat) }, ?_, rfl,
      Hits.toNat_upTo _⟩
    rw [SiteTable.find?_credit, hFind, Option.map_some, Payload.hitsOf, Payload.find?_ofTable,
      hGiven]
    rfl
  · intro site hNone
    rw [SiteTable.find?_credit, Payload.hitsOf, Payload.find?_ofTable, hNone]
    simp [Hits.upTo_toNat]

/-- Metadata with a sentinel that is cut off, quotes and a key `hits` are skipped, a site that the
tally does not know is ignored, and near the limit hits stop. -/
theorem process_adds_table_limits :
    let line : Value := .record [("hits", .number (.natural 9)),
      ("k", .list [.string "[C\"", .list [.record []]])]
    let text := "\x7b\"a\":\x7b\"hits\":5,\"k\":[\"[C\\\"\",[\x7b\x7d]]\x7d," ++
      "\"b\\n\":\x7b\"hits\":7\x7d\x7d"
    let t := start "[C]" ⟨OrderedMap.ofList [("a", ⟨Hits.upTo (2 ^ 64 - 3), OrderedMap.empty⟩),
      ("c", ⟨1, OrderedMap.empty⟩)]⟩
    ∃ hLine : line.InOrder,
      let given := run [.register "a" ⟨line, hLine⟩, .addHits "a" 5, .register "b\n" ⟨.null, .null⟩,
        .addHits "b\n" 7]
      let after := t.process ("[C]" ++ text ++ "[C]")
      given.text = text ∧ after.1 = .merged 1 1 ∧
        (∃ merged, after.2.find? "a" = some merged ∧ merged.hits.toNat = 2 ^ 64 - 1) ∧
        after.2.find? "c" = t.table.find? "c" := by
  intro line text t
  have hLine : line.InOrder := by
    refine .record (by unfold Entries.Ascending; decide +kernel) ?_
    simp only [List.forall_mem_cons]
    refine ⟨.number _, .list ?_, by simp⟩
    simp only [List.forall_mem_cons]
    refine ⟨.string _, .list ?_, by simp⟩
    simp only [List.forall_mem_cons]
    exact ⟨.record List.Pairwise.nil (by simp), by simp⟩
  refine ⟨hLine, ?_⟩
  intro given after
  have hGiven : given = (((SiteTable.empty.register "a" line).addHits "a" 5).register "b\n"
      .null).addHits "b\n" 7 := rfl
  have hText : given.text = text := by
    rw [hGiven]
    decide +kernel
  have hApart : ∀ k < given.text.toList.length,
      ¬ OccursAt t.sentinel.toList (given.text.toList ++ t.sentinel.toList) k := by
    rw [hText]
    decide +kernel
  have hKnown : given.sites.keys.countP t.table.knows = 1 ∧
      (given.sites.keys.countP fun site => !t.table.knows site) = 1 := by
    rw [hGiven]
    decide +kernel
  have hMore : (given.find? "a").map (·.hits) = some 5 := by
    rw [hGiven]
    decide +kernel
  have hNone : (given.find? "c").isNone = true := by
    rw [hGiven]
    decide +kernel
  obtain ⟨more, hFind, hHits⟩ := Option.map_eq_some_iff.1 hMore
  obtain ⟨hKind, -, hMerged, hRest⟩ := process_adds_table _ t hApart
  obtain ⟨merged, hFound, -, hSum⟩ := hMerged "a" _ more rfl hFind
  have hAfter : after = t.process (t.sentinel ++ given.text ++ t.sentinel) := by
    rw [hText]
    rfl
  rw [hAfter]
  refine ⟨hText, ?_, ⟨merged, hFound, ?_⟩, hRest "c" (Option.isNone_iff_eq_none.1 hNone)⟩
  · rw [hKind]
    exact congrArg₂ LineKind.merged hKnown.1 hKnown.2
  · rw [hSum, hHits]
    decide +kernel

end Tally

end CoverRun

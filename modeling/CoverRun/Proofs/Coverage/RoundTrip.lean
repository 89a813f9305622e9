import CoverRun.Coverage.Report
import CoverRun.Proofs.Coverage.Operations
import CoverRun.Proofs.Coverage.Payload
import CoverRun.Proofs.FileTree.Written
import CoverRun.Proofs.Json.Pretty

/-!
# Reports read back

The metadata of a counter are written beside its hits. Since `hits` is never among them, the reader
finds the hits once and takes all other members as metadata. So a counter reads back
(`SiteTable.readCounter_counterValue`), then a table, a report and the file of a report. Doubles and
values that nest too deep are outside of this: the theorems are about metadata of whole numbers.
-/

namespace CoverRun

open Json

/-! ## Counters -/

namespace SiteTable

theorem readMember_hits (depth : Nat) (n : Hits) (metadata : List (String × Value)) :
    readMember depth (none, metadata) (Units.ofText SiteCounter.hitsKey)
      (.number (Number.natural n).written) = some (some n, metadata) := by
  unfold readMember
  simp [Units.text?_ofText, word?_natural]

theorem readMember_metadata {k : String} (hKey : k ≠ SiteCounter.hitsKey) (depth : Nat)
    (hits : Option Hits) (metadata : List (String × Value)) (item : Node) :
    readMember depth (hits, metadata) (Units.ofText k) item =
      (Value.ofNode? depth item).map fun v => (hits, Entries.put k v metadata) := by
  unfold readMember
  simp only [Units.text?_ofText, Option.bind_eq_bind, Option.bind_some, if_neg hKey]
  cases Value.ofNode? depth item <;> rfl

/-- Members other than `hits` are read as those of any record. -/
theorem foldlM_readMember {depth : Nat} {members : List (String × Value)}
    (hHits : SiteCounter.hitsKey ∉ members.map (·.1)) (hits : Option Hits)
    (done : List (String × Value)) :
    (Value.memberNodes members).foldlM (fun done m => readMember depth done m.1 m.2)
        (hits, done) =
      (Value.ofMembers? depth done (Value.memberNodes members)).map fun all => (hits, all) := by
  induction members generalizing done with
  | nil => rfl
  | cons m ms ih =>
      obtain ⟨k, v⟩ := m
      have hKey : k ≠ SiteCounter.hitsKey := fun hEq => hHits (hEq ▸ List.mem_cons_self)
      have hRest : SiteCounter.hitsKey ∉ ms.map (·.1) := fun hMem =>
        hHits (List.mem_cons_of_mem k hMem)
      rw [Value.memberNodes, List.foldlM_cons, readMember_metadata hKey, Value.ofMembers?,
        Units.text?_ofText]
      simp only [Option.bind_eq_bind, Option.bind_some]
      cases Value.ofNode? depth v.node with
      | none => rfl
      | some v' => exact ih hRest _

/-- **A counter reads back** if its metadata are kept and `hits` is not among them. -/
theorem readCounter_counterValue {depth : Nat} {c : SiteCounter}
    (hHits : SiteCounter.hitsKey ∉ c.metadata.keys)
    (hKept : ∀ m ∈ c.metadata.entries, Value.ofNode? depth m.2.node = some m.2) :
    readCounter depth (counterValue c).node = some c := by
  have hMembers : Value.ofMembers? depth [] (Value.memberNodes c.metadata.entries) =
      some ([] ++ c.metadata.entries) :=
    Value.ofMembers?_memberNodes c.metadata.ascending hKept
  have hAll : (Value.memberNodes c.metadata.entries).foldlM
      (fun done m => readMember depth done m.1 m.2) (some c.hits, []) =
        some (some c.hits, c.metadata.entries) := by
    rw [foldlM_readMember hHits, hMembers, Option.map_some, List.nil_append]
  rw [counterValue, Value.node, Value.memberNodes, Value.node, readCounter, List.foldlM_cons,
    readMember_hits]
  simp only [Option.bind_eq_bind, Option.bind_some]
  rw [hAll]
  simp only [Option.bind_some, OrderedMap.ofList_of_perm (List.Perm.refl c.metadata.entries)]
  rfl

/-! ## Tables -/

/-- **A table that is reached reads back from its structure.** -/
theorem ofNode?_run {ops : List Operation} {depth : Nat}
    (hWhole : (run ops).WholeMetadata (depth - 2)) :
    ofNode? depth (run ops).toValue.node = some (run ops) := by
  have hCounter : ∀ e ∈ (run ops).sites.entries,
      readCounter (depth - 2) (counterValue e.2).node = some e.2 := by
    intro e he
    have hFind : (run ops).find? e.1 = some e.2 := OrderedMap.find?_eq_some_iff.2 he
    apply readCounter_counterValue (hits_not_mem_run hFind)
    intro m hm
    exact Value.ofNode?_node (hWhole e.1 e.2 hFind m hm) (inOrder_run hFind m hm)
  have hSites := Value.foldlM_insert (readCounter (depth - 2)) counterValue hCounter
    OrderedMap.empty
  rw [toValue, Value.node, ofNode?, hSites]
  exact congrArg (fun sites => some (SiteTable.mk sites))
    (OrderedMap.ofList_of_perm (List.Perm.refl _))

/-- The text has the structure of a table in which each counter has one member `hits`. -/
def HasHitsOnce (text : String) : Prop :=
  ∃ sites, Node.read (Units.ofText text) = some (.record sites) ∧
    ∀ site ∈ sites, ∃ members, site.2 = .record members ∧
      (members.map (·.1)).count (Units.ofText SiteCounter.hitsKey) = 1

theorem count_hits {c : SiteCounter} (h : SiteCounter.hitsKey ∉ c.metadata.keys) :
    ∃ members, (counterValue c).node = .record members ∧
      (members.map (·.1)).count (Units.ofText SiteCounter.hitsKey) = 1 := by
  refine ⟨_, by rw [counterValue, Value.node], ?_⟩
  rw [Value.memberNodes, List.map_cons, List.count_cons_self, Value.memberNodes_eq_map,
    List.map_map]
  have hOther : Units.ofText SiteCounter.hitsKey ∉
      c.metadata.entries.map ((·.1) ∘ fun m => (Units.ofText m.1, m.2.node)) := by
    intro hMem
    obtain ⟨m, hm, hEq⟩ := List.mem_map.1 hMem
    exact h (List.mem_map.2 ⟨m, hm, Units.ofText_inj.1 hEq⟩)
  rw [List.count_eq_zero.2 hOther]

theorem hasHitsOnce_of_read {ops : List Operation} {text : String}
    (h : Node.read (Units.ofText text) = some (run ops).toValue.node) : HasHitsOnce text := by
  refine ⟨_, by rw [h, toValue, Value.node], ?_⟩
  intro site hSite
  rw [Value.memberNodes_eq_map, List.map_map] at hSite
  obtain ⟨e, he, rfl⟩ := List.mem_map.1 hSite
  exact count_hits (hits_not_mem_run (OrderedMap.find?_eq_some_iff.2 he))

end SiteTable

/-! ## Reports -/

namespace CoverageReport

theorem ofNode?_toValue {time? : String → Option String} {r : CoverageReport}
    (hTime : time? r.generatedAt = some r.generatedAt)
    (hSites : sites? r.sites.toValue.node = some r.sites) :
    ofNode? time? r.toValue.node = some r := by
  have hGeneratedAt : generatedAt? time? (.string (Units.ofText r.generatedAt)) =
      some r.generatedAt := by
    rw [generatedAt?, Node.text?, Units.text?_ofText, Option.bind_some, hTime]
  have hFirst : readField time? ⟨none, none⟩ (Units.ofText "generatedAt")
      (.string (Units.ofText r.generatedAt)) = some ⟨some r.generatedAt, none⟩ := by
    simp [readField, Units.text?_ofText, hGeneratedAt, fill]
  have hSecond : readField time? ⟨some r.generatedAt, none⟩ (Units.ofText "sites")
      r.sites.toValue.node = some ⟨some r.generatedAt, some r.sites⟩ := by
    simp [readField, Units.text?_ofText, hSites, fill]
  simp [toValue, Value.node, Value.memberNodes, ofNode?, hFirst, hSecond]

/-- What was saved is a written text. -/
theorem readText_save {r : CoverageReport} {t t' : FileTree} {cwd : Location} {p : Path}
    (h : r.save t cwd p = (t', .ok ())) : t'.readText cwd p = .ok r.toValue.pretty := by
  simp only [save] at h
  split at h
  · cases h
  · split at h
    · cases h
    · next hWrite =>
      obtain ⟨rfl, -⟩ := Prod.mk.inj h
      exact FileTree.readText_write hWrite

end CoverageReport

/-! ## What is reached -/

namespace SiteTable

theorem read?_of_read {ops : List Operation} {text : String}
    (hWhole : (run ops).WholeMetadata 120)
    (h : Node.read (Units.ofText text) = some (run ops).toValue.node) :
    read? text = some (run ops) := by
  rw [read?, h, Option.bind_some]
  exact ofNode?_run (hWhole.mono (by decide))

/-- **What operations make of the empty table reads back from what is written of it**, without
blanks, indented at any level, and in the file of a report, if its metadata are of whole numbers and
nest no deeper than 120. Whatever its metadata are, `hits` is not among them, and each counter is
written with one member `hits`. -/
theorem run_reads_back (ops : List Operation) :
    ((run ops).WholeMetadata 120 →
      read? (run ops).text = some (run ops) ∧
      (∀ level, read? (String.ofList ((run ops).toValue.prettyChars level)) = some (run ops)) ∧
      ∀ (time? : String → Option String) (r : CoverageReport), r.sites = run ops →
        time? r.generatedAt = some r.generatedAt →
        CoverageReport.read? time? r.toValue.pretty = some r ∧
        ∀ (t t' : FileTree) (cwd : Location) (p : Path), r.save t cwd p = (t', .ok ()) →
          ∃ text, t'.readText cwd p = .ok text ∧ CoverageReport.read? time? text = some r) ∧
    (∀ site c, (run ops).find? site = some c → SiteCounter.hitsKey ∉ c.metadata.keys) ∧
    HasHitsOnce (run ops).text ∧
    ∀ level, HasHitsOnce (String.ofList ((run ops).toValue.prettyChars level)) := by
  have hCompact := Value.read_compact (run ops).toValue
  have hPretty := Value.read_prettyChars (run ops).toValue
  refine ⟨fun hWhole => ⟨read?_of_read hWhole hCompact, fun level =>
    read?_of_read hWhole (hPretty level), ?_⟩, fun site c => hits_not_mem_run,
    hasHitsOnce_of_read hCompact, fun level => hasHitsOnce_of_read (hPretty level)⟩
  intro time? r hSites hTime
  have hReport : CoverageReport.read? time? r.toValue.pretty = some r := by
    rw [CoverageReport.read?, Value.pretty, Value.read_prettyChars, Option.bind_some]
    apply CoverageReport.ofNode?_toValue hTime
    rw [hSites]
    exact ofNode?_run (hWhole.mono (by decide))
  refine ⟨hReport, fun t t' cwd p hSave => ?_⟩
  exact ⟨r.toValue.pretty, CoverageReport.readText_save hSave, hReport⟩

/-- Numbers at both limits, strings to be escaped, metadata with a key `hits`, and hits that stop at
the largest number of 64 bits. -/
theorem run_reads_back_limits :
    let line : Value := .record [("hits", .number (.natural 9)),
      ("k\t", .list [.null, .record [("\"", .bool true)]]),
      ("low", .number (.negative ⟨2 ^ 63 - 1, by decide⟩)),
      ("n", .number (.natural 0xffffffffffffffff))]
    let text := "\x7b\"a\\n\":\x7b\"hits\":18446744073709551615," ++
      "\"k\\t\":[null,\x7b\"\\\"\":true\x7d]," ++
      "\"low\":-9223372036854775808,\"n\":18446744073709551615\x7d\x7d"
    ∃ hLine : line.InOrder,
      let ops : List Operation := [.register "a\n" ⟨line, hLine⟩,
        .addHits "a\n" 0xffffffffffffffff, .addHits "a\n" 1]
      let r : CoverageReport := ⟨"2024-05-01T10:00:00Z", run ops⟩
      let t := FileTree.empty.place ["c.json"] (.file (Utf8.encode r.toValue.pretty))
      (run ops).text = text ∧ (run ops).WholeMetadata 120 ∧
        r.save FileTree.empty [] "c.json" = (t, .ok ()) ∧ read? text = some (run ops) ∧
        ∃ saved, t.readText [] "c.json" = .ok saved ∧
          CoverageReport.read? (fun s => if s = r.generatedAt then some s else none) saved =
            some r := by
  intro line text
  have hLine : line.InOrder := by
    refine .record (by unfold Entries.Ascending; decide +kernel) ?_
    simp only [List.forall_mem_cons]
    refine ⟨.number _, .list ?_, .number _, .number _, by simp⟩
    simp only [List.forall_mem_cons]
    refine ⟨.null, .record (List.pairwise_singleton _ _) ?_, by simp⟩
    simp only [List.forall_mem_cons]
    exact ⟨.bool true, by simp⟩
  refine ⟨hLine, ?_⟩
  intro ops r t
  have hText : (run ops).text = text := by
    have hRun : run ops = ((empty.register "a\n" line).addHits "a\n" 0xffffffffffffffff).addHits
        "a\n" 1 := rfl
    rw [hRun]
    decide +kernel
  have hWhole : (run ops).WholeMetadata 120 := by
    refine wholeMetadata_run fun site metadata hMem => ?_
    obtain ⟨-, rfl⟩ : site = "a\n" ∧ metadata = ⟨line, hLine⟩ := by simpa [ops] using hMem
    refine .record ?_
    simp only [List.forall_mem_cons]
    refine ⟨.natural _, .list ?_, .negative _, .natural _, by simp⟩
    simp only [List.forall_mem_cons]
    refine ⟨.null, .record ?_, by simp⟩
    simp only [List.forall_mem_cons]
    exact ⟨.bool true, by simp⟩
  have hSave : r.save FileTree.empty [] "c.json" = (t, .ok ()) := by
    have hWrite : FileTree.empty.write [] "c.json" (Utf8.encode r.toValue.pretty) = .ok t := by
      have hNames : FileTree.namesOf "c.json" = (["c.json"] : Location) := by decide +kernel
      rw [FileTree.write, FileTree.resolve_of_isPassable ⟨by decide, by decide, by decide⟩, hNames,
        FileTree.walk, if_neg (by decide), if_neg (by decide), if_neg (by decide),
        if_neg (by decide)]
      rfl
    have hParent : FileTree.empty.makeDirectories [] "" = (FileTree.empty, .ok ()) := rfl
    have hName : ("c.json" : Path).parent?.getD "" = "" := by decide +kernel
    simp only [CoverageReport.save, hName, hParent, hWrite]
  obtain ⟨hRead, -, hFile⟩ := (run_reads_back ops).1 hWhole
  exact ⟨hText, hWhole, hSave, hText ▸ hRead,
    (hFile _ r rfl (if_pos rfl)).2 FileTree.empty t [] "c.json" hSave⟩

end SiteTable

end CoverRun

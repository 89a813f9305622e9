import CoverRun.Proofs.Coverage.Counters
import CoverRun.Proofs.Coverage.Merging
import CoverRun.Proofs.Json.Kept

/-!
# Written payloads

A payload reads back from what is written for it, in whatever order its sites are written
(`Payload.read?_written`). Nothing is read of a text that was cut off (`Payload.read?_cut`).
-/

namespace CoverRun

theorem Json.word?_natural (n : UInt64) : (Number.natural n).written.word? = some n := by
  have hLimit : n.toNat ≤ wordLimit := Nat.le_of_lt_succ n.toNat_lt
  simp [Number.written, NumberText.word?, NumberText.isInteger, digitsValue_toDigits, hLimit]

namespace Payload

/-- The entries of a payload as they are written, in this order. -/
def written (es : List (String × Hits)) : Json.Value :=
  .record (es.map fun e => (e.1, .record [(SiteCounter.hitsKey, .number (.natural e.2))]))

/-- A written record counts by its first member, if no other is called `hits`. -/
theorem readCounter_record {members : List (String × Json.Value)}
    (h : SiteCounter.hitsKey ∉ members.map (·.1)) (n : Hits) :
    readCounter (Json.Value.record
      ((SiteCounter.hitsKey, .number (.natural n)) :: members)).node = some n := by
  rw [Json.Value.node, Json.Value.memberNodes, Json.Value.node, Json.Value.memberNodes_eq_map,
    readCounter_eq_some_iff]
  refine @Counts.record [] _ _ _ n (Units.text?_ofText _)
    (Json.NumberText.word?_eq_some_iff.1 (Json.word?_natural n)) fun m hm => ?_
  obtain ⟨e, he, rfl⟩ := List.mem_map.1 hm
  exact ⟨e.1, Units.text?_ofText e.1, fun hEq => h (List.mem_map.2 ⟨e, he, hEq⟩)⟩

theorem ofNode?_written (es : List (String × Hits)) :
    ofNode? (written es).node = some (OrderedMap.ofList es) :=
  Json.Value.foldlM_insert readCounter
    (fun n => .record [(SiteCounter.hitsKey, .number (.natural n))])
    (fun e _ => readCounter_record List.not_mem_nil e.2) OrderedMap.empty

/-- **A written payload reads back.** -/
theorem read?_written {p : Payload} {es : List (String × Hits)} (h : es.Perm p.entries) :
    read? (written es).compactChars = some p := by
  rw [read?, Json.Value.read_compactChars, Option.bind_some, ofNode?_written,
    OrderedMap.ofList_of_perm h]

theorem read?_cut {es : List (String × Hits)} {cs cs' : List Char}
    (h : (written es).compactChars = cs ++ cs') (hCut : cs' ≠ []) : read? cs = none := by
  cases hRead : read? cs with
  | none => rfl
  | some p =>
      obtain ⟨members, hNode, -⟩ := exists_record_of_read? hRead
      exact absurd hNode (Json.Value.read_ne_record h hCut members)

end Payload

end CoverRun

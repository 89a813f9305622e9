import CoverRun.Coverage.Tally
import CoverRun.Proofs.OrderedMap
import Mathlib.Algebra.Order.Ring.Nat

/-!
# Merging adds

Reading lines does nothing to a site table but to credit its sites with the hits that the payloads
among the lines report for them (`Tally.ingestAll_eq`). A credit keeps sites and metadata, and
credits add up, stopping at the largest number of 64 bits (`SiteTable.credit_credit`). So the order
of the lines does not matter.
-/

namespace CoverRun

/-! ## Credits -/

theorem wordLimit_eq : Json.wordLimit = 2 ^ 64 - 1 := by decide

/-- A number as hits, or the most there can be. -/
def Hits.upTo (n : Nat) : Hits := UInt64.ofNat (min Json.wordLimit n)

theorem Hits.toNat_upTo (n : Nat) : (Hits.upTo n).toNat = min (2 ^ 64 - 1) n := by
  rw [upTo, wordLimit_eq, UInt64.toNat_ofNat', Nat.mod_eq_of_lt]
  omega

theorem Hits.upTo_toNat (a : Hits) : Hits.upTo a.toNat = a := by
  have h := a.toNat_lt
  rw [← UInt64.toNat_inj, toNat_upTo]
  omega

theorem Hits.plus_eq (a b : Hits) : a.plus b = Hits.upTo (a.toNat + b.toNat) := rfl

/-- To stop at the limit on the way changes nothing. -/
theorem Hits.upTo_upTo_add (n m : Nat) : upTo ((upTo n).toNat + m) = upTo (n + m) := by
  rw [← UInt64.toNat_inj, toNat_upTo, toNat_upTo, toNat_upTo]
  omega

namespace SiteTable

/-- The table in which each site has so many hits more, as far as 64 bits go. -/
def credit (t : SiteTable) (more : String → Nat) : SiteTable :=
  ⟨t.sites.mapValues fun site c => { c with hits := Hits.upTo (c.hits.toNat + more site) }⟩

theorem ext_find? {t t' : SiteTable} (h : ∀ site, t.find? site = t'.find? site) : t = t' := by
  cases t
  cases t'
  exact congrArg _ (OrderedMap.ext_find? h)

@[simp] theorem keys_credit (t : SiteTable) (more : String → Nat) :
    (t.credit more).sites.keys = t.sites.keys := OrderedMap.keys_mapValues _ _

theorem find?_credit (t : SiteTable) (more : String → Nat) (site : String) :
    (t.credit more).find? site =
      (t.find? site).map fun c => { c with hits := Hits.upTo (c.hits.toNat + more site) } :=
  OrderedMap.find?_mapValues _ _ _

@[simp] theorem knows_credit (t : SiteTable) (more : String → Nat) :
    (t.credit more).knows = t.knows := by
  funext site
  change ((t.credit more).find? site).isSome = (t.find? site).isSome
  rw [find?_credit, Option.isSome_map]

theorem credit_zero (t : SiteTable) : t.credit (fun _ => 0) = t := by
  apply ext_find?
  intro site
  rw [find?_credit]
  simp [Hits.upTo_toNat]

theorem credit_credit (t : SiteTable) (f g : String → Nat) :
    (t.credit f).credit g = t.credit fun site => f site + g site := by
  apply ext_find?
  intro site
  rw [find?_credit, find?_credit, find?_credit, Option.map_map]
  congr 1
  funext c
  simp only [Function.comp, SiteCounter.mk.injEq, and_true]
  rw [Hits.upTo_upTo_add, Nat.add_assoc]

/-- Adding hits to one site credits it alone; an unknown site stays unknown. -/
theorem addHits_eq_credit (t : SiteTable) (site : String) (n : Hits) :
    t.addHits site n = t.credit fun s => if s = site then n.toNat else 0 := by
  apply ext_find?
  intro s
  rw [find?_credit, addHits, tryAddHits]
  cases h : t.find? site with
  | none =>
      by_cases hs : s = site
      · simp [hs, h]
      · simp [hs, Hits.upTo_toNat]
  | some c =>
      have hInsert := OrderedMap.find?_insert t.sites site s { c with hits := c.hits.plus n }
      by_cases hs : s = site
      · subst hs
        rw [h, Option.map_some, if_pos rfl, ← Hits.plus_eq]
        exact hInsert.trans (if_pos rfl)
      · rw [if_neg hs] at hInsert ⊢
        simp only [Nat.add_zero, Hits.upTo_toNat, Option.map_id']
        exact hInsert

end SiteTable

/-! ## One payload -/

namespace Payload

/-- The hits that a payload reports for a site, if any. -/
def hitsOf (p : Payload) (site : String) : Nat := ((p.find? site).map UInt64.toNat).getD 0

/-- The counter of the last member that writes a site. -/
def lastCounter (members : List (Units × Json.Node)) (site : String) : Option Hits :=
  (members.filter fun m => m.1.text? = some site).getLast?.bind fun m => readCounter m.2

theorem lastCounter_concat (members : List (Units × Json.Node)) (m : Units × Json.Node)
    (site : String) :
    lastCounter (members ++ [m]) site =
      if m.1.text? = some site then readCounter m.2 else lastCounter members site := by
  by_cases h : m.1.text? = some site <;> simp [lastCounter, h]

theorem find?_ofNode? {members : List (Units × Json.Node)} {p : Payload}
    (h : ofNode? (.record members) = some p) (site : String) :
    p.find? site = lastCounter members site := by
  simp only [ofNode?] at h
  induction members using List.reverseRecOn generalizing p with
  | nil =>
      obtain rfl : OrderedMap.empty = p := by simpa using h
      rfl
  | append_singleton members m ih =>
      rw [List.foldlM_append, Option.bind_eq_bind, Option.bind_eq_some_iff] at h
      obtain ⟨q, hq, h⟩ := h
      obtain ⟨key, hKey, n, hn, rfl⟩ : ∃ key, m.1.text? = some key ∧
          ∃ n, readCounter m.2 = some n ∧ q.insert key n = p := by
        simpa [Option.bind_eq_some_iff] using h
      rw [OrderedMap.find?_insert, ih hq, lastCounter_concat, hKey, hn]
      simp [eq_comm]

/-- What can be read is a record, and a site that it writes twice has its last counter. -/
theorem exists_record_of_read? {text : List Char} {p : Payload} (h : read? text = some p) :
    ∃ members, Json.Node.read (text.map some) = some (.record members) ∧
      ∀ site, p.find? site = lastCounter members site := by
  obtain ⟨node, hNode, hp⟩ := Option.bind_eq_some_iff.1 h
  cases node with
  | record members => exact ⟨members, hNode, find?_ofNode? hp⟩
  | _ => cases hp

end Payload

namespace Tally

theorem foldl_addHits (es : List (String × Hits)) (t : SiteTable) :
    es.foldl (fun t e => t.addHits e.1 e.2) t =
      t.credit fun s => (es.map fun e => if s = e.1 then e.2.toNat else 0).sum := by
  induction es generalizing t with
  | nil => exact t.credit_zero.symm
  | cons e rest ih =>
      rw [List.foldl_cons, ih, SiteTable.addHits_eq_credit, SiteTable.credit_credit]
      rfl

/-- A site has at most one entry, so all that is written for it is that entry's number. -/
theorem sum_entries_eq_hitsOf (p : Payload) (s : String) :
    (p.entries.map fun e => if s = e.1 then e.2.toNat else 0).sum = p.hitsOf s := by
  obtain ⟨es, h⟩ := p
  simp only [Payload.hitsOf, OrderedMap.find?]
  induction es with
  | nil => rfl
  | cons e rest ih =>
      obtain ⟨hHead, hTail⟩ := List.pairwise_cons.1 h
      rw [List.map_cons, List.sum_cons, ih hTail]
      by_cases hs : s = e.1
      · have hNone : Entries.find? s rest = none := Entries.find?_eq_none_iff.2 fun hMem => by
          obtain ⟨e', he', hEq⟩ := List.mem_map.1 hMem
          exact KeyOrder.ne_of_before (hHead e' he') (hs.symm.trans hEq.symm)
        rw [hNone]
        simp [Entries.find?, hs]
      · simp [Entries.find?, hs]

theorem addPayload_eq_credit (t : SiteTable) (p : Payload) :
    addPayload t p = t.credit p.hitsOf := by
  rw [addPayload, foldl_addHits]
  exact congrArg t.credit (funext (sum_entries_eq_hitsOf p))

/-! ## Runs -/

/-- The payloads among lines, of which some may hold one that cannot be read. -/
def payloadsOf (sentinel : String) (lines : List String) : List Payload :=
  lines.filterMap fun line => (payload? sentinel line).join

/-- Whether a line holds a payload that cannot be read. -/
def isMalformed (sentinel line : String) : Bool :=
  match payload? sentinel line with
  | some none => true
  | _ => false

/-- The hits that payloads report for a site. -/
def hitsOf (payloads : List Payload) (site : String) : Nat :=
  (payloads.map fun p => p.hitsOf site).sum

/-- How often payloads name a site that a table does not know. -/
def unknownIn (t : SiteTable) (payloads : List Payload) : Nat :=
  (payloads.map fun p => p.keys.countP fun site => !t.knows site).sum

/-- The sites of a payload that are not known are those that are left over. -/
theorem ignored_eq (t : SiteTable) (p : Payload) :
    p.size - (p.keys.filter t.knows).length = p.keys.countP fun site => !t.knows site := by
  have hSize : p.keys.length = p.size := List.length_map ..
  rw [← List.countP_eq_length_filter, ← hSize, List.length_eq_countP_add_countP t.knows]
  simp

theorem ingest_eq (t : Tally) (line : String) :
    t.ingest line =
      ⟨t.sentinel, t.table.credit (hitsOf (payloadsOf t.sentinel [line])),
        ⟨t.counts.lines + 1, t.counts.payloads + (payloadsOf t.sentinel [line]).length,
          t.counts.malformed + if isMalformed t.sentinel line then 1 else 0,
          t.counts.ignoredSites + unknownIn t.table (payloadsOf t.sentinel [line])⟩⟩ := by
  have hZero : hitsOf [] = fun _ => 0 := rfl
  cases h : payload? t.sentinel line with
  | none =>
      simp [ingest, process, payloadsOf, isMalformed, h, count, hZero, SiteTable.credit_zero,
        unknownIn]
  | some found =>
      cases found with
      | none =>
          simp [ingest, process, payloadsOf, isMalformed, h, count, hZero, SiteTable.credit_zero,
            unknownIn]
      | some p =>
          have hHits : hitsOf [p] = p.hitsOf := by
            funext site
            simp [hitsOf]
          simp [ingest, process, payloadsOf, isMalformed, h, count, unknownIn, ignored_eq, hHits,
            addPayload_eq_credit]

/-- **Merging adds.** Reading lines credits the sites of the table with the hits that the payloads
among the lines report, and counts the lines by kind. -/
theorem ingestAll_eq (t : Tally) (lines : List String) :
    t.ingestAll lines =
      ⟨t.sentinel, t.table.credit (hitsOf (payloadsOf t.sentinel lines)),
        ⟨t.counts.lines + lines.length,
          t.counts.payloads + (payloadsOf t.sentinel lines).length,
          t.counts.malformed + lines.countP (isMalformed t.sentinel),
          t.counts.ignoredSites + unknownIn t.table (payloadsOf t.sentinel lines)⟩⟩ := by
  induction lines generalizing t with
  | nil =>
      have hZero : hitsOf [] = fun _ => 0 := rfl
      simp [ingestAll, payloadsOf, hZero, SiteTable.credit_zero, unknownIn]
  | cons line rest ih =>
      have hSplit : payloadsOf t.sentinel (line :: rest) =
          payloadsOf t.sentinel [line] ++ payloadsOf t.sentinel rest := by
        rw [payloadsOf, ← List.singleton_append, List.filterMap_append]
        rfl
      have hHits : hitsOf (payloadsOf t.sentinel (line :: rest)) = fun site =>
          hitsOf (payloadsOf t.sentinel [line]) site +
            hitsOf (payloadsOf t.sentinel rest) site := by
        funext site
        simp only [hitsOf, hSplit, List.map_append, List.sum_append]
      have hUnknown : unknownIn t.table (payloadsOf t.sentinel (line :: rest)) =
          unknownIn t.table (payloadsOf t.sentinel [line]) +
            unknownIn t.table (payloadsOf t.sentinel rest) := by
        simp only [unknownIn, hSplit, List.map_append, List.sum_append]
      have hKnows (more : String → Nat) (ps : List Payload) :
          unknownIn (t.table.credit more) ps = unknownIn t.table ps := by
        simp only [unknownIn, SiteTable.knows_credit]
      change (t.ingest line).ingestAll rest = _
      rw [ih, ingest_eq, SiteTable.credit_credit, hHits, hKnows, hUnknown, hSplit]
      simp only [List.length_append, List.length_cons, List.countP_cons, Tally.mk.injEq,
        LineCounts.mk.injEq, true_and]
      omega

theorem payloadsOf_perm (sentinel : String) {lines lines' : List String}
    (h : lines'.Perm lines) : (payloadsOf sentinel lines').Perm (payloadsOf sentinel lines) :=
  h.filterMap _

theorem ingestAll_perm (t : Tally) {lines lines' : List String} (h : lines'.Perm lines) :
    t.ingestAll lines' = t.ingestAll lines := by
  have hp := payloadsOf_perm t.sentinel h
  have hHits : hitsOf (payloadsOf t.sentinel lines') = hitsOf (payloadsOf t.sentinel lines) :=
    funext fun site => (hp.map _).sum_nat
  have hUnknown : unknownIn t.table (payloadsOf t.sentinel lines') =
      unknownIn t.table (payloadsOf t.sentinel lines) := (hp.map _).sum_nat
  rw [ingestAll_eq, ingestAll_eq, hHits, hUnknown, h.length_eq, hp.length_eq, h.countP_eq]

theorem table_ingest_of_isMalformed {t : Tally} {line : String}
    (h : isMalformed t.sentinel line = true) : (t.ingest line).table = t.table := by
  have hNone : payloadsOf t.sentinel [line] = [] := by
    cases hFound : payload? t.sentinel line with
    | none => simp [payloadsOf, hFound]
    | some found =>
        cases found with
        | none => simp [payloadsOf, hFound]
        | some p => simp [isMalformed, hFound] at h
  rw [ingest_eq, hNone]
  exact t.table.credit_zero

/-- **What merging leaves.** Sites and metadata stay. The hits of a site grow by what all payloads
report for it, up to the largest number of 64 bits, where a payload that writes a site twice reports
its last counter. The counts are those of the lines, whose order does not matter, and a line whose
payload cannot be read changes no counter. -/
theorem ingestAll_totals (sentinel : String) (table : SiteTable) (lines : List String) :
    let after := (start sentinel table).ingestAll lines
    let payloads := payloadsOf sentinel lines
    after.table.sites.keys = table.sites.keys ∧
      (∀ site counter, table.find? site = some counter →
        ∃ merged, after.table.find? site = some merged ∧ merged.metadata = counter.metadata ∧
          merged.hits.toNat = min (2 ^ 64 - 1) (counter.hits.toNat + hitsOf payloads site)) ∧
      (∀ text p, Payload.read? text = some p →
        ∃ members, Json.Node.read (text.map some) = some (.record members) ∧
          ∀ site, p.find? site = Payload.lastCounter members site) ∧
      after.counts = ⟨lines.length, payloads.length, lines.countP (isMalformed sentinel),
        unknownIn table payloads⟩ ∧
      (∀ lines' : List String, lines'.Perm lines →
        (start sentinel table).ingestAll lines' = after) ∧
      ∀ t : Tally, ∀ line, isMalformed t.sentinel line = true →
        (t.ingest line).table = t.table := by
  have hAfter := ingestAll_eq (start sentinel table) lines
  refine ⟨?_, ?_, fun text p => Payload.exists_record_of_read?, ?_,
    fun lines' hPerm => ingestAll_perm _ hPerm, fun t line => table_ingest_of_isMalformed⟩
  · rw [hAfter]
    exact SiteTable.keys_credit table _
  · intro site counter hFind
    have hCredit := table.find?_credit (hitsOf (payloadsOf sentinel lines)) site
    rw [hFind, Option.map_some] at hCredit
    refine ⟨{ counter with
      hits := Hits.upTo (counter.hits.toNat + hitsOf (payloadsOf sentinel lines) site) },
      ?_, rfl, Hits.toNat_upTo _⟩
    rw [hAfter]
    exact hCredit
  · rw [hAfter]
    simp only [start, Nat.zero_add]

/-- Near the limit hits stop, a site that is written twice counts once, an unknown one not at all,
and nothing is kept of the counter before a defect. -/
theorem ingestAll_totals_near_limit :
    let table : SiteTable :=
      ⟨OrderedMap.ofList [("a", ⟨Hits.upTo (2 ^ 64 - 3), OrderedMap.empty⟩),
        ("b", ⟨7, OrderedMap.empty⟩)]⟩
    let text := "\x7b\"a\":[9],\"c\":[1],\"a\":[5]\x7d"
    let defect := "|\x7b\"b\":[1],\"a\"\x7d|"
    let after := (start "|" table).ingestAll [defect, "|" ++ text ++ "|", "b"]
    (after.table.find? "a").map (·.hits.toNat) = some (2 ^ 64 - 1) ∧
      (after.table.find? "b").map (·.hits.toNat) = some 7 ∧ after.counts = ⟨3, 1, 1, 1⟩ ∧
      (start "|" table).ingestAll ["|" ++ text ++ "|", defect, "b"] = after ∧
      ((start "|" table).ingest defect).table = table ∧
      ∃ p members, Payload.read? text.toList = some p ∧
        p.find? "a" = Payload.lastCounter members "a" ∧ p.hitsOf "a" = 5 := by
  intro table text defect after
  obtain ⟨-, hSites, hReads, hCounts, hPerm, hDefect⟩ :=
    ingestAll_totals "|" table [defect, "|" ++ text ++ "|", "b"]
  obtain ⟨a, hFindA, -, hHitsA⟩ := hSites "a" ⟨Hits.upTo (2 ^ 64 - 3), OrderedMap.empty⟩ rfl
  obtain ⟨b, hFindB, -, hHitsB⟩ := hSites "b" ⟨7, OrderedMap.empty⟩ rfl
  have hRead : Payload.read? text.toList = some (OrderedMap.ofList [("a", 5), ("c", 1)]) := by
    decide +kernel
  obtain ⟨members, -, hLast⟩ := hReads text.toList _ hRead
  refine ⟨?_, ?_, hCounts.trans (by decide +kernel), hPerm _ (List.Perm.swap ..),
    hDefect _ _ (by decide +kernel), _, members, hRead, hLast "a", by decide +kernel⟩
  · rw [hFindA, Option.map_some, hHitsA]
    decide +kernel
  · rw [hFindB, Option.map_some, hHitsB]
    decide +kernel

end Tally

end CoverRun

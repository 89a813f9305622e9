import CoverRun.Coverage.Payload
import CoverRun.Proofs.Json.Compact
import CoverRun.Proofs.OrderedMap
import CoverRun.Proofs.Outcome

/-!
# Which texts are payloads

A counter is a record in which exactly one member is called `hits`, or a list of one item; either
holds a token of digits alone whose number fits 64 bits (`Payload.Counts`). Other members of the
record need a name that is a text, and can hold anything that is spelled. A text is a payload
exactly if it spells a record of counters, between blanks (`Payload.read?_eq_some_iff`), so one
member that is no counter spoils the whole payload, whatever the others are
(`Payload.read?_outcome`).
-/

namespace CoverRun

open Json Outcome

/-! ## Tokens -/

/-- The number of a token of digits alone. -/
structure Json.NumberText.Writes (t : NumberText) (n : UInt64) : Prop where
  unsigned : t.negative = false
  unbroken : t.fraction = none
  unscaled : t.exponent = none
  value : digitsValue t.whole = n.toNat

theorem Json.NumberText.word?_eq_some_iff {t : NumberText} {n : UInt64} :
    t.word? = some n ↔ t.Writes n := by
  obtain ⟨negative, whole, fraction, exponent⟩ := t
  have hValue : digitsValue whole ≤ wordLimit ∧ UInt64.ofNat (digitsValue whole) = n ↔
      digitsValue whole = n.toNat := by
    have hBound := n.toNat_lt
    rw [← UInt64.toNat_inj, UInt64.toNat_ofNat', wordLimit]
    omega
  have hWord : NumberText.word? ⟨negative, whole, fraction, exponent⟩ = some n ↔
      ((fraction = none ∧ exponent = none) ∧ negative = false) ∧ digitsValue whole = n.toNat := by
    simp [NumberText.word?, isInteger, ← hValue, and_assoc]
  rw [hWord]
  exact ⟨fun ⟨⟨⟨hFraction, hExponent⟩, hSign⟩, hDigits⟩ => ⟨hSign, hFraction, hExponent, hDigits⟩,
    fun h => ⟨⟨⟨h.unbroken, h.unscaled⟩, h.unsigned⟩, h.value⟩⟩

namespace Payload

/-! ## Counters -/

/-- A member of a counter that does not count: its name is a text other than `hits`. -/
def Skipped (m : Units × Node) : Prop := ∃ k, m.1.text? = some k ∧ k ≠ SiteCounter.hitsKey

/-- A node counts so many hits. -/
inductive Counts : Node → Hits → Prop
  | record {before after : List (Units × Node)} {key : Units} {t : NumberText} {n : Hits}
      (named : key.text? = some SiteCounter.hitsKey) (writes : t.Writes n)
      (others : ∀ m ∈ before ++ after, Skipped m) :
      Counts (.record (before ++ (key, .number t) :: after)) n
  | list {t : NumberText} {n : Hits} (writes : t.Writes n) : Counts (.list [.number t]) n

theorem hits?_eq_some_iff {node : Node} {n : Hits} :
    hits? node = some n ↔ ∃ t, node = .number t ∧ t.Writes n := by
  cases node with
  | number t => simp [hits?, NumberText.word?_eq_some_iff]
  | _ => simp [hits?]

/-- A member is skipped, or it is the first that gives the hits. -/
theorem readMember_eq_some_iff {done done' : Option Hits} {m : Units × Node} :
    readMember done m.1 m.2 = some done' ↔ (Skipped m ∧ done' = done) ∨
      (m.1.text? = some SiteCounter.hitsKey ∧ done = none ∧
        ∃ n, hits? m.2 = some n ∧ done' = some n) := by
  rw [readMember.eq_def, Skipped]
  cases hKey : m.1.text? with
  | none => simp
  | some k =>
      by_cases hHits : k = SiteCounter.hitsKey
      · cases done <;> cases hits? m.2 <;> simp [hHits, eq_comm]
      · simp [hHits, eq_comm]

theorem foldlM_readMember_some {members : List (Units × Node)} {n : Hits} {done : Option Hits} :
    members.foldlM (fun done m => readMember done m.1 m.2) (some n) = some done ↔
      (∀ m ∈ members, Skipped m) ∧ done = some n := by
  induction members with
  | nil => simp [eq_comm]
  | cons m members ih =>
      rw [List.foldlM_cons, Option.bind_eq_bind, Option.bind_eq_some_iff]
      simp [readMember_eq_some_iff, ih, and_assoc]

/-- **Members give hits exactly if one of them does and the others are skipped.** -/
theorem foldlM_readMember_none {members : List (Units × Node)} {n : Hits} :
    members.foldlM (fun done m => readMember done m.1 m.2) none = some (some n) ↔
      ∃ before m after, members = before ++ m :: after ∧
        m.1.text? = some SiteCounter.hitsKey ∧ hits? m.2 = some n ∧
        ∀ m' ∈ before ++ after, Skipped m' := by
  induction members with
  | nil => simp
  | cons m members ih =>
      rw [List.foldlM_cons, Option.bind_eq_bind, Option.bind_eq_some_iff, exists_split_cons]
      constructor
      · rintro ⟨done, hHere, hLater⟩
        rcases readMember_eq_some_iff.1 hHere with ⟨hSkipped, rfl⟩ | ⟨hKey, -, n', hHits, rfl⟩
        · obtain ⟨before, m', after, hSplit, hKey, hHits, hOthers⟩ := ih.1 hLater
          exact Or.inr ⟨before, m', after, hSplit, hKey, hHits,
            List.forall_mem_cons.2 ⟨hSkipped, hOthers⟩⟩
        · obtain ⟨hOthers, hEq⟩ := foldlM_readMember_some.1 hLater
          obtain rfl := Option.some.inj hEq
          exact Or.inl ⟨hKey, hHits, hOthers⟩
      · rintro (⟨hKey, hHits, hOthers⟩ | ⟨before, m', after, hSplit, hKey, hHits, hOthers⟩)
        · exact ⟨some n, readMember_eq_some_iff.2 (Or.inr ⟨hKey, rfl, n, hHits, rfl⟩),
            foldlM_readMember_some.2 ⟨hOthers, rfl⟩⟩
        · obtain ⟨hSkipped, hLater⟩ := List.forall_mem_cons.1 hOthers
          exact ⟨none, readMember_eq_some_iff.2 (Or.inl ⟨hSkipped, rfl⟩),
            ih.2 ⟨before, m', after, hSplit, hKey, hHits, hLater⟩⟩

/-- **A node is read as a counter exactly if it counts.** -/
theorem readCounter_eq_some_iff {node : Node} {n : Hits} :
    readCounter node = some n ↔ Counts node n := by
  constructor
  · intro h
    rw [readCounter.eq_def] at h
    split at h
    · next members =>
      obtain ⟨done, hMembers, rfl⟩ := Option.bind_eq_some_iff.1 h
      obtain ⟨before, ⟨key, item⟩, after, rfl, hKey, hHits, hOthers⟩ :=
        foldlM_readMember_none.1 hMembers
      obtain ⟨t, rfl, hWrites⟩ := hits?_eq_some_iff.1 hHits
      exact .record hKey hWrites hOthers
    · next item =>
      obtain ⟨t, rfl, hWrites⟩ := hits?_eq_some_iff.1 h
      exact .list hWrites
    · cases h
  · intro h
    cases h with
    | @record before after key t _ named writes others =>
        have hHits : hits? (.number t) = some n := hits?_eq_some_iff.2 ⟨t, rfl, writes⟩
        have hMembers := foldlM_readMember_none.2
          ⟨before, (key, .number t), after, rfl, named, hHits, others⟩
        exact Option.bind_eq_some_iff.2 ⟨_, hMembers, rfl⟩
    | list writes => exact hits?_eq_some_iff.2 ⟨_, rfl, writes⟩

/-! ## Payloads -/

/-- A member of a payload gives a site its counter. -/
def Gives (m : Units × Node) (e : String × Hits) : Prop :=
  m.1.text? = some e.1 ∧ Counts m.2 e.2

theorem foldlM_counters {members : List (Units × Node)} {start p : Payload} :
    (members.foldlM (fun (p : Payload) m => do
      let site ← m.1.text?
      let n ← readCounter m.2
      return p.insert site n) start) = some p ↔
      ∃ counters, List.Forall₂ Gives members counters ∧
        p = counters.foldl (fun p e => p.insert e.1 e.2) start := by
  induction members generalizing start with
  | nil => simp [eq_comm]
  | cons m members ih =>
      rw [List.foldlM_cons, Option.bind_eq_bind, Option.bind_eq_some_iff]
      simp only [ih, List.forall₂_cons_left_iff]
      constructor
      · rintro ⟨p', hHere, counters, hCounters, rfl⟩
        obtain ⟨site, hSite, hHere⟩ := Option.bind_eq_some_iff.1 hHere
        obtain ⟨n, hCounter, hEq⟩ := Option.bind_eq_some_iff.1 hHere
        obtain rfl := Option.some.inj hEq
        exact ⟨(site, n) :: counters,
          ⟨(site, n), counters, ⟨hSite, readCounter_eq_some_iff.1 hCounter⟩, hCounters, rfl⟩, rfl⟩
      · rintro ⟨_, ⟨⟨site, n⟩, counters, ⟨hSite, hCounts⟩, hCounters, rfl⟩, rfl⟩
        refine ⟨start.insert site n, ?_, counters, hCounters, rfl⟩
        simp only at hSite hCounts
        rw [hSite, readCounter_eq_some_iff.2 hCounts]
        rfl

/-- **A record is a payload exactly if each member gives a site its counter**; of a site that comes
twice the last counter counts. -/
theorem ofNode?_record_iff {members : List (Units × Node)} {p : Payload} :
    ofNode? (.record members) = some p ↔ ∃ counters, List.Forall₂ Gives members counters ∧
      ∀ site, p.find? site = (counters.filter (·.1 = site)).getLast?.map (·.2) := by
  rw [ofNode?, foldlM_counters]
  refine exists_congr fun counters => and_congr_right fun _ => ?_
  constructor
  · rintro rfl
    exact OrderedMap.find?_ofList_eq_last counters
  · intro h
    refine OrderedMap.ext_find? fun site => ?_
    rw [h site]
    exact (OrderedMap.find?_ofList_eq_last counters site).symm

/-- The text is a record with these members, between blanks. -/
def SpellsRecord (text : List Char) (members : List (Units × Node)) : Prop :=
  ∃ bs us cs, text.map some = bs ++ (us ++ cs) ∧ AreBlanks bs ∧ AreBlanks cs ∧
    Spells us (.value (.record members))

/-- **A text is a payload exactly if it is a record whose members give sites their counters.** -/
theorem read?_eq_some_iff {text : List Char} {p : Payload} :
    read? text = some p ↔ ∃ members counters, SpellsRecord text members ∧
      List.Forall₂ Gives members counters ∧
      ∀ site, p.find? site = (counters.filter (·.1 = site)).getLast?.map (·.2) := by
  rw [read?, Option.bind_eq_some_iff]
  constructor
  · rintro ⟨node, hNode, hPayload⟩
    cases node with
    | record members =>
        obtain ⟨counters, hCounters⟩ := ofNode?_record_iff.1 hPayload
        exact ⟨members, counters, Node.read_eq_some_iff.1 hNode, hCounters⟩
    | _ => cases hPayload
  · rintro ⟨members, counters, hSpells, hCounters⟩
    exact ⟨_, Node.read_eq_some_iff.2 hSpells, ofNode?_record_iff.2 ⟨counters, hCounters⟩⟩

/-- **What is read of a text.** It is a payload exactly if it is, between blanks, a record whose
members give sites their counters; each site then has the last counter that it is given. If one
member has no name that is a text, or is no counter, nothing is read. -/
theorem read?_outcome (text : List Char) :
    (∀ p, read? text = some p ↔ ∃ members counters, SpellsRecord text members ∧
      List.Forall₂ Gives members counters ∧
      ∀ site, p.find? site = (counters.filter (·.1 = site)).getLast?.map (·.2)) ∧
    ∀ members, SpellsRecord text members →
      (∃ m ∈ members, m.1.text? = none ∨ ∀ n, ¬ Counts m.2 n) → read? text = none := by
  refine ⟨fun p => read?_eq_some_iff, ?_⟩
  rintro members hSpells ⟨m, hm, hDefect⟩
  cases hRead : read? text with
  | none => rfl
  | some p =>
      obtain ⟨members', counters, hSpells', hCounters, -⟩ := read?_eq_some_iff.1 hRead
      have hSame := (Node.read_eq_some_iff.2 hSpells).symm.trans (Node.read_eq_some_iff.2 hSpells')
      obtain rfl : members = members' := Node.record.inj (Option.some.inj hSame)
      obtain ⟨i, hi, rfl⟩ := List.mem_iff_getElem.1 hm
      obtain ⟨hName, hCounts⟩ := hCounters.get hi (hCounters.length_eq ▸ hi)
      rcases hDefect with hNone | hNone
      · simp only [List.get_eq_getElem] at hName
        rw [hNone] at hName
        cases hName
      · exact absurd hCounts (hNone _)

/-- A number below zero spoils a payload, in which another member is a counter. -/
theorem read?_outcome_defect :
    let text := "\x7b\"a\":[1],\"b\":\x7b\"hits\":-1\x7d\x7d".toList
    ∃ a b, SpellsRecord text [a, b] ∧ Counts a.2 1 ∧ (∀ n, ¬ Counts b.2 n) ∧
      read? text = none := by
  intro text
  let counter : Value := .list [.number (.natural 1)]
  let defect : Value := .record [("hits", .number (.negative 0))]
  let a : Units × Node := (Units.ofText "a", counter.node)
  let b : Units × Node := (Units.ofText "b", defect.node)
  have hText : (Value.record [("a", counter), ("b", defect)]).compactChars = text := by
    decide +kernel
  have hRead : Node.read (text.map some) = some (.record [a, b]) :=
    hText ▸ Value.read_compactChars _
  have hCounter : readCounter a.2 = some 1 := by decide +kernel
  have hNone : readCounter b.2 = none := by decide +kernel
  have hSpells : SpellsRecord text [a, b] := Node.read_eq_some_iff.1 hRead
  have hDefect : ∀ n, ¬ Counts b.2 n := by
    intro n hCounts
    rw [← readCounter_eq_some_iff, hNone] at hCounts
    cases hCounts
  exact ⟨a, b, hSpells, readCounter_eq_some_iff.1 hCounter, hDefect,
    (read?_outcome text).2 [a, b] hSpells ⟨b, by simp, Or.inr hDefect⟩⟩

/-- Blanks, a name with an escape, a site that comes twice, and odd values that are skipped. -/
example :
    let text := " \x7b\"S\":[5],\"\\u0053\":\x7b\"x\":[\"\\ud800\",1e999],\"hits\":7\x7d\x7d\n"
    read? text.toList = some (OrderedMap.ofList [("S", 7)]) := by decide +kernel

end Payload

end CoverRun

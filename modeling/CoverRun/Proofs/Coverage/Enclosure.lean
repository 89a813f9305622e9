import CoverRun.Coverage.Tally
import Mathlib.Data.Nat.Find

/-!
# Where a payload lies

The search for a payload takes the characters of a line one by one. Here it is tied to positions:
`payload?` finds something exactly if some two occurrences of the sentinel enclose a payload, and
what it finds lies between the two that come first (`payload?_eq_some_iff`), an earlier opening
before an earlier closing. Occurrences may overlap one another and the payload.
-/

namespace CoverRun.Sentinel

instance (sentinel line : List Char) (i : Nat) : Decidable (OccursAt sentinel line i) :=
  inferInstanceAs (Decidable (sentinel <+: line.drop i))

/-- A text up to a position is a payload that an occurrence there closes. -/
def ClosesAt (sentinel text : List Char) (k : Nat) : Prop :=
  1 ≤ k ∧ k ≤ text.length ∧ OccursAt sentinel text k ∧ '\n' ∉ text.take k

/-- The first of the positions that close. -/
def ClosesFirst (sentinel text : List Char) (k : Nat) : Prop :=
  ClosesAt sentinel text k ∧ ∀ k', ClosesAt sentinel text k' → k ≤ k'

/-- The enclosure that comes first: nothing is enclosed from an earlier position, and nothing that
ends earlier from the same position. -/
def EnclosesFirst (sentinel line : List Char) (i j : Nat) : Prop :=
  Encloses sentinel line i j ∧
    ∀ i' j', Encloses sentinel line i' j' → i ≤ i' ∧ (i' = i → j ≤ j')

/-! ## Occurrences -/

theorem occursAt_append_right {sentinel line : List Char} (before : List Char) {k : Nat} :
    OccursAt sentinel (before ++ line) (before.length + k) ↔ OccursAt sentinel line k := by
  rw [OccursAt, OccursAt, ← List.drop_drop, List.drop_left]

theorem occursAt_append_left {sentinel line : List Char} (after : List Char) {i : Nat}
    (h : i + sentinel.length ≤ line.length) :
    OccursAt sentinel (line ++ after) i ↔ OccursAt sentinel line i := by
  rw [OccursAt, OccursAt, List.drop_append_of_le_length (by omega)]
  constructor
  · intro hOccurs
    exact List.prefix_of_prefix_length_le hOccurs (List.prefix_append ..)
      (by rw [List.length_drop]; omega)
  · exact fun hOccurs => hOccurs.trans (List.prefix_append ..)

/-! ## Closing -/

theorem closesAt_succ {sentinel text : List Char} {c : Char} {k : Nat} (hk : 1 ≤ k) :
    ClosesAt sentinel (c :: text) (k + 1) ↔ c ≠ '\n' ∧ ClosesAt sentinel text k := by
  simp only [ClosesAt, OccursAt, List.length_cons, List.drop_succ_cons, List.take_succ_cons,
    List.mem_cons, not_or]
  constructor
  · rintro ⟨-, hLength, hOccurs, hNew, hFree⟩
    exact ⟨Ne.symm hNew, hk, by omega, hOccurs, hFree⟩
  · rintro ⟨hNew, -, hLength, hOccurs, hFree⟩
    exact ⟨by omega, by omega, hOccurs, Ne.symm hNew, hFree⟩

theorem closesAt_one {sentinel text : List Char} {c : Char} :
    ClosesAt sentinel (c :: text) 1 ↔ c ≠ '\n' ∧ sentinel <+: text := by
  simp [ClosesAt, OccursAt, eq_comm, and_comm]

theorem not_closesAt_lineFeed {sentinel text : List Char} {k : Nat} :
    ¬ ClosesAt sentinel ('\n' :: text) k := by
  rintro ⟨hk, -, -, hFree⟩
  obtain ⟨k, rfl⟩ := Nat.exists_eq_add_one.2 hk
  simp at hFree

theorem closesFirst_cons {sentinel text : List Char} {c : Char} {k : Nat} (hc : c ≠ '\n')
    (hHere : ¬ sentinel <+: text) :
    ClosesFirst sentinel (c :: text) (k + 1) ↔ ClosesFirst sentinel text k := by
  have hStep (k : Nat) : ClosesAt sentinel (c :: text) (k + 1) ↔ ClosesAt sentinel text k := by
    cases k with
    | zero =>
        exact iff_of_false (fun h => hHere (closesAt_one.1 h).2) fun h => absurd h.1 (by decide)
    | succ k => rw [closesAt_succ (by omega), and_iff_right hc]
  rw [ClosesFirst, ClosesFirst, hStep]
  refine and_congr_right fun _ => ⟨fun h k' hk' => ?_, fun h k' hk' => ?_⟩
  · have := h (k' + 1) ((hStep k').2 hk')
    omega
  · obtain ⟨k', rfl⟩ := Nat.exists_eq_add_one.2 hk'.1
    have := h k' ((hStep k').1 hk')
    omega

theorem close?_eq_some_iff {sentinel taken text payload : List Char} :
    close? sentinel taken text = some payload ↔
      ∃ k, ClosesFirst sentinel text k ∧ payload = taken.reverse ++ text.take k := by
  induction text generalizing taken with
  | nil =>
      simp only [close?, reduceCtorEq, false_iff]
      rintro ⟨k, ⟨⟨hk, hLength, -⟩, -⟩, -⟩
      simp only [List.length_nil] at hLength
      omega
  | cons c text ih =>
      rw [close?]
      split
      · next hc =>
        subst hc
        simp only [reduceCtorEq, false_iff]
        rintro ⟨k, hk, -⟩
        exact not_closesAt_lineFeed hk.1
      · next hc =>
        split
        · next hHere =>
          rw [List.isPrefixOf_iff_prefix] at hHere
          have hOne : ClosesAt sentinel (c :: text) 1 := closesAt_one.2 ⟨hc, hHere⟩
          constructor
          · intro h
            refine ⟨1, ⟨hOne, fun k' hk' => hk'.1⟩, ?_⟩
            simpa using (Option.some.inj h).symm
          · rintro ⟨k, hk, rfl⟩
            obtain rfl : k = 1 := Nat.le_antisymm (hk.2 1 hOne) hk.1.1
            simp
        · next hHere =>
          rw [List.isPrefixOf_iff_prefix] at hHere
          rw [ih]
          constructor
          · rintro ⟨k, hk, rfl⟩
            exact ⟨k + 1, (closesFirst_cons hc hHere).2 hk, by simp⟩
          · rintro ⟨k, hk, rfl⟩
            obtain ⟨k, rfl⟩ := Nat.exists_eq_add_one.2 hk.1.1
            exact ⟨k, (closesFirst_cons hc hHere).1 hk, by simp⟩

/-! ## Opening -/

theorem encloses_iff {sentinel line : List Char} {i j : Nat} :
    Encloses sentinel line i j ↔ OccursAt sentinel line i ∧
      ∃ k, j = i + sentinel.length + k ∧ ClosesAt sentinel (line.drop (i + sentinel.length)) k := by
  simp only [Encloses, ClosesAt, OccursAt, List.drop_drop, List.length_drop]
  constructor
  · rintro ⟨hOpen, hClose, hSome, hLength, hFree⟩
    obtain ⟨k, rfl⟩ : ∃ k, j = i + sentinel.length + k := ⟨j - (i + sentinel.length), by omega⟩
    rw [Nat.add_sub_cancel_left] at hFree
    exact ⟨hOpen, k, rfl, by omega, by omega, hClose, hFree⟩
  · rintro ⟨hOpen, k, rfl, hSome, hLength, hClose, hFree⟩
    rw [Nat.add_sub_cancel_left]
    exact ⟨hOpen, hClose, by omega, by omega, hFree⟩

theorem encloses_cons {sentinel line : List Char} {c : Char} {i j : Nat} :
    Encloses sentinel (c :: line) (i + 1) (j + 1) ↔ Encloses sentinel line i j := by
  simp only [Encloses, OccursAt, Nat.add_right_comm i 1, List.drop_succ_cons, List.length_cons,
    Nat.add_sub_add_right, Nat.add_le_add_iff_right]

theorem payloadBetween_cons (sentinel line : List Char) (c : Char) (i j : Nat) :
    payloadBetween sentinel (c :: line) (i + 1) (j + 1) = payloadBetween sentinel line i j := by
  simp only [payloadBetween, Nat.add_right_comm i 1, List.drop_succ_cons, Nat.add_sub_add_right]

theorem openedHere?_eq_some_iff {sentinel line payload : List Char} :
    openedHere? sentinel line = some payload ↔
      ∃ j, Encloses sentinel line 0 j ∧ (∀ j', Encloses sentinel line 0 j' → j ≤ j') ∧
        payload = payloadBetween sentinel line 0 j := by
  simp only [encloses_iff, payloadBetween, OccursAt, Nat.zero_add, List.drop_zero, openedHere?,
    List.isPrefixOf_iff_prefix]
  split
  · next hOpen =>
    rw [close?_eq_some_iff]
    constructor
    · rintro ⟨k, ⟨hk, hLeast⟩, rfl⟩
      refine ⟨sentinel.length + k, ⟨hOpen, k, rfl, hk⟩, ?_, by simp⟩
      rintro j' ⟨-, k', rfl, hk'⟩
      have := hLeast k' hk'
      omega
    · rintro ⟨j, ⟨-, k, rfl, hk⟩, hLeast, rfl⟩
      refine ⟨k, ⟨hk, fun k' hk' => ?_⟩, by simp⟩
      have := hLeast (sentinel.length + k') ⟨hOpen, k', rfl, hk'⟩
      omega
  · next hOpen =>
    constructor
    · simp
    · rintro ⟨j, ⟨hHere, -⟩, -⟩
      exact absurd hHere hOpen

theorem exists_first {P : Nat → Prop} (h : ∃ k, P k) : ∃ k, P k ∧ ∀ k', P k' → k ≤ k' := by
  classical
  exact ⟨Nat.find h, Nat.find_spec h, fun k' hk' => Nat.find_min' h hk'⟩

theorem openedHere?_eq_none_iff {sentinel line : List Char} :
    openedHere? sentinel line = none ↔ ∀ j, ¬ Encloses sentinel line 0 j := by
  constructor
  · intro h j hj
    obtain ⟨j, hj, hLeast⟩ := exists_first ⟨j, hj⟩
    rw [openedHere?_eq_some_iff.2 ⟨j, hj, hLeast, rfl⟩] at h
    cases h
  · intro h
    cases hOpen : openedHere? sentinel line with
    | none => rfl
    | some payload =>
        obtain ⟨j, hj, -⟩ := openedHere?_eq_some_iff.1 hOpen
        exact absurd hj (h j)

/-! ## The first enclosure -/

theorem exists_enclosesFirst {sentinel line : List Char} {i j : Nat}
    (h : Encloses sentinel line i j) : ∃ i' j', EnclosesFirst sentinel line i' j' := by
  obtain ⟨i', hi', hFirst⟩ := exists_first (P := fun i => ∃ j, Encloses sentinel line i j) ⟨i, j, h⟩
  obtain ⟨j', hj', hLeast⟩ := exists_first hi'
  refine ⟨i', j', hj', fun a b hab => ⟨hFirst a ⟨b, hab⟩, ?_⟩⟩
  rintro rfl
  exact hLeast b hab

theorem exists_encloses_of_cons {sentinel line : List Char} {c : Char} {i j : Nat}
    (hNone : ∀ j, ¬ Encloses sentinel (c :: line) 0 j) (h : Encloses sentinel (c :: line) i j) :
    ∃ i' j', i = i' + 1 ∧ j = j' + 1 ∧ Encloses sentinel line i' j' := by
  have hi : i ≠ 0 := fun hZero => hNone j (hZero ▸ h)
  have hj := h.2.2.1
  obtain ⟨i, rfl⟩ := Nat.exists_eq_add_one.2 (show 0 < i by omega)
  obtain ⟨j, rfl⟩ := Nat.exists_eq_add_one.2 (show 0 < j by omega)
  exact ⟨i, j, rfl, rfl, encloses_cons.1 h⟩

theorem enclosesFirst_cons {sentinel line : List Char} {c : Char} {i j : Nat}
    (hNone : ∀ j, ¬ Encloses sentinel (c :: line) 0 j) :
    EnclosesFirst sentinel (c :: line) (i + 1) (j + 1) ↔ EnclosesFirst sentinel line i j := by
  rw [EnclosesFirst, EnclosesFirst, encloses_cons]
  refine and_congr_right fun _ => ⟨fun h i' j' h' => ?_, fun h i' j' h' => ?_⟩
  · have := h (i' + 1) (j' + 1) (encloses_cons.2 h')
    omega
  · obtain ⟨i', j', rfl, rfl, hRest⟩ := exists_encloses_of_cons hNone h'
    have := h i' j' hRest
    omega

/-- **The payload lies in the first enclosure.** -/
theorem payload?_eq_some_iff {sentinel line payload : List Char} :
    payload? sentinel line = some payload ↔
      ∃ i j, EnclosesFirst sentinel line i j ∧ payload = payloadBetween sentinel line i j := by
  induction line with
  | nil =>
      simp only [payload?, reduceCtorEq, false_iff]
      rintro ⟨i, j, ⟨⟨-, -, hSome, hLength, -⟩, -⟩, -⟩
      simp only [List.length_nil] at hLength
      omega
  | cons c line ih =>
      rw [payload?]
      cases hHere : openedHere? sentinel (c :: line) with
      | some found =>
          obtain ⟨j, hj, hLeast, rfl⟩ := openedHere?_eq_some_iff.1 hHere
          have hFirst : EnclosesFirst sentinel (c :: line) 0 j :=
            ⟨hj, fun i' j' h' => ⟨Nat.zero_le _, fun hi => hLeast j' (hi ▸ h')⟩⟩
          constructor
          · intro h
            exact ⟨0, j, hFirst, (Option.some.inj h).symm⟩
          · rintro ⟨i', j', hFirst', rfl⟩
            have hi := (hFirst'.2 0 j hj).1
            obtain rfl : i' = 0 := by omega
            have hj' := (hFirst'.2 0 j hj).2 rfl
            have hj'' := hLeast j' hFirst'.1
            obtain rfl : j = j' := by omega
            rfl
      | none =>
          have hNone := openedHere?_eq_none_iff.1 hHere
          change payload? sentinel line = some payload ↔ _
          rw [ih]
          constructor
          · rintro ⟨i, j, hFirst, rfl⟩
            exact ⟨i + 1, j + 1, (enclosesFirst_cons hNone).2 hFirst,
              (payloadBetween_cons ..).symm⟩
          · rintro ⟨i, j, hFirst, rfl⟩
            obtain ⟨i, j, rfl, rfl, -⟩ := exists_encloses_of_cons hNone hFirst.1
            exact ⟨i, j, (enclosesFirst_cons hNone).1 hFirst, payloadBetween_cons ..⟩

theorem payload?_eq_none_iff {sentinel line : List Char} :
    payload? sentinel line = none ↔ ∀ i j, ¬ Encloses sentinel line i j := by
  constructor
  · intro h i j hij
    obtain ⟨i, j, hFirst⟩ := exists_enclosesFirst hij
    rw [payload?_eq_some_iff.2 ⟨i, j, hFirst, rfl⟩] at h
    cases h
  · intro h
    cases hFound : payload? sentinel line with
    | none => rfl
    | some payload =>
        obtain ⟨i, j, hFirst, -⟩ := payload?_eq_some_iff.1 hFound
        exact absurd hFirst.1 (h i j)

/-! ## A payload that was written between sentinels -/

/-- What stands between the first sentinel of a line and the next one is its payload, if no
occurrence begins inside the text and ends in the closing sentinel. -/
theorem payload?_framed {sentinel before text after : List Char} (nonempty : text ≠ [])
    (unbroken : '\n' ∉ text)
    (opens : ∀ i < before.length, ¬ OccursAt sentinel (before ++ sentinel ++ text ++ sentinel) i)
    (closes : ∀ k, 1 ≤ k → k < text.length → ¬ OccursAt sentinel (text ++ sentinel) k) :
    payload? sentinel (before ++ sentinel ++ text ++ sentinel ++ after) = some text := by
  have hLength := List.length_pos_iff.2 nonempty
  have hInside : ∀ k, OccursAt sentinel
      (before ++ sentinel ++ text ++ sentinel ++ after) (before.length + sentinel.length + k) ↔
        OccursAt sentinel (text ++ sentinel ++ after) k := fun k => by
    have h : OccursAt sentinel ((before ++ sentinel) ++ (text ++ sentinel ++ after))
        ((before ++ sentinel).length + k) ↔ OccursAt sentinel (text ++ sentinel ++ after) k :=
      occursAt_append_right _
    simpa [List.append_assoc] using h
  have hBetween : payloadBetween sentinel (before ++ sentinel ++ text ++ sentinel ++ after)
      before.length (before.length + sentinel.length + text.length) = text := by
    have hDrop : (before ++ sentinel ++ (text ++ (sentinel ++ after))).drop
        (before ++ sentinel).length = text ++ (sentinel ++ after) := List.drop_left
    rw [List.length_append] at hDrop
    rw [payloadBetween, Nat.add_sub_cancel_left]
    simp only [List.append_assoc] at hDrop ⊢
    rw [hDrop, List.take_left]
  have hUnbroken : '\n' ∉ payloadBetween sentinel (before ++ sentinel ++ text ++ sentinel ++ after)
      before.length (before.length + sentinel.length + text.length) := by
    rw [hBetween]
    exact unbroken
  refine payload?_eq_some_iff.2 ⟨before.length, before.length + sentinel.length + text.length,
    ⟨⟨?_, ?_, by omega, by simp; omega, hUnbroken⟩, fun i j h => ⟨?_, ?_⟩⟩,
    hBetween.symm⟩
  · simp [OccursAt, List.append_assoc]
  · rw [hInside]
    simp [OccursAt, List.append_assoc]
  · by_contra hEarlier
    exact opens i (by omega) ((occursAt_append_left after (by simp; omega)).1 h.1)
  · rintro rfl
    obtain ⟨k, rfl⟩ : ∃ k, j = before.length + sentinel.length + k :=
      ⟨j - (before.length + sentinel.length), by have := h.2.2.1; omega⟩
    by_contra hEarlier
    have hOccurs := (hInside k).1 h.2.1
    exact closes k (by have := h.2.2.1; omega) (by omega)
      ((occursAt_append_left after (by simp; omega)).1 hOccurs)

end CoverRun.Sentinel

namespace CoverRun.Tally

open Sentinel

theorem process_eq_plain_iff {t : Tally} {line : String} :
    (t.process line).1 = .plain ↔ Sentinel.payload? t.sentinel.toList line.toList = none := by
  rw [process, payload?]
  cases Sentinel.payload? t.sentinel.toList line.toList with
  | none => simp
  | some text => cases h : Payload.read? text <;> simp [h]

/-- **What is read of a line is found by plain search.** A line is plain if no two occurrences of
the sentinel enclose a payload. Otherwise what is read is the text of the first enclosure. In
particular a text between two sentinels is read as it stands, whatever comes before and after, if
the sentinel does not occur earlier and does not begin inside the text. -/
theorem process_reads_first_enclosure (t : Tally) (line : String) :
    ((t.process line).1 = .plain ↔ ¬ ∃ i j, Encloses t.sentinel.toList line.toList i j) ∧
      payload? t.sentinel line =
        (Sentinel.payload? t.sentinel.toList line.toList).map Payload.read? ∧
      (∀ text, Sentinel.payload? t.sentinel.toList line.toList = some text ↔
        ∃ i j, EnclosesFirst t.sentinel.toList line.toList i j ∧
          text = payloadBetween t.sentinel.toList line.toList i j) ∧
      ∀ before text after : List Char,
        line.toList = before ++ t.sentinel.toList ++ text ++ t.sentinel.toList ++ after →
        text ≠ [] → '\n' ∉ text →
        (∀ i < before.length,
          ¬ OccursAt t.sentinel.toList
            (before ++ t.sentinel.toList ++ text ++ t.sentinel.toList) i) →
        (∀ k, 1 ≤ k → k < text.length →
          ¬ OccursAt t.sentinel.toList (text ++ t.sentinel.toList) k) →
        Sentinel.payload? t.sentinel.toList line.toList = some text := by
  refine ⟨?_, rfl, fun text => payload?_eq_some_iff, ?_⟩
  · rw [process_eq_plain_iff, payload?_eq_none_iff]
    simp
  · intro before text after hLine nonempty unbroken opens closes
    rw [hLine]
    exact payload?_framed nonempty unbroken opens closes

/-- The sentinel overlaps itself and the payload: the earliest occurrence opens, and of those that
leave it a character the earliest closes. -/
theorem process_reads_first_enclosure_overlapping :
    Sentinel.payload? "aa".toList "aaa5aaa".toList = some "a5".toList :=
  (process_reads_first_enclosure (start "aa" SiteTable.empty) "aaa5aaa").2.2.2 [] "a5".toList
    "a".toList (by decide) (by decide) (by decide) (by decide) (by decide)

end CoverRun.Tally

import CoverRun.Proofs.Text.Utf8

/-!
# Bytes that decode

A decoder that is inside a character has taken in bytes which, with any bytes it may take in next,
make up an encoded character (`Utf8.Begun`). So the bytes of each character that comes out are those
of its encoding, and bytes decode exactly if they encode a text (`Utf8.decode?_eq_some_iff`).
-/

namespace CoverRun.Utf8

/-! ## The bytes of one character -/

theorem toNat_ofNat {n : Nat} (h : n < 0xD800 ∨ 0xDFFF < n ∧ n < 0x110000) :
    (Char.ofNat n).toNat = n := by
  rw [Char.ofNat, dif_pos h]
  rfl

theorem ofNat_eq_iff {n : Nat} (h : n < 0x100) {b : UInt8} : UInt8.ofNat n = b ↔ n = b.toNat := by
  rw [← UInt8.toNat_inj, toNat_byte h]

theorem continuation_eq_iff {n : Nat} {b : UInt8} :
    continuation n = b ↔ 0x80 + n % 0x40 = b.toNat :=
  ofNat_eq_iff (by omega)

theorem encodeChar_single {b : UInt8} (h : b.toNat < 0x80) :
    encodeChar (Char.ofNat b.toNat) = [b] := by
  simp only [encodeChar, toNat_ofNat (Or.inl (by omega : b.toNat < 0xD800)), if_pos h,
    UInt8.ofNat_toNat]

section

variable {a b c d : UInt8}

theorem encodeChar_double (hFrom : 0xC2 ≤ a.toNat) (hTo : a.toNat < 0xE0)
    (hb : 0x80 ≤ b.toNat ∧ b.toNat ≤ 0xBF) :
    encodeChar (Char.ofNat (a.toNat % 0x20 * 0x40 + b.toNat % 0x40)) = [a, b] := by
  have hNumber : a.toNat % 0x20 * 0x40 + b.toNat % 0x40 < 0xD800 := by omega
  simp only [encodeChar, toNat_ofNat (Or.inl hNumber)]
  rw [if_neg (by omega), if_pos (by omega)]
  simp only [List.cons.injEq, and_true]
  exact ⟨(ofNat_eq_iff (by omega)).2 (by omega), continuation_eq_iff.2 (by omega)⟩

/-- The narrowed ranges of the second byte keep out overlong forms and surrogates. -/
theorem encodeChar_triple (hFrom : 0xE0 ≤ a.toNat) (hTo : a.toNat < 0xF0)
    (hb : 0x80 ≤ b.toNat ∧ b.toNat ≤ 0xBF) (hLow : a.toNat = 0xE0 → 0xA0 ≤ b.toNat)
    (hHigh : a.toNat = 0xED → b.toNat ≤ 0x9F) (hc : 0x80 ≤ c.toNat ∧ c.toNat ≤ 0xBF) :
    encodeChar (Char.ofNat ((a.toNat % 0x10 * 0x40 + b.toNat % 0x40) * 0x40 + c.toNat % 0x40)) =
      [a, b, c] := by
  have hNumber : (a.toNat % 0x10 * 0x40 + b.toNat % 0x40) * 0x40 + c.toNat % 0x40 < 0xD800 ∨
      0xDFFF < (a.toNat % 0x10 * 0x40 + b.toNat % 0x40) * 0x40 + c.toNat % 0x40 ∧
        (a.toNat % 0x10 * 0x40 + b.toNat % 0x40) * 0x40 + c.toNat % 0x40 < 0x110000 := by omega
  simp only [encodeChar, toNat_ofNat hNumber]
  rw [if_neg (by omega), if_neg (by omega), if_pos (by omega)]
  simp only [List.cons.injEq, and_true]
  exact ⟨(ofNat_eq_iff (by omega)).2 (by omega), continuation_eq_iff.2 (by omega),
    continuation_eq_iff.2 (by omega)⟩

/-- The narrowed ranges of the second byte keep out overlong forms and too large numbers. -/
theorem encodeChar_quadruple (hFrom : 0xF0 ≤ a.toNat) (hTo : a.toNat ≤ 0xF4)
    (hb : 0x80 ≤ b.toNat ∧ b.toNat ≤ 0xBF) (hLow : a.toNat = 0xF0 → 0x90 ≤ b.toNat)
    (hHigh : a.toNat = 0xF4 → b.toNat ≤ 0x8F) (hc : 0x80 ≤ c.toNat ∧ c.toNat ≤ 0xBF)
    (hd : 0x80 ≤ d.toNat ∧ d.toNat ≤ 0xBF) :
    encodeChar (Char.ofNat (((a.toNat % 0x08 * 0x40 + b.toNat % 0x40) * 0x40 +
      c.toNat % 0x40) * 0x40 + d.toNat % 0x40)) = [a, b, c, d] := by
  have hNumber : 0xDFFF < ((a.toNat % 0x08 * 0x40 + b.toNat % 0x40) * 0x40 +
        c.toNat % 0x40) * 0x40 + d.toNat % 0x40 ∧
      ((a.toNat % 0x08 * 0x40 + b.toNat % 0x40) * 0x40 + c.toNat % 0x40) * 0x40 +
        d.toNat % 0x40 < 0x110000 := by omega
  simp only [encodeChar, toNat_ofNat (Or.inr hNumber)]
  rw [if_neg (by omega), if_neg (by omega), if_neg (by omega)]
  simp only [List.cons.injEq, and_true]
  exact ⟨(ofNat_eq_iff (by omega)).2 (by omega), continuation_eq_iff.2 (by omega),
    continuation_eq_iff.2 (by omega), continuation_eq_iff.2 (by omega)⟩

end

/-! ## The bytes on the way -/

/-- Bytes that make up an encoded character with any byte of a range and the bytes it owes. -/
def Begun : Nat → Bytes → UInt8 → UInt8 → Nat → Prop
  | 0, bytes, low, high, content => ∀ b, low ≤ b ∧ b ≤ high →
      encodeChar (Char.ofNat (content * 0x40 + b.toNat % 0x40)) = bytes ++ [b]
  | owed + 1, bytes, low, high, content => ∀ b, low ≤ b ∧ b ≤ high →
      Begun owed (bytes ++ [b]) 0x80 0xBF (content * 0x40 + b.toNat % 0x40)

/-- Bytes that a decoder has taken in since the last character. -/
def Pending (bytes : Bytes) : Position → Prop
  | .between => bytes = []
  | .inside low high owed content => Begun owed bytes low high content

/-- Bytes came to characters and left others pending. -/
def Yields (bytes : Bytes) (us : Units) (pos : Position) : Prop :=
  ∀ cs : List Char, us = cs.map some →
    ∃ rest, bytes = cs.flatMap encodeChar ++ rest ∧ Pending rest pos

theorem yields_of_pending {bytes : Bytes} {pos : Position} (h : Pending bytes pos) :
    Yields bytes [] pos := by
  intro cs hcs
  obtain rfl := List.map_eq_nil_iff.1 hcs.symm
  exact ⟨bytes, rfl, h⟩

theorem yields_char {bytes : Bytes} {c : Char} (h : encodeChar c = bytes) :
    Yields bytes [some c] .between := by
  intro cs hcs
  obtain ⟨c', rfl, hSome⟩ := List.map_eq_singleton_iff.1 hcs.symm
  obtain rfl := Option.some.inj hSome
  exact ⟨[], by simp [h], rfl⟩

theorem yields_none (bytes : Bytes) (us : Units) (pos : Position) :
    Yields bytes (none :: us) pos := by
  intro cs hcs
  cases cs <;> cases hcs

theorem toNat_le_and_le {low high b : UInt8} (h : low ≤ b ∧ b ≤ high) :
    low.toNat ≤ b.toNat ∧ b.toNat ≤ high.toNat :=
  ⟨UInt8.le_iff_toNat_le.1 h.1, UInt8.le_iff_toNat_le.1 h.2⟩

theorem pending_triple {a low high : UInt8} (hFrom : 0xE0 ≤ a.toNat) (hTo : a.toNat < 0xF0)
    (hLow : 0x80 ≤ low.toNat) (hHigh : high.toNat ≤ 0xBF)
    (hFirst : a.toNat = 0xE0 → 0xA0 ≤ low.toNat) (hLast : a.toNat = 0xED → high.toNat ≤ 0x9F) :
    Pending [a] (.inside low high 1 (a.toNat % 0x10)) := by
  intro b hb c hc
  have hb := toNat_le_and_le hb
  exact encodeChar_triple hFrom hTo ⟨Nat.le_trans hLow hb.1, Nat.le_trans hb.2 hHigh⟩
    (fun h => Nat.le_trans (hFirst h) hb.1) (fun h => Nat.le_trans hb.2 (hLast h))
    (toNat_le_and_le hc)

theorem pending_quadruple {a low high : UInt8} (hFrom : 0xF0 ≤ a.toNat) (hTo : a.toNat ≤ 0xF4)
    (hLow : 0x80 ≤ low.toNat) (hHigh : high.toNat ≤ 0xBF)
    (hFirst : a.toNat = 0xF0 → 0x90 ≤ low.toNat) (hLast : a.toNat = 0xF4 → high.toNat ≤ 0x8F) :
    Pending [a] (.inside low high 2 (a.toNat % 0x08)) := by
  intro b hb c hc d hd
  have hb := toNat_le_and_le hb
  exact encodeChar_quadruple hFrom hTo ⟨Nat.le_trans hLow hb.1, Nat.le_trans hb.2 hHigh⟩
    (fun h => Nat.le_trans (hFirst h) hb.1) (fun h => Nat.le_trans hb.2 (hLast h))
    (toNat_le_and_le hc) (toNat_le_and_le hd)

/-- A first byte is a character, begins one, or does neither. -/
theorem yields_first (b : UInt8) : Yields [b] (first b).1 (first b).2 := by
  have hNat {n : UInt8} : (b < n ↔ b.toNat < n.toNat) ∧ (b = n ↔ b.toNat = n.toNat) :=
    ⟨UInt8.lt_iff_toNat_lt, UInt8.toNat_inj.symm⟩
  have hBound := b.toNat_lt
  rw [first]
  simp only [hNat, UInt8.reduceToNat]
  split
  · next h => exact yields_char (encodeChar_single h)
  split
  · exact yields_none _ _ _
  split
  · refine yields_of_pending fun c hc => ?_
    exact encodeChar_double (by omega) (by omega) (toNat_le_and_le hc)
  split
  · next h =>
    have hContent : b.toNat % 0x10 = 0 := by omega
    rw [← hContent]
    exact yields_of_pending (pending_triple (by omega) (by omega) (by decide) (by decide)
      (fun _ => by decide) (by omega))
  split
  · next h =>
    have hContent : b.toNat % 0x10 = 0x0D := by omega
    rw [← hContent]
    exact yields_of_pending (pending_triple (by omega) (by omega) (by decide) (by decide)
      (by omega) (fun _ => by decide))
  split
  · exact yields_of_pending (pending_triple (by omega) (by omega) (by decide) (by decide)
      (by omega) (by omega))
  split
  · next h =>
    have hContent : b.toNat % 0x08 = 0 := by omega
    rw [← hContent]
    exact yields_of_pending (pending_quadruple (by omega) (by omega) (by decide) (by decide)
      (fun _ => by decide) (by omega))
  split
  · exact yields_of_pending (pending_quadruple (by omega) (by omega) (by decide) (by decide)
      (by omega) (by omega))
  split
  · next h =>
    have hContent : b.toNat % 0x08 = 0x04 := by omega
    rw [← hContent]
    exact yields_of_pending (pending_quadruple (by omega) (by omega) (by decide) (by decide)
      (by omega) (fun _ => by decide))
  · exact yields_none _ _ _

theorem yields_step {bytes : Bytes} {pos : Position} (h : Pending bytes pos) (b : UInt8) :
    Yields (bytes ++ [b]) (step pos b).1 (step pos b).2 := by
  cases pos with
  | between =>
      obtain rfl : bytes = [] := h
      exact yields_first b
  | inside low high owed content =>
      rw [step]
      split
      · next hRange =>
        cases owed with
        | zero => exact yields_char (h b hRange)
        | succ owed => exact yields_of_pending (h b hRange)
      · exact yields_none _ _ _

/-! ## The bytes of a text -/

/-- What a decoder comes to from a position on. -/
def unitsFrom (pos : Position) : Bytes → Units
  | [] => finish pos
  | b :: bytes => (step pos b).1 ++ unitsFrom (step pos b).2 bytes

theorem units_eq_map_of_mapM {us : Units} {cs : List Char} (h : us.mapM id = some cs) :
    us = cs.map some := by
  induction us generalizing cs with
  | nil => cases h; rfl
  | cons u us ih =>
      rw [List.mapM_cons] at h
      obtain ⟨c, hHere, hRest⟩ := Option.bind_eq_some_iff.1 h
      obtain ⟨cs', hLater, hEq⟩ := Option.bind_eq_some_iff.1 hRest
      obtain rfl := Option.some.inj hEq
      obtain rfl : u = some c := hHere
      rw [ih hLater, List.map_cons]

theorem feedAll_eq (d : Decoder) (bytes : Bytes) :
    (bytes.foldl Decoder.feed d).reversed.reverse ++ finish (bytes.foldl Decoder.feed d).position =
      d.reversed.reverse ++ unitsFrom d.position bytes := by
  induction bytes generalizing d with
  | nil => rfl
  | cons b bytes ih =>
      rw [List.foldl_cons, ih]
      simp [Decoder.feed, unitsFrom]

theorem units_eq (bytes : Bytes) : units bytes = unitsFrom .between bytes :=
  feedAll_eq ⟨[], .between⟩ bytes

theorem eq_flatMap_of_unitsFrom {bytes pending : Bytes} {pos : Position} {cs : List Char}
    (hPending : Pending pending pos) (h : unitsFrom pos bytes = cs.map some) :
    pending ++ bytes = cs.flatMap encodeChar := by
  induction bytes generalizing pending pos cs with
  | nil =>
      cases pos with
      | between =>
          obtain rfl : pending = [] := hPending
          obtain rfl := List.map_eq_nil_iff.1 h.symm
          rfl
      | inside => cases cs <;> cases h
  | cons b bytes ih =>
      obtain ⟨cs, cs', rfl, hHere, hLater⟩ := List.append_eq_map_iff.1 h
      obtain ⟨rest, hBytes, hRest⟩ := yields_step hPending b cs hHere.symm
      rw [List.flatMap_append, ← ih hRest hLater.symm, ← List.append_assoc, ← hBytes]
      simp

/-- **Bytes decode to a text exactly if they are its encoding.** -/
theorem decode?_eq_some_iff {bytes : Bytes} {s : String} :
    decode? bytes = some s ↔ bytes = encode s := by
  constructor
  · intro h
    obtain ⟨cs, hChars, rfl⟩ := Option.map_eq_some_iff.1 h
    have hUnits := units_eq_map_of_mapM hChars
    rw [units_eq] at hUnits
    rw [encode, String.toList_ofList]
    exact @eq_flatMap_of_unitsFrom bytes [] .between cs rfl hUnits
  · rintro rfl
    exact decode?_encode s

end CoverRun.Utf8

import CoverRun.Proofs.Text.Decoding
import Mathlib.Data.List.Induction

/-!
# Bytes below 0x80

A byte below 0x80 is a character of its own, wherever it stands: it cuts off a character that is
unfinished before it, and no such byte is part of a longer character. So decoding can be cut there
(`Utf8.units_append_ascii`), and a decoded character below 0x80 comes from its byte
(`Utf8.mem_of_mem_units`). Bytes around such a byte are UTF-8 exactly if those before it and those
after it are (`Utf8.isSome_decode?_append_ascii`).
-/

namespace CoverRun.Utf8

/-! ## Bytes of characters -/

theorem toNat_of_mem_bytes {first : Nat} (hLow : 0x80 ≤ first) (hHigh : first < 0x100)
    (others : List Nat) : ∀ b ∈ UInt8.ofNat first :: others.map continuation, 0x80 ≤ b.toNat := by
  intro b hb
  rcases List.mem_cons.1 hb with rfl | hb
  · rwa [toNat_byte hHigh]
  · obtain ⟨n, -, rfl⟩ := List.mem_map.1 hb
    rw [toNat_continuation]
    omega

theorem toNat_of_mem_encodeChar {c : Char} (h : 0x80 ≤ c.toNat) :
    ∀ b ∈ encodeChar c, 0x80 ≤ b.toNat := by
  have hValid : c.toNat < 0xD800 ∨ 0xDFFF < c.toNat ∧ c.toNat < 0x110000 := c.valid
  simp only [encodeChar]
  generalize c.toNat = n at *
  split
  · omega
  split
  · exact toNat_of_mem_bytes (by omega) (by omega) [n]
  split
  · exact toNat_of_mem_bytes (by omega) (by omega) [n / 0x40, n]
  · exact toNat_of_mem_bytes (by omega) (by omega) [n / 0x1000, n / 0x40, n]

theorem le_toNat_of_length {c : Char} (h : (encodeChar c).length ≠ 1) : 0x80 ≤ c.toNat := by
  by_contra hSmall
  rw [encodeChar, if_pos (Nat.lt_of_not_le hSmall)] at h
  exact h rfl

/-! ## Where the decoder can stand -/

/-- The decoder stands between characters, or inside one of which it has taken in some bytes. -/
def Held : Position → Prop
  | .between => True
  | .inside low high owed content => ∃ bytes, bytes ≠ [] ∧ Begun owed bytes low high content

/-- Bytes that go on with one of their range can be completed. -/
theorem Begun.exists_char {owed content : Nat} {bytes : Bytes} {low high b : UInt8}
    (h : Begun owed bytes low high content) (hb : low ≤ b ∧ b ≤ high) :
    ∃ c more, encodeChar c = bytes ++ b :: more := by
  induction owed generalizing bytes low high content b with
  | zero => exact ⟨_, [], h b hb⟩
  | succ owed ih =>
      obtain ⟨c, more, hChar⟩ := ih (h b hb) (⟨by decide, by decide⟩ : (0x80 : UInt8) ≤ 0x80 ∧ _)
      exact ⟨c, 0x80 :: more, by rw [hChar, List.append_assoc]; rfl⟩

theorem Begun.le_toNat {owed content : Nat} {bytes : Bytes} {low high b : UInt8}
    (h : Begun owed bytes low high content) (hne : bytes ≠ []) (hb : low ≤ b ∧ b ≤ high) :
    0x80 ≤ b.toNat := by
  obtain ⟨c, more, hChar⟩ := h.exists_char hb
  have hLength : (encodeChar c).length ≠ 1 := by
    have := List.length_pos_iff.2 hne
    rw [hChar, List.length_append, List.length_cons]
    omega
  exact toNat_of_mem_encodeChar (le_toNat_of_length hLength) b (by simp [hChar])

theorem first_cases (b : UInt8) :
    (b.toNat < 0x80 ∧ first b = ([some (Char.ofNat b.toNat)], .between)) ∨
      (0x80 ≤ b.toNat ∧ first b = ([none], .between)) ∨
      ∃ low high owed content, 0x80 ≤ b.toNat ∧ first b = ([], .inside low high owed content) ∧
        Begun owed [b] low high content := by
  by_cases hSmall : b < 0x80
  · exact Or.inl ⟨UInt8.lt_iff_toNat_lt.1 hSmall, by rw [first, if_pos hSmall]⟩
  · have hLarge : 0x80 ≤ b.toNat := UInt8.le_iff_toNat_le.1 (UInt8.not_lt.1 hSmall)
    have hShape : first b = ([none], .between) ∨
        ∃ low high owed content, first b = ([], .inside low high owed content) := by
      rw [first, if_neg hSmall]
      repeat' split
      all_goals first | exact Or.inl rfl | exact Or.inr ⟨_, _, _, _, rfl⟩
    refine Or.inr (hShape.imp (fun hNone => ⟨hLarge, hNone⟩) ?_)
    rintro ⟨low, high, owed, content, hInside⟩
    obtain ⟨rest, hBytes, hPending⟩ := yields_first b [] (by rw [hInside]; rfl)
    obtain rfl : [b] = rest := hBytes
    rw [hInside] at hPending
    exact ⟨low, high, owed, content, hLarge, hInside, hPending⟩

theorem held_first (b : UInt8) : Held (first b).2 := by
  rcases first_cases b with ⟨-, h⟩ | ⟨-, h⟩ | ⟨low, high, owed, content, -, h, hBegun⟩
  · rw [h]
    trivial
  · rw [h]
    trivial
  · rw [h]
    exact ⟨[b], List.cons_ne_nil b [], hBegun⟩

theorem Held.step {pos : Position} (h : Held pos) (b : UInt8) : Held (step pos b).2 := by
  cases pos with
  | between => exact held_first b
  | inside low high owed content =>
      obtain ⟨bytes, hne, hBegun⟩ := h
      rw [Utf8.step]
      split
      · next hRange =>
        cases owed with
        | zero => trivial
        | succ owed => exact ⟨bytes ++ [b], by simp, hBegun b hRange⟩
      · exact held_first b

/-! ## Steps -/

/-- A byte brings something out, or leaves the decoder inside a character. -/
theorem ne_nil_of_step {pos : Position} {b : UInt8} (h : (step pos b).2 = .between) :
    (step pos b).1 ≠ [] := by
  cases pos with
  | between =>
      rcases first_cases b with ⟨-, hFirst⟩ | ⟨-, hFirst⟩ | ⟨low, high, owed, content, -, hFirst, -⟩
      · rw [step, hFirst]
        exact List.cons_ne_nil _ _
      · rw [step, hFirst]
        exact List.cons_ne_nil _ _
      · rw [step, hFirst] at h
        cases h
  | inside low high owed content =>
      rw [step] at h ⊢
      split
      · next hRange =>
        rw [if_pos hRange] at h
        cases owed with
        | zero => exact List.cons_ne_nil _ _
        | succ owed => cases h
      · exact List.cons_ne_nil _ _

theorem Held.step_ascii {pos : Position} (h : Held pos) {b : UInt8} (hb : b.toNat < 0x80) :
    Utf8.step pos b = (finish pos ++ [some (Char.ofNat b.toNat)], .between) := by
  have hFirst : first b = ([some (Char.ofNat b.toNat)], .between) := by
    rw [first, if_pos (UInt8.lt_iff_toNat_lt.2 hb)]
  cases pos with
  | between => exact hFirst
  | inside low high owed content =>
      obtain ⟨bytes, hne, hBegun⟩ := h
      have hOut : ¬ (low ≤ b ∧ b ≤ high) := fun hRange =>
        Nat.not_lt.2 (hBegun.le_toNat hne hRange) hb
      rw [Utf8.step, if_neg hOut, hFirst]
      rfl

theorem toNat_ofNat_toNat (b : UInt8) : (Char.ofNat b.toNat).toNat = b.toNat := by
  have := b.toNat_lt
  exact toNat_ofNat (Or.inl (by omega))

theorem toNat_of_mem_first {b : UInt8} {c : Char} (h : some c ∈ (first b).1) :
    b.toNat = c.toNat := by
  rcases first_cases b with ⟨-, hFirst⟩ | ⟨-, hFirst⟩ | ⟨low, high, owed, content, -, hFirst, -⟩
  · rw [hFirst, List.mem_singleton, Option.some_inj] at h
    rw [h, toNat_ofNat_toNat]
  · simp [hFirst] at h
  · simp [hFirst] at h

/-- A character below 0x80 comes out for its byte alone. -/
theorem Held.toNat_of_mem_step {pos : Position} (h : Held pos) {b : UInt8} {c : Char}
    (hc : some c ∈ (Utf8.step pos b).1) (hSmall : c.toNat < 0x80) : b.toNat = c.toNat := by
  cases pos with
  | between => exact toNat_of_mem_first hc
  | inside low high owed content =>
      obtain ⟨bytes, hne, hBegun⟩ := h
      rw [Utf8.step] at hc
      split at hc
      · next hRange =>
        cases owed with
        | zero =>
            rw [List.mem_singleton, Option.some_inj] at hc
            have hChar : encodeChar c = bytes ++ [b] := hc ▸ hBegun b hRange
            have hLength : (encodeChar c).length ≠ 1 := by
              have := List.length_pos_iff.2 hne
              rw [hChar, List.length_append, List.length_singleton]
              omega
            exact absurd hSmall (Nat.not_lt.2 (le_toNat_of_length hLength))
        | succ owed => cases hc
      · exact toNat_of_mem_first ((List.mem_cons.1 hc).resolve_left (Option.some_ne_none c))

/-! ## Cutting a stream -/

/-- What is decoded of a stream up to a place does not depend on what comes after it. -/
theorem Held.exists_unitsFrom {pos : Position} (h : Held pos) (bytes : Bytes) :
    ∃ front pos', Held pos' ∧
      ∀ rest, unitsFrom pos (bytes ++ rest) = front ++ unitsFrom pos' rest := by
  induction bytes generalizing pos with
  | nil => exact ⟨[], pos, h, fun rest => rfl⟩
  | cons b bytes ih =>
      obtain ⟨front, pos', hHeld, hRest⟩ := ih (h.step b)
      refine ⟨(Utf8.step pos b).1 ++ front, pos', hHeld, fun rest => ?_⟩
      rw [List.cons_append, unitsFrom, hRest, List.append_assoc]

theorem exists_units_append (bytes : Bytes) : ∃ front pos, Held pos ∧
    ∀ rest, units (bytes ++ rest) = front ++ unitsFrom pos rest := by
  have hBetween : Held .between := trivial
  obtain ⟨front, pos, hHeld, hRest⟩ := hBetween.exists_unitsFrom bytes
  exact ⟨front, pos, hHeld, fun rest => by rw [units_eq, hRest]⟩

/-- **A stream can be cut at a byte below 0x80.** -/
theorem units_append_ascii (bytes : Bytes) {b : UInt8} (hb : b.toNat < 0x80) (rest : Bytes) :
    units (bytes ++ b :: rest) = units bytes ++ some (Char.ofNat b.toNat) :: units rest := by
  obtain ⟨front, pos, hHeld, hUnits⟩ := exists_units_append bytes
  have hBytes := hUnits []
  rw [List.append_nil, unitsFrom] at hBytes
  rw [hUnits, hBytes, unitsFrom, hHeld.step_ascii hb, units_eq rest]
  simp

/-- The last byte of a stream brings something out, and a character below 0x80 at its end is that of
the last byte. -/
theorem units_concat_spec (bytes : Bytes) (b : UInt8) : ∃ front back,
    units (bytes ++ [b]) = front ++ back ∧ back ≠ [] ∧ (∀ u ∈ front, u ∈ units bytes) ∧
      ∀ c, some c ∈ back → c.toNat < 0x80 → b.toNat = c.toNat := by
  obtain ⟨front, pos, hHeld, hUnits⟩ := exists_units_append bytes
  refine ⟨front, unitsFrom pos [b], hUnits [b], ?_, fun u hu => ?_, fun c hc hSmall => ?_⟩
  · rw [unitsFrom, unitsFrom]
    intro hNil
    obtain ⟨hStep, hFinish⟩ := List.append_eq_nil_iff.1 hNil
    cases hNext : (step pos b).2 with
    | between => exact ne_nil_of_step hNext hStep
    | inside => simp [hNext, finish] at hFinish
  · have hBytes := hUnits []
    rw [List.append_nil] at hBytes
    rw [hBytes]
    exact List.mem_append_left _ hu
  · rw [unitsFrom, unitsFrom, List.mem_append] at hc
    rcases hc with hc | hc
    · exact hHeld.toNat_of_mem_step hc hSmall
    · cases h : (step pos b).2 <;> simp [h, finish] at hc

theorem mem_of_mem_units {bytes : Bytes} {c : Char} (h : some c ∈ units bytes)
    (hSmall : c.toNat < 0x80) : ∃ b ∈ bytes, b.toNat = c.toNat := by
  induction bytes using List.reverseRecOn with
  | nil => cases h
  | append_singleton bytes b ih =>
      obtain ⟨front, back, hUnits, -, hFront, hBack⟩ := units_concat_spec bytes b
      rw [hUnits, List.mem_append] at h
      rcases h with h | h
      · obtain ⟨b', hb', hEq⟩ := ih (hFront _ h)
        exact ⟨b', List.mem_append_left _ hb', hEq⟩
      · exact ⟨b, by simp, hBack c h hSmall⟩

/-! ## Texts -/

theorem decodeLenient_of_decode? {bytes : Bytes} {s : String} (h : decode? bytes = some s) :
    decodeLenient bytes = s := by
  rw [decode?_eq_some_iff.1 h, encode, decodeLenient_encode, String.ofList_toList]

theorem decode?_eq (bytes : Bytes) :
    decode? bytes = if (decode? bytes).isSome then some (decodeLenient bytes) else none := by
  cases h : decode? bytes with
  | none => rfl
  | some s => rw [decodeLenient_of_decode? h, Option.isSome_some, if_pos rfl]

theorem isSome_decode?_iff {bytes : Bytes} :
    (decode? bytes).isSome = true ↔ none ∉ units bytes := by
  constructor
  · intro h
    obtain ⟨s, hs⟩ := Option.isSome_iff_exists.1 h
    rw [decode?_eq_some_iff.1 hs, encode, units_encode]
    simp
  · intro h
    obtain ⟨cs, hUnits⟩ : ∃ cs : List Char, units bytes = cs.map some := by
      refine ⟨(units bytes).filterMap id, ?_⟩
      rw [List.map_filterMap_some_eq_filter_map_isSome, List.map_id, List.filter_eq_self.2]
      intro u hu
      cases u with
      | none => exact absurd hu h
      | some c => rfl
    have hText : units bytes = Units.ofText (String.ofList cs) := by
      rw [hUnits, Units.ofText, String.toList_ofList]
    rw [decode?, hText, Units.text?_ofText, Option.isSome_some]

section

variable (as bs : Bytes) {b : UInt8} (hb : b.toNat < 0x80)

include hb

theorem isSome_decode?_append_ascii :
    (decode? (as ++ b :: bs)).isSome = ((decode? as).isSome && (decode? bs).isSome) := by
  rw [Bool.eq_iff_iff, Bool.and_eq_true]
  simp [isSome_decode?_iff, units_append_ascii as hb bs]

theorem decodeLenient_append_ascii :
    (decodeLenient (as ++ b :: bs)).toList =
      (decodeLenient as).toList ++ Char.ofNat b.toNat :: (decodeLenient bs).toList := by
  simp [decodeLenient, units_append_ascii as hb bs]

end

theorem mem_of_mem_decodeLenient {bytes : Bytes} {c : Char} (h : c ∈ (decodeLenient bytes).toList)
    (hSmall : c.toNat < 0x80) : UInt8.ofNat c.toNat ∈ bytes := by
  rw [decodeLenient, String.toList_ofList, List.mem_map] at h
  obtain ⟨u, hu, rfl⟩ := h
  cases u with
  | none => exact absurd hSmall (by decide)
  | some c =>
      obtain ⟨b, hb, hEq⟩ := mem_of_mem_units hu hSmall
      rw [Option.getD_some, ← hEq]
      simpa using hb

theorem eq_of_mem_encodeChar {c d : Char} (h : UInt8.ofNat c.toNat ∈ encodeChar d)
    (hSmall : c.toNat < 0x80) : d = c := by
  have hc : (UInt8.ofNat c.toNat).toNat = c.toNat := toNat_byte (by omega)
  by_cases hLarge : 0x80 ≤ d.toNat
  · have := toNat_of_mem_encodeChar hLarge _ h
    omega
  · rw [encodeChar, if_pos (Nat.lt_of_not_le hLarge), List.mem_singleton] at h
    have hd : (UInt8.ofNat d.toNat).toNat = d.toNat := toNat_byte (by omega)
    rw [h, hd] at hc
    exact Char.toNat_inj.1 hc

theorem mem_of_mem_encode {s : String} {c : Char} (h : UInt8.ofNat c.toNat ∈ encode s)
    (hSmall : c.toNat < 0x80) : c ∈ s.toList := by
  obtain ⟨d, hd, hByte⟩ := List.mem_flatMap.1 h
  exact eq_of_mem_encodeChar hByte hSmall ▸ hd

end CoverRun.Utf8

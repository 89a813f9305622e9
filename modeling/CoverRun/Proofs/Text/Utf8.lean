import CoverRun.Proofs.Outcome
import CoverRun.Text.Utf8

/-!
# Decoding what was encoded

The decoder ends between characters after the bytes of a character and has taken in just that one
(`feed_encodeChar`). So encoded text decodes to itself.
-/

namespace CoverRun

theorem Units.text?_ofText (s : String) : (Units.ofText s).text? = some s := by
  have hChars : (s.toList.map some).mapM id = some s.toList :=
    @Outcome.mapM_map_eq_some _ _ some id s.toList (fun _ _ => rfl)
  rw [Units.text?, Units.ofText, hChars, Option.map_some, String.ofList_toList]

theorem Units.ofText_inj {s s' : String} : Units.ofText s = Units.ofText s' ↔ s = s' := by
  constructor
  · intro h
    have hText := congrArg Units.text? h
    rwa [text?_ofText, text?_ofText, Option.some_inj] at hText
  · exact congrArg Units.ofText

namespace Utf8

/-! ## Bytes -/

theorem toNat_byte {n : Nat} (h : n < 0x100) : (UInt8.ofNat n).toNat = n := by
  rw [UInt8.toNat_ofNat']
  exact Nat.mod_eq_of_lt h

theorem toNat_continuation (n : Nat) : (continuation n).toNat = 0x80 + n % 0x40 :=
  toNat_byte (by omega)

theorem first_single : ∀ n < 0x80, first (UInt8.ofNat n) = ([some (Char.ofNat n)], .between) := by
  decide +kernel

theorem first_double : ∀ n < 0x20, 2 ≤ n →
    first (UInt8.ofNat (0xC0 + n)) = ([], .inside 0x80 0xBF 0 n) := by
  decide +kernel

theorem first_triple : ∀ n < 0x10, first (UInt8.ofNat (0xE0 + n)) =
    ([], .inside (if n = 0 then 0xA0 else 0x80) (if n = 0x0D then 0x9F else 0xBF) 1 n) := by
  decide +kernel

theorem first_quadruple : ∀ n < 5, first (UInt8.ofNat (0xF0 + n)) =
    ([], .inside (if n = 0 then 0x90 else 0x80) (if n = 4 then 0x8F else 0xBF) 2 n) := by
  decide +kernel

/-! ## Characters -/

theorem encodeChar_ne_nil (c : Char) : encodeChar c ≠ [] := by
  simp only [encodeChar]
  repeat' split
  all_goals exact List.cons_ne_nil _ _

theorem feed_between (us : Units) (b : UInt8) :
    Decoder.feed ⟨us, .between⟩ b = ⟨(first b).1.reverse ++ us, (first b).2⟩ := rfl

theorem feed_inside {us : Units} {low high : UInt8} {content n : Nat}
    (hLow : low.toNat ≤ 0x80 + n % 0x40) (hHigh : 0x80 + n % 0x40 ≤ high.toNat) (owed : Nat) :
    Decoder.feed ⟨us, .inside low high owed content⟩ (continuation n) =
      match owed with
      | 0 => ⟨some (Char.ofNat (content * 0x40 + n % 0x40)) :: us, .between⟩
      | owed + 1 => ⟨us, .inside 0x80 0xBF owed (content * 0x40 + n % 0x40)⟩ := by
  have hRange : low ≤ continuation n ∧ continuation n ≤ high := by
    rw [UInt8.le_iff_toNat_le, UInt8.le_iff_toNat_le, toNat_continuation]
    exact ⟨hLow, hHigh⟩
  have hContent : (continuation n).toNat % 0x40 = n % 0x40 := by
    rw [toNat_continuation]
    omega
  cases owed <;> simp [Decoder.feed, step, hRange, hContent]

theorem feed_owed_one (us : Units) (content n : Nat) :
    Decoder.feed ⟨us, .inside 0x80 0xBF 0 content⟩ (continuation n) =
      ⟨some (Char.ofNat (content * 0x40 + n % 0x40)) :: us, .between⟩ :=
  feed_inside (Nat.le_add_right ..) (by change _ ≤ 0xBF; omega) 0

theorem feed_double (us : Units) {n : Nat} (hLow : 0x80 ≤ n) (hHigh : n < 0x800) :
    [UInt8.ofNat (0xC0 + n / 0x40), continuation n].foldl Decoder.feed ⟨us, .between⟩ =
      ⟨some (Char.ofNat n) :: us, .between⟩ := by
  simp only [List.foldl_cons, List.foldl_nil]
  rw [feed_between, first_double (n / 0x40) (by omega) (by omega), List.reverse_nil,
    List.nil_append, feed_owed_one, Nat.div_add_mod']

/-- The narrowed ranges are those of numbers from 0x800 on that are no surrogates. -/
theorem feed_triple (us : Units) {n : Nat} (hLow : 0x800 ≤ n) (hHigh : n < 0x10000)
    (hScalar : n < 0xD800 ∨ 0xDFFF < n) :
    [UInt8.ofNat (0xE0 + n / 0x1000), continuation (n / 0x40), continuation n].foldl Decoder.feed
      ⟨us, .between⟩ = ⟨some (Char.ofNat n) :: us, .between⟩ := by
  have hFrom : (if n / 0x1000 = 0 then 0xA0 else 0x80 : UInt8).toNat ≤ 0x80 + n / 0x40 % 0x40 := by
    split <;> simp only [UInt8.reduceToNat] <;> omega
  have hTo : 0x80 + n / 0x40 % 0x40 ≤
      (if n / 0x1000 = 0x0D then 0x9F else 0xBF : UInt8).toNat := by
    split <;> simp only [UInt8.reduceToNat] <;> omega
  have hNumber : (n / 0x1000 * 0x40 + n / 0x40 % 0x40) * 0x40 + n % 0x40 = n := by omega
  simp only [List.foldl_cons, List.foldl_nil]
  rw [feed_between, first_triple (n / 0x1000) (by omega), List.reverse_nil, List.nil_append,
    feed_inside hFrom hTo 1]
  simp only
  rw [feed_owed_one, hNumber]

/-- The narrowed ranges are those of numbers from 0x10000 to 0x10FFFF. -/
theorem feed_quadruple (us : Units) {n : Nat} (hLow : 0x10000 ≤ n) (hHigh : n < 0x110000) :
    [UInt8.ofNat (0xF0 + n / 0x40000), continuation (n / 0x1000), continuation (n / 0x40),
      continuation n].foldl Decoder.feed ⟨us, .between⟩ =
        ⟨some (Char.ofNat n) :: us, .between⟩ := by
  have hFrom : (if n / 0x40000 = 0 then 0x90 else 0x80 : UInt8).toNat ≤
      0x80 + n / 0x1000 % 0x40 := by
    split <;> simp only [UInt8.reduceToNat] <;> omega
  have hTo : 0x80 + n / 0x1000 % 0x40 ≤
      (if n / 0x40000 = 4 then 0x8F else 0xBF : UInt8).toNat := by
    split <;> simp only [UInt8.reduceToNat] <;> omega
  have hMiddle : (0x80 : UInt8).toNat ≤ 0x80 + n / 0x40 % 0x40 ∧
      0x80 + n / 0x40 % 0x40 ≤ (0xBF : UInt8).toNat := by
    simp only [UInt8.reduceToNat]
    omega
  have hNumber : ((n / 0x40000 * 0x40 + n / 0x1000 % 0x40) * 0x40 + n / 0x40 % 0x40) * 0x40 +
      n % 0x40 = n := by omega
  simp only [List.foldl_cons, List.foldl_nil]
  rw [feed_between, first_quadruple (n / 0x40000) (by omega), List.reverse_nil, List.nil_append,
    feed_inside hFrom hTo 2]
  simp only
  rw [feed_inside hMiddle.1 hMiddle.2 1]
  simp only
  rw [feed_owed_one, hNumber]

theorem feed_encodeChar (us : Units) (c : Char) :
    (encodeChar c).foldl Decoder.feed ⟨us, .between⟩ = ⟨some c :: us, .between⟩ := by
  have hValid : c.toNat < 0xD800 ∨ 0xDFFF < c.toNat ∧ c.toNat < 0x110000 := c.valid
  have hSelf := Char.ofNat_toNat c
  simp only [encodeChar]
  generalize c.toNat = n at *
  subst hSelf
  split
  · next h1 => simp [feed_between, first_single n h1]
  split
  · next h1 h2 => exact feed_double us (by omega) h2
  split
  · next h1 h2 h3 => exact feed_triple us (by omega) h3 (by omega)
  · next h1 h2 h3 => exact feed_quadruple us (by omega) (by omega)

/-! ## Texts -/

theorem feed_encode (us : Units) (cs : List Char) :
    (cs.flatMap encodeChar).foldl Decoder.feed ⟨us, .between⟩ =
      ⟨(cs.map some).reverse ++ us, .between⟩ := by
  induction cs generalizing us with
  | nil => rfl
  | cons c cs ih =>
      rw [List.flatMap_cons, List.foldl_append, feed_encodeChar, ih]
      simp

theorem units_encode (cs : List Char) : units (cs.flatMap encodeChar) = cs.map some := by
  simp [units, feed_encode, finish]

theorem decode?_encode (s : String) : decode? (encode s) = some s := by
  rw [decode?, encode, units_encode]
  exact Units.text?_ofText s

/-- **Encoded text decodes to itself.** -/
theorem decodeLenient_encode (cs : List Char) :
    decodeLenient (cs.flatMap encodeChar) = String.ofList cs := by
  rw [decodeLenient, units_encode, List.map_map]
  have hSelf : (fun u : Option Char => u.getD '\uFFFD') ∘ some = id := rfl
  rw [hSelf, List.map_id]

end Utf8

end CoverRun

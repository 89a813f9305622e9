import CoverRun.Proofs.Json.Token

/-!
# Numbers as they are written

Each number is written as a number text whose parts are proper: whole numbers by their decimal
digits, doubles by the shortest digits that read back, with a point, an exponent or both
(`Number.written_chars`, `Number.isProper_written`).
-/

namespace CoverRun.Json

/-! ## Decimal digits -/

theorem isDigitUnit_of_isDigit {c : Char} (h : c.isDigit = true) : isDigitUnit (some c) = true := by
  simpa [isDigitUnit, Char.isDigit, Char.le_def] using h

theorem areDigits_toDigits (n : Nat) : AreDigits (Nat.toDigits 10 n) :=
  ⟨Nat.toDigits_ne_nil, fun _ hc => isDigitUnit_of_isDigit
    (Nat.isDigit_of_mem_toDigits (by decide) (by decide) hc)⟩

theorem head_toDigits {n : Nat} (h : 0 < n) : (Nat.toDigits 10 n).head? ≠ some '0' := by
  induction n using Nat.strongRecOn with
  | ind n ih =>
      by_cases hSmall : n < 10
      · have hDigit : ∀ m < 10, 0 < m → [m.digitChar].head? ≠ some '0' := by decide
        rw [Nat.toDigits_of_lt_base hSmall]
        exact hDigit n hSmall h
      · have hRest := ih (n / 10) (by omega) (by omega)
        obtain ⟨d, ds, hCons⟩ := List.exists_cons_of_ne_nil
          (Nat.toDigits_ne_nil (n := n / 10) (b := 10))
        rw [Nat.toDigits_of_base_le (by decide) (by omega), hCons]
        rwa [hCons] at hRest

theorem noZero_of_head {digits : List Char} (h : digits.head? ≠ some '0') :
    ∀ d ds, digits ≠ '0' :: d :: ds := by
  rintro d ds rfl
  exact h rfl

theorem noZero_toDigits (n : Nat) : ∀ d ds, Nat.toDigits 10 n ≠ '0' :: d :: ds := by
  by_cases h : 0 < n
  · exact noZero_of_head (head_toDigits h)
  · obtain rfl : n = 0 := by omega
    rintro d ds hEq
    cases hEq

theorem digitsValue_toDigits (n : Nat) : digitsValue (Nat.toDigits 10 n) = n := by
  have h := Nat.ofDigitChars_ten_toDigits (n := n)
  rw [Nat.ofDigitChars_eq_foldl] at h
  simpa only [digitsValue, digitValue, Nat.mul_comm] using h

/-! ## Written numbers -/

/-- Digits with a power of ten as a number text. -/
def decimalWritten (negative : Bool) (digits : List Char) (power : Int) : NumberText :=
  let point : Int := digits.length + power
  if 0 ≤ power ∧ point ≤ 16 then
    ⟨negative, digits ++ List.replicate power.toNat '0', some ['0'], none⟩
  else if 0 < point ∧ point ≤ 16 then
    ⟨negative, digits.take point.toNat, some (digits.drop point.toNat), none⟩
  else if -5 < point ∧ point ≤ 0 then
    ⟨negative, ['0'], some (List.replicate (-point).toNat '0' ++ digits), none⟩
  else
    let e := point - 1
    ⟨negative, digits.take 1, if digits.length ≤ 1 then none else some (digits.drop 1),
      some (decide (e < 0), Nat.toDigits 10 e.natAbs)⟩

theorem decimalWritten_chars (negative : Bool) (digits : List Char) (power : Int) :
    (decimalWritten negative digits power).chars =
      (if negative then ['-'] else []) ++ (decimalText digits power).toList := by
  simp only [decimalWritten, decimalText, String.toList_ofList]
  split
  · simp [NumberText.chars, NumberText.fractionChars, NumberText.exponentChars]
  split
  · simp [NumberText.chars, NumberText.fractionChars, NumberText.exponentChars]
  split
  · simp [NumberText.chars, NumberText.fractionChars, NumberText.exponentChars]
  · rcases digits with _ | ⟨d, _ | ⟨d', ds⟩⟩ <;>
      simp [NumberText.chars, NumberText.fractionChars, NumberText.exponentChars]

theorem areDigits_zero : AreDigits ['0'] :=
  ⟨List.cons_ne_nil _ _, fun _ hc => List.mem_singleton.1 hc ▸ rfl⟩

/-- Characters that are zeros or come from digits are digits. -/
theorem AreDigits.of_mem {digits cs : List Char} (h : AreDigits digits) (hne : cs ≠ [])
    (hMem : ∀ c ∈ cs, c = '0' ∨ c ∈ digits) : AreDigits cs := by
  refine ⟨hne, fun c hc => ?_⟩
  rcases hMem c hc with rfl | hc
  · decide
  · exact h.2 c hc

theorem isProper_decimalWritten (negative : Bool) {digits : List Char} (power : Int)
    (h : AreDigits digits) (hHead : digits.head? ≠ some '0') :
    (decimalWritten negative digits power).IsProper := by
  obtain ⟨d, ds, rfl⟩ := List.exists_cons_of_ne_nil h.1
  have hTake {k : Nat} (hk : 0 < k) :
      (d :: ds).take k ≠ [] ∧ ((d :: ds).take k).head? ≠ some '0' := by
    obtain ⟨k, rfl⟩ : ∃ m, k = m + 1 := ⟨k - 1, by omega⟩
    exact ⟨by simp, hHead⟩
  simp only [decimalWritten]
  split
  · refine ⟨h.of_mem (by simp) fun c hc => ?_, noZero_of_head hHead, ?_, by rintro _ ⟨⟩⟩
    · rcases List.mem_append.1 hc with hc | hc
      · exact Or.inr hc
      · exact Or.inl (List.eq_of_mem_replicate hc)
    · rintro _ ⟨⟩
      exact h.of_mem (by simp) (by simp)
  split
  · next hNot hPoint =>
    have hInside : ((d :: ds).length + power).toNat < (d :: ds).length := by omega
    obtain ⟨hSome, hFirst⟩ := hTake (k := ((d :: ds).length + power).toNat) (by omega)
    refine ⟨h.of_mem hSome fun c hc => Or.inr (List.mem_of_mem_take hc), noZero_of_head hFirst, ?_,
      by rintro _ ⟨⟩⟩
    rintro _ ⟨⟩
    refine h.of_mem ?_ fun c hc => Or.inr (List.mem_of_mem_drop hc)
    rw [ne_eq, List.drop_eq_nil_iff]
    omega
  split
  · refine ⟨h.of_mem (by simp) (by simp), by rintro _ _ ⟨⟩, ?_, by rintro _ ⟨⟩⟩
    rintro _ ⟨⟩
    refine h.of_mem (by simp) fun c hc => ?_
    rcases List.mem_append.1 hc with hc | hc
    · exact Or.inl (List.eq_of_mem_replicate hc)
    · exact Or.inr hc
  · refine ⟨h.of_mem (by simp) fun c hc => Or.inr (List.mem_of_mem_take hc),
      noZero_of_head (hTake Nat.one_pos).2, ?_, ?_⟩
    · intro fraction hFraction
      split at hFraction
      · cases hFraction
      · next hLong =>
        obtain rfl := Option.some.inj hFraction
        refine h.of_mem ?_ fun c hc => Or.inr (List.mem_of_mem_drop hc)
        rw [ne_eq, List.drop_eq_nil_iff]
        omega
    · rintro _ ⟨⟩
      exact areDigits_toDigits _

/-- The number text of a finite double. -/
def realWritten (x : Float) : NumberText :=
  let bits := x.toBits.toNat
  let negative := decide (signLimit ≤ bits)
  match Shortest.ofBits (bits % signLimit) with
  | (0, _) => ⟨negative, ['0'], some ['0'], none⟩
  | (n + 1, power) => decimalWritten negative (Nat.toDigits 10 (n + 1)) power

/-- The number text of a number. -/
def Number.written : Number → NumberText
  | .natural n => ⟨false, Nat.toDigits 10 n.toNat, none, none⟩
  | .negative n => ⟨true, Nat.toDigits 10 (n.val + 1), none, none⟩
  | .real x => realWritten x

theorem realWritten_chars (x : Float) : (realWritten x).chars = (realText x).toList := by
  simp only [realWritten, realText]
  obtain ⟨n, power⟩ := Shortest.ofBits (x.toBits.toNat % signLimit)
  cases n with
  | zero =>
      by_cases hSign : signLimit ≤ x.toBits.toNat <;>
        simp [hSign, NumberText.chars, NumberText.fractionChars, NumberText.exponentChars]
  | succ n =>
      simp only [decimalWritten_chars]
      by_cases hSign : signLimit ≤ x.toBits.toNat <;> simp [hSign]

/-- **A number is written as the characters of its number text.** -/
theorem Number.written_chars (n : Number) : n.written.chars = n.text.toList := by
  cases n with
  | natural n => simp [written, text, naturalText, NumberText.chars, NumberText.fractionChars,
      NumberText.exponentChars]
  | negative n => simp [written, text, naturalText, NumberText.chars, NumberText.fractionChars,
      NumberText.exponentChars]
  | real x => exact realWritten_chars x

theorem isProper_toDigits (negative : Bool) (n : Nat) :
    NumberText.IsProper ⟨negative, Nat.toDigits 10 n, none, none⟩ :=
  ⟨areDigits_toDigits n, noZero_toDigits n, by rintro _ ⟨⟩, by rintro _ ⟨⟩⟩

theorem Number.isProper_written (n : Number) : n.written.IsProper := by
  cases n with
  | natural n => exact isProper_toDigits false n.toNat
  | negative n => exact isProper_toDigits true (n.val + 1)
  | real x =>
      simp only [written, realWritten]
      split
      · exact ⟨areDigits_zero, by rintro _ _ ⟨⟩, by rintro _ ⟨⟩; exact areDigits_zero,
          by rintro _ ⟨⟩⟩
      · exact isProper_decimalWritten _ _ (areDigits_toDigits _) (head_toDigits (Nat.succ_pos _))

end CoverRun.Json

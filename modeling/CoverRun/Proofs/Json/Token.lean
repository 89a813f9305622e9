import CoverRun.Json.Value
import Mathlib.Data.List.TakeWhile

/-!
# Spelling of strings and numbers

* `SpellsString us s`: the units `us` spell the string `s`, up to and with its closing quote.
* `SpellsNumber us t`: the units `us` spell the number text `t`.

The reader of strings takes in what spells a string and nothing else (`string?_eq_some_iff`). So
does the reader of numbers, if what follows cannot belong to the number (`SpellsNumber.number?`,
`spellsNumber_of_number?`). Every string and every number text is spelled by what is written for it.
-/

namespace CoverRun.Json

/-- The units of characters. -/
abbrev unitsOf (cs : List Char) : Units := cs.map some

/-! ## Strings -/

/-- The units spell the pieces of a string, up to and with its closing quote. -/
inductive SpellsPieces : Units → List StringPiece → Prop
  | close : SpellsPieces [some '"'] []
  | code {a b c d : Char} {n : Nat} {us : Units} {ps : List StringPiece} :
      hexCode? a b c d = some n → SpellsPieces us ps →
      SpellsPieces (some '\\' :: some 'u' :: some a :: some b :: some c :: some d :: us)
        (.code n :: ps)
  | escape {e c : Char} {us : Units} {ps : List StringPiece} :
      escaped? e = some c → SpellsPieces us ps →
      SpellsPieces (some '\\' :: some e :: us) (.plain (some c) :: ps)
  | plain {c : Char} {us : Units} {ps : List StringPiece} :
      c ≠ '"' → c ≠ '\\' → 0x20 ≤ c.toNat → SpellsPieces us ps →
      SpellsPieces (some c :: us) (.plain (some c) :: ps)
  | broken {us : Units} {ps : List StringPiece} :
      SpellsPieces us ps → SpellsPieces (none :: us) (.plain none :: ps)

/-- The units spell a string, up to and with its closing quote. -/
def SpellsString (us s : Units) : Prop := ∃ ps, SpellsPieces us ps ∧ combine ps = s

theorem SpellsPieces.stringPieces {us : Units} {ps : List StringPiece} (h : SpellsPieces us ps)
    (done : List StringPiece) (rest : Units) :
    stringPieces done (us ++ rest) = some (done.reverse ++ ps, rest) := by
  induction h generalizing done with
  | close => simp [Json.stringPieces]
  | @code a b c d n us ps hCode _ ih =>
      simp only [List.cons_append]
      rw [Json.stringPieces, hCode]
      change Json.stringPieces (.code n :: done) (us ++ rest) = _
      rw [ih]
      simp
  | @escape e c us ps hEscape _ ih =>
      have hNoCode : e ≠ 'u' := by
        rintro rfl
        cases hEscape
      simp only [List.cons_append]
      rw [Json.stringPieces, hEscape]
      · change Json.stringPieces (.plain (some c) :: done) (us ++ rest) = _
        rw [ih]
        simp
      · simp [hNoCode]
  | plain hQuote hBackslash hControl _ ih =>
      simp only [List.cons_append]
      rw [Json.stringPieces, if_neg (Nat.not_lt.2 hControl), ih]
      · simp
      · simpa using hQuote
      all_goals simp [hBackslash]
  | broken _ ih =>
      simp only [List.cons_append]
      rw [Json.stringPieces, ih]
      simp

theorem spellsPieces_of_stringPieces {done : List StringPiece} {us : Units}
    {ps : List StringPiece} {rest : Units} (h : stringPieces done us = some (ps, rest)) :
    ∃ pre qs, us = pre ++ rest ∧ SpellsPieces pre qs ∧ ps = done.reverse ++ qs := by
  fun_induction stringPieces done us with
  | case1 done rest' =>
      obtain ⟨rfl, rfl⟩ := Prod.mk.inj (Option.some.inj h)
      exact ⟨[some '"'], [], rfl, .close, by simp⟩
  | case2 done a b c d rest' n hCode ih =>
      obtain ⟨pre, qs, rfl, hPre, rfl⟩ := ih h
      exact ⟨_, .code n :: qs, rfl, .code hCode hPre, by simp⟩
  | case4 done e rest' hNoCode c hEscape ih =>
      obtain ⟨pre, qs, rfl, hPre, rfl⟩ := ih h
      exact ⟨_, .plain (some c) :: qs, rfl, .escape hEscape hPre, by simp⟩
  | case8 done c rest' hQuote _ _ hBackslash hControl ih =>
      obtain ⟨pre, qs, rfl, hPre, rfl⟩ := ih h
      exact ⟨_, .plain (some c) :: qs, rfl, .plain hQuote hBackslash (Nat.not_lt.1 hControl) hPre,
        by simp⟩
  | case9 done rest' ih =>
      obtain ⟨pre, qs, rfl, hPre, rfl⟩ := ih h
      exact ⟨_, .plain none :: qs, rfl, .broken hPre, by simp⟩
  | _ => cases h

/-- **The reader of strings takes in what spells a string.** -/
theorem string?_eq_some_iff {us s rest : Units} :
    string? us = some (s, rest) ↔ ∃ pre, us = pre ++ rest ∧ SpellsString pre s := by
  rw [string?, Option.map_eq_some_iff]
  constructor
  · rintro ⟨⟨ps, rest'⟩, hPieces, hEq⟩
    obtain ⟨rfl, rfl⟩ := Prod.mk.inj hEq
    obtain ⟨pre, qs, rfl, hPre, rfl⟩ := spellsPieces_of_stringPieces hPieces
    exact ⟨pre, rfl, _, hPre, rfl⟩
  · rintro ⟨pre, rfl, ps, hPre, rfl⟩
    exact ⟨(ps, rest), hPre.stringPieces [] rest, rfl⟩

/-! ## Written strings -/

/-- The piece as which an escaped character is read. -/
def pieceOf (c : Char) : StringPiece :=
  if c.toNat < 0x20 ∧ c ∉ ['\x08', '\t', '\n', '\x0c', '\r'] then .code c.toNat
  else .plain (some c)

/-- A character is written as an escape, as its code or as itself. -/
theorem escapeChar_cases (c : Char) :
    (∃ e, escaped? e = some c ∧ 0x20 ≤ e.toNat ∧ escapeChar c = ['\\', e] ∧
      pieceOf c = .plain (some c)) ∨
    (c.toNat < 0x20 ∧
      escapeChar c = ['\\', 'u', '0', '0', hexDigit (c.toNat / 16), hexDigit c.toNat] ∧
      pieceOf c = .code c.toNat) ∨
    (c ≠ '"' ∧ c ≠ '\\' ∧ 0x20 ≤ c.toNat ∧ escapeChar c = [c] ∧ pieceOf c = .plain (some c)) := by
  by_cases hShort : c ∈ ['"', '\\', '\x08', '\t', '\n', '\x0c', '\r']
  · left
    simp only [List.mem_cons, List.not_mem_nil, or_false] at hShort
    rcases hShort with rfl | rfl | rfl | rfl | rfl | rfl | rfl <;>
      exact ⟨_, rfl, by decide, rfl, rfl⟩
  · right
    simp only [List.mem_cons, List.not_mem_nil, or_false, not_or] at hShort
    obtain ⟨hQuote, hBackslash, hb, ht, hn, hf, hr⟩ := hShort
    simp only [escapeChar, pieceOf, hQuote, hBackslash, hb, ht, hn, hf, hr, if_false]
    by_cases hControl : c.toNat < 0x20
    · left
      simp [hControl, hb, ht, hn, hf, hr]
    · right
      simp [hControl, hQuote, hBackslash]
      omega

theorem hexCode?_control :
    ∀ n < 0x20, hexCode? '0' '0' (hexDigit (n / 16)) (hexDigit n) = some n := by
  decide

theorem SpellsPieces.escapeChar {us : Units} {ps : List StringPiece} (h : SpellsPieces us ps)
    (c : Char) : SpellsPieces (unitsOf (escapeChar c) ++ us) (pieceOf c :: ps) := by
  rcases escapeChar_cases c with ⟨e, hEscape, -, hChars, hPiece⟩ | ⟨hControl, hChars, hPiece⟩ |
    ⟨hQuote, hBackslash, hControl, hChars, hPiece⟩ <;> rw [hChars, hPiece]
  · exact .escape hEscape h
  · exact .code (hexCode?_control c.toNat hControl) h
  · exact .plain hQuote hBackslash hControl h

theorem spellsPieces_written (cs : List Char) :
    SpellsPieces (unitsOf (cs.flatMap escapeChar) ++ [some '"']) (cs.map pieceOf) := by
  induction cs with
  | nil => exact .close
  | cons c cs ih =>
      rw [List.flatMap_cons, unitsOf, List.map_append, List.append_assoc]
      exact ih.escapeChar c

/-- A code that is no half of a surrogate pair is a character, whatever comes next. -/
theorem combine_code {n : Nat} (h : n < 0xD800) (ps : List StringPiece) :
    combine (.code n :: ps) = some (Char.ofNat n) :: combine ps := by
  have hLead : isLead n = false := by
    simp only [isLead, Bool.and_eq_false_imp, decide_eq_true_eq, decide_eq_false_iff_not]
    omega
  have hTrail : isTrail n = false := by
    simp only [isTrail, Bool.and_eq_false_imp, decide_eq_true_eq, decide_eq_false_iff_not]
    omega
  cases ps with
  | nil => simp [combine, hLead, hTrail]
  | cons p ps => cases p <;> simp [combine, hLead, hTrail]

theorem combine_pieceOf (cs : List Char) : combine (cs.map pieceOf) = unitsOf cs := by
  induction cs with
  | nil => rfl
  | cons c cs ih =>
      rw [List.map_cons, pieceOf]
      split
      · next h =>
        rw [combine_code (by omega), Char.ofNat_toNat, ih]
        rfl
      · rw [combine, ih]
        rfl

/-- **A written string spells itself.** -/
theorem spellsString_written (s : String) :
    SpellsString (unitsOf (s.toList.flatMap escapeChar) ++ [some '"']) (Units.ofText s) :=
  ⟨_, spellsPieces_written s.toList, combine_pieceOf s.toList⟩

/-! ## Numbers -/

/-- Some digits, and nothing else. -/
def AreDigits (ds : List Char) : Prop := ds ≠ [] ∧ ∀ c ∈ ds, isDigitUnit (some c) = true

/-- No unit comes next that could belong to a number. -/
def EndsNumber (us : Units) : Prop :=
  ∀ u ∈ us.head?, isDigitUnit u = false ∧ u ≠ some '.' ∧ u ≠ some 'e' ∧ u ≠ some 'E'

/-- The units spell a whole part. -/
inductive SpellsWhole : Units → List Char → Prop
  | digits {ds : List Char} : AreDigits ds → (∀ d ds', ds ≠ '0' :: d :: ds') →
      SpellsWhole (unitsOf ds) ds

/-- The units spell a fraction. -/
inductive SpellsFraction : Units → Option (List Char) → Prop
  | absent : SpellsFraction [] none
  | digits {ds : List Char} : AreDigits ds → SpellsFraction (some '.' :: unitsOf ds) (some ds)

/-- The units spell the sign and the digits of an exponent. -/
inductive SpellsSigned : Units → Bool × List Char → Prop
  | minus {ds : List Char} : AreDigits ds → SpellsSigned (some '-' :: unitsOf ds) (true, ds)
  | plus {ds : List Char} : AreDigits ds → SpellsSigned (some '+' :: unitsOf ds) (false, ds)
  | bare {ds : List Char} : AreDigits ds → SpellsSigned (unitsOf ds) (false, ds)

/-- The units spell an exponent. -/
inductive SpellsExponent : Units → Option (Bool × List Char) → Prop
  | absent : SpellsExponent [] none
  | small {us : Units} {e : Bool × List Char} :
      SpellsSigned us e → SpellsExponent (some 'e' :: us) (some e)
  | capital {us : Units} {e : Bool × List Char} :
      SpellsSigned us e → SpellsExponent (some 'E' :: us) (some e)

/-- The units spell a number. -/
inductive SpellsNumber : Units → NumberText → Prop
  | parts {negative : Bool} {us vs ws : Units} {whole : List Char}
      {fraction : Option (List Char)} {exponent : Option (Bool × List Char)} :
      SpellsWhole us whole → SpellsFraction vs fraction → SpellsExponent ws exponent →
      SpellsNumber ((if negative then [some '-'] else []) ++ (us ++ (vs ++ ws)))
        ⟨negative, whole, fraction, exponent⟩

/-! ### Reading what spells a number -/

theorem takeDigits_digits {ds : List Char} (h : ∀ c ∈ ds, isDigitUnit (some c) = true) {us : Units}
    (hEnd : ∀ u ∈ us.head?, isDigitUnit u = false) : takeDigits (unitsOf ds ++ us) = (ds, us) := by
  have hAll : ∀ u ∈ unitsOf ds, isDigitUnit u = true := by
    intro u hu
    obtain ⟨c, hc, rfl⟩ := List.mem_map.1 hu
    exact h c hc
  have hTake : us.takeWhile isDigitUnit = [] := by
    cases us with
    | nil => rfl
    | cons u us => exact List.takeWhile_cons_of_neg (by simp [hEnd u rfl])
  have hDrop : us.dropWhile isDigitUnit = us := by
    cases us with
    | nil => rfl
    | cons u us => exact List.dropWhile_cons_of_neg (by simp [hEnd u rfl])
  rw [takeDigits, List.takeWhile_append_of_pos hAll, List.dropWhile_append_of_pos hAll, hTake,
    hDrop]
  simp [unitsOf, List.filterMap_map]

theorem isDigitUnit_ne {u : Option Char} (h : isDigitUnit u = true) :
    u ≠ some '-' ∧ u ≠ some '+' ∧ u ≠ some '.' ∧ u ≠ some 'e' ∧ u ≠ some 'E' := by
  refine ⟨?_, ?_, ?_, ?_, ?_⟩ <;> rintro rfl <;> exact absurd h (by decide)

theorem AreDigits.exists_cons {ds : List Char} (h : AreDigits ds) :
    ∃ d ds', ds = d :: ds' ∧ isDigitUnit (some d) = true := by
  obtain ⟨d, ds', rfl⟩ := List.exists_cons_of_ne_nil h.1
  exact ⟨d, ds', rfl, h.2 d List.mem_cons_self⟩

theorem SpellsWhole.wholePart? {us : Units} {ds : List Char} (h : SpellsWhole us ds)
    {rest : Units} (hEnd : ∀ u ∈ rest.head?, isDigitUnit u = false) :
    wholePart? (us ++ rest) = some (ds, rest) := by
  obtain ⟨hDigits, hZero⟩ := h
  rw [Json.wholePart?, takeDigits_digits hDigits.2 hEnd]
  split
  · next hEmpty => exact absurd (Prod.mk.inj hEmpty).1 hDigits.1
  · next d ds' _ hLead => exact absurd (Prod.mk.inj hLead).1 (hZero d ds')
  · rfl

theorem SpellsFraction.fractionPart? {us : Units} {f : Option (List Char)}
    (h : SpellsFraction us f) {rest : Units}
    (hEnd : ∀ u ∈ rest.head?, isDigitUnit u = false ∧ u ≠ some '.') :
    fractionPart? (us ++ rest) = some (f, rest) := by
  cases h with
  | absent =>
      change Json.fractionPart? rest = some (none, rest)
      unfold Json.fractionPart?
      split
      · exact absurd rfl (hEnd _ rfl).2
      · rfl
  | digits hDigits =>
      rw [List.cons_append, Json.fractionPart?,
        takeDigits_digits hDigits.2 fun u hu => (hEnd u hu).1]
      obtain ⟨d, ds', rfl, -⟩ := hDigits.exists_cons
      rfl

theorem SpellsSigned.exponentDigits? {us : Units} {e : Bool × List Char} (h : SpellsSigned us e)
    {rest : Units} (hEnd : ∀ u ∈ rest.head?, isDigitUnit u = false) :
    exponentDigits? (us ++ rest) = some (some e, rest) := by
  cases h with
  | minus hDigits =>
      simp only [List.cons_append, Json.exponentDigits?, takeDigits_digits hDigits.2 hEnd]
      obtain ⟨d, ds', rfl, -⟩ := hDigits.exists_cons
      rfl
  | plus hDigits =>
      simp only [List.cons_append, Json.exponentDigits?, takeDigits_digits hDigits.2 hEnd]
      obtain ⟨d, ds', rfl, -⟩ := hDigits.exists_cons
      rfl
  | @bare ds hDigits =>
      have hTake := takeDigits_digits hDigits.2 hEnd
      obtain ⟨d, ds', rfl, hd⟩ := hDigits.exists_cons
      obtain ⟨hMinus, hPlus, -⟩ := isDigitUnit_ne hd
      simp only [unitsOf, List.map_cons, List.cons_append] at hTake ⊢
      unfold Json.exponentDigits?
      split
      next below us hMatch =>
      split at hMatch
      · next hCons => exact absurd (List.cons.inj hCons).1 hMinus
      · next hCons => exact absurd (List.cons.inj hCons).1 hPlus
      · obtain ⟨rfl, rfl⟩ := Prod.mk.inj hMatch
        rw [hTake]

theorem SpellsExponent.exponentPart? {us : Units} {e : Option (Bool × List Char)}
    (h : SpellsExponent us e) {rest : Units} (hEnd : EndsNumber rest) :
    exponentPart? (us ++ rest) = some (e, rest) := by
  cases h with
  | absent =>
      change Json.exponentPart? rest = some (none, rest)
      unfold Json.exponentPart?
      split
      · exact absurd rfl (hEnd _ rfl).2.2.1
      · exact absurd rfl (hEnd _ rfl).2.2.2
      · rfl
  | small hSigned => exact hSigned.exponentDigits? fun u hu => (hEnd u hu).1
  | capital hSigned => exact hSigned.exponentDigits? fun u hu => (hEnd u hu).1

/-- No digit and no point begins an exponent or what follows a number. -/
theorem SpellsExponent.head {us : Units} {e : Option (Bool × List Char)} (h : SpellsExponent us e)
    {rest : Units} (hEnd : EndsNumber rest) :
    ∀ u ∈ (us ++ rest).head?, isDigitUnit u = false ∧ u ≠ some '.' := by
  cases h with
  | absent => exact fun u hu => ⟨(hEnd u hu).1, (hEnd u hu).2.1⟩
  | small _ =>
      rintro u hu
      obtain rfl : some 'e' = u := Option.some.inj hu
      exact ⟨by decide, by decide⟩
  | capital _ =>
      rintro u hu
      obtain rfl : some 'E' = u := Option.some.inj hu
      exact ⟨by decide, by decide⟩

theorem SpellsFraction.head {us : Units} {f : Option (List Char)} (h : SpellsFraction us f)
    {rest : Units} (hEnd : ∀ u ∈ rest.head?, isDigitUnit u = false ∧ u ≠ some '.') :
    ∀ u ∈ (us ++ rest).head?, isDigitUnit u = false := by
  cases h with
  | absent => exact fun u hu => (hEnd u hu).1
  | digits _ =>
      rintro u hu
      obtain rfl : some '.' = u := Option.some.inj hu
      decide

/-- The parts of a number after its sign, and what follows it. -/
def parts? (negative : Bool) (us : Units) : Option (NumberText × Units) := do
  let (whole, us) ← wholePart? us
  let (fraction, us) ← fractionPart? us
  let (exponent, us) ← exponentPart? us
  return (⟨negative, whole, fraction, exponent⟩, us)

theorem number?_minus (us : Units) : number? (some '-' :: us) = parts? true us := rfl

theorem number?_unsigned {us : Units} (h : us.head? ≠ some (some '-')) :
    number? us = parts? false us := by
  cases us with
  | nil => rfl
  | cons u us =>
      unfold number?
      split
      next negative us' hMatch =>
      split at hMatch
      · next hCons => exact absurd (congrArg List.head? hCons) h
      · obtain ⟨rfl, rfl⟩ := Prod.mk.inj hMatch
        rfl

/-- **What spells a number is read as this number.** -/
theorem SpellsNumber.number? {us : Units} {t : NumberText} (h : SpellsNumber us t) {rest : Units}
    (hEnd : EndsNumber rest) : number? (us ++ rest) = some (t, rest) := by
  obtain @⟨negative, us, vs, ws, whole, fraction, exponent, hWhole, hFraction, hExponent⟩ := h
  have hAfterFraction := hExponent.head hEnd
  have hParts : parts? negative (us ++ (vs ++ (ws ++ rest))) =
      some (⟨negative, whole, fraction, exponent⟩, rest) := by
    rw [parts?, hWhole.wholePart? (hFraction.head hAfterFraction)]
    simp only [Option.bind_eq_bind, Option.bind_some]
    rw [hFraction.fractionPart? hAfterFraction]
    simp only [Option.bind_some]
    rw [hExponent.exponentPart? hEnd]
    rfl
  rw [← hParts]
  simp only [List.append_assoc]
  cases negative with
  | true => rfl
  | false =>
      obtain ⟨hDigits, -⟩ := hWhole
      obtain ⟨d, ds, rfl, hd⟩ := hDigits.exists_cons
      exact number?_unsigned fun hHead => (isDigitUnit_ne hd).1 (Option.some.inj hHead)

/-! ### Spelling of what was read -/

theorem takeDigits_spec {us : Units} {ds : List Char} {rest : Units}
    (h : takeDigits us = (ds, rest)) :
    us = unitsOf ds ++ rest ∧ ∀ c ∈ ds, isDigitUnit (some c) = true := by
  obtain ⟨rfl, rfl⟩ := Prod.mk.inj h
  have hChars (vs : Units) (hDigits : ∀ u ∈ vs, isDigitUnit u = true) :
      unitsOf (vs.filterMap id) = vs := by
    induction vs with
    | nil => rfl
    | cons v vs ih =>
        have hRest := ih fun u hu => hDigits u (List.mem_cons_of_mem _ hu)
        cases v with
        | none => exact absurd (hDigits none List.mem_cons_self) (by decide)
        | some c => simpa [unitsOf] using hRest
  constructor
  · rw [hChars _ fun u hu => List.mem_takeWhile_imp hu, List.takeWhile_append_dropWhile]
  · intro c hc
    obtain ⟨u, hu, hEq⟩ := List.mem_filterMap.1 hc
    obtain rfl : u = some c := hEq
    exact List.mem_takeWhile_imp hu

theorem spellsWhole_of_wholePart? {us : Units} {ds : List Char} {rest : Units}
    (h : wholePart? us = some (ds, rest)) : ∃ pre, us = pre ++ rest ∧ SpellsWhole pre ds := by
  unfold wholePart? at h
  split at h
  · cases h
  · cases h
  · next hSome hZero =>
    have hTake := Option.some.inj h
    obtain ⟨rfl, hDigits⟩ := takeDigits_spec hTake
    refine ⟨_, rfl, .digits ⟨?_, hDigits⟩ ?_⟩
    · rintro rfl
      exact hSome _ hTake
    · rintro d ds' rfl
      exact hZero _ _ _ hTake

theorem spellsFraction_of_fractionPart? {us : Units} {f : Option (List Char)} {rest : Units}
    (h : fractionPart? us = some (f, rest)) : ∃ pre, us = pre ++ rest ∧ SpellsFraction pre f := by
  unfold fractionPart? at h
  split at h
  · split at h
    · cases h
    · next hSome hTake =>
      obtain ⟨rfl, rfl⟩ := Prod.mk.inj (Option.some.inj h)
      obtain ⟨rfl, hDigits⟩ := takeDigits_spec hTake
      exact ⟨_, rfl, .digits ⟨hSome, hDigits⟩⟩
  · obtain ⟨rfl, rfl⟩ := Prod.mk.inj (Option.some.inj h)
    exact ⟨[], rfl, .absent⟩

theorem spellsSigned_of_exponentDigits? {us : Units} {e : Option (Bool × List Char)} {rest : Units}
    (h : exponentDigits? us = some (e, rest)) :
    ∃ pre e', us = pre ++ rest ∧ e = some e' ∧ SpellsSigned pre e' := by
  unfold exponentDigits? at h
  split at h
  next below us' hMatch =>
  split at h
  · cases h
  · next ds rest' hSome hTake =>
    obtain ⟨rfl, rfl⟩ := Prod.mk.inj (Option.some.inj h)
    obtain ⟨rfl, hDigits⟩ := takeDigits_spec hTake
    have hAre : AreDigits ds := ⟨hSome, hDigits⟩
    split at hMatch
    · obtain ⟨rfl, rfl⟩ := Prod.mk.inj hMatch
      exact ⟨_, _, rfl, rfl, .minus hAre⟩
    · obtain ⟨rfl, rfl⟩ := Prod.mk.inj hMatch
      exact ⟨_, _, rfl, rfl, .plus hAre⟩
    · obtain ⟨rfl, rfl⟩ := Prod.mk.inj hMatch
      exact ⟨_, _, rfl, rfl, .bare hAre⟩

theorem spellsExponent_of_exponentPart? {us : Units} {e : Option (Bool × List Char)} {rest : Units}
    (h : exponentPart? us = some (e, rest)) : ∃ pre, us = pre ++ rest ∧ SpellsExponent pre e := by
  unfold exponentPart? at h
  split at h
  · obtain ⟨pre, e', rfl, rfl, hSigned⟩ := spellsSigned_of_exponentDigits? h
    exact ⟨_, rfl, .small hSigned⟩
  · obtain ⟨pre, e', rfl, rfl, hSigned⟩ := spellsSigned_of_exponentDigits? h
    exact ⟨_, rfl, .capital hSigned⟩
  · obtain ⟨rfl, rfl⟩ := Prod.mk.inj (Option.some.inj h)
    exact ⟨[], rfl, .absent⟩

theorem spellsNumber_of_parts? {negative : Bool} {us : Units} {t : NumberText} {rest : Units}
    (h : parts? negative us = some (t, rest)) :
    ∃ pre, us = pre ++ rest ∧ SpellsNumber ((if negative then [some '-'] else []) ++ pre) t := by
  simp only [parts?, Option.bind_eq_bind, Option.bind_eq_some_iff] at h
  obtain ⟨⟨whole, us₁⟩, hWhole, ⟨fraction, us₂⟩, hFraction, ⟨exponent, us₃⟩, hExponent, hEq⟩ := h
  obtain ⟨rfl, rfl⟩ := Prod.mk.inj (Option.some.inj hEq)
  obtain ⟨pre₁, rfl, hPre₁⟩ := spellsWhole_of_wholePart? hWhole
  obtain ⟨pre₂, rfl, hPre₂⟩ := spellsFraction_of_fractionPart? hFraction
  obtain ⟨pre₃, rfl, hPre₃⟩ := spellsExponent_of_exponentPart? hExponent
  exact ⟨pre₁ ++ (pre₂ ++ pre₃), by simp only [List.append_assoc], .parts hPre₁ hPre₂ hPre₃⟩

/-- **What is read as a number spells it.** -/
theorem spellsNumber_of_number? {us : Units} {t : NumberText} {rest : Units}
    (h : number? us = some (t, rest)) : ∃ pre, us = pre ++ rest ∧ SpellsNumber pre t := by
  by_cases hMinus : us.head? = some (some '-')
  · obtain ⟨us, rfl⟩ := List.head?_eq_some_iff.1 hMinus
    rw [number?_minus] at h
    obtain ⟨pre, rfl, hPre⟩ := spellsNumber_of_parts? h
    exact ⟨_, rfl, hPre⟩
  · rw [number?_unsigned hMinus] at h
    exact spellsNumber_of_parts? h

/-! ### Written numbers -/

namespace NumberText

/-- The characters of a fraction. -/
def fractionChars : Option (List Char) → List Char
  | none => []
  | some ds => '.' :: ds

/-- The characters of an exponent. -/
def exponentChars : Option (Bool × List Char) → List Char
  | none => []
  | some (below, ds) => 'e' :: (if below then '-' else '+') :: ds

/-- The characters of a number. -/
def chars (t : NumberText) : List Char :=
  (if t.negative then ['-'] else []) ++ (t.whole ++
    (fractionChars t.fraction ++ exponentChars t.exponent))

/-- The parts of the number are digits, and no needless zero comes first. -/
structure IsProper (t : NumberText) : Prop where
  whole : AreDigits t.whole
  noZero : ∀ d ds, t.whole ≠ '0' :: d :: ds
  fraction : ∀ ds ∈ t.fraction, AreDigits ds
  exponent : ∀ e ∈ t.exponent, AreDigits e.2

theorem spellsFraction_chars {f : Option (List Char)} (h : ∀ ds ∈ f, AreDigits ds) :
    SpellsFraction (unitsOf (fractionChars f)) f := by
  cases f with
  | none => exact .absent
  | some ds => exact .digits (h ds rfl)

theorem spellsExponent_chars {e : Option (Bool × List Char)} (h : ∀ e' ∈ e, AreDigits e'.2) :
    SpellsExponent (unitsOf (exponentChars e)) e := by
  match e with
  | none => exact .absent
  | some (true, ds) => exact .small (.minus (h _ rfl))
  | some (false, ds) => exact .small (.plus (h _ rfl))

/-- **A written number spells itself.** -/
theorem IsProper.spellsNumber {t : NumberText} (h : t.IsProper) :
    SpellsNumber (unitsOf t.chars) t := by
  have hChars : unitsOf t.chars = (if t.negative then [some '-'] else []) ++
      (unitsOf t.whole ++ (unitsOf (fractionChars t.fraction) ++
        unitsOf (exponentChars t.exponent))) := by
    simp only [chars, unitsOf, List.map_append]
    split <;> rfl
  rw [hChars]
  exact .parts (.digits h.whole h.noZero) (spellsFraction_chars h.fraction)
    (spellsExponent_chars h.exponent)

end NumberText

end CoverRun.Json

import CoverRun.Proofs.Json.WrittenNumber
import CoverRun.Proofs.Toml.Text
import Mathlib.Data.List.Basic

/-!
# Written keys and values read back

A written name is read up to the first character that is not bare, or to its closing quote
(`name?_writeName`), and a key name by name. A written text, number or list of texts is read as the
value that it was written for when the line ends after it (`Writes`).
-/

namespace CoverRun.Toml

/-! ## Blanks -/

theorem skipBlanks_cons {c : Char} (h : isLineBlank c = false) (cs : List Char) :
    skipBlanks (c :: cs) = c :: cs :=
  List.dropWhile_cons_of_neg (by simp [h])

theorem skipBlanks_blank {c : Char} (h : isLineBlank c = true) (cs : List Char) :
    skipBlanks (c :: cs) = skipBlanks cs :=
  List.dropWhile_cons_of_pos h

/-- A character is where blanks, line ends and comments stop. -/
def StopsSpace (c : Char) : Prop := isLineBlank c = false ∧ c ≠ '\n' ∧ c ≠ '\r' ∧ c ≠ '#'

theorem skipSpace?_stop {c : Char} (h : StopsSpace c) (fuel : Nat) (cs : List Char) :
    skipSpace? (fuel + 1) (c :: cs) = some (c :: cs) := by
  obtain ⟨hBlank, hFeed, hReturn, hComment⟩ := h
  rw [skipSpace?, skipBlanks_cons hBlank]
  split
  · next hEq => exact absurd (List.cons.inj hEq).1 hFeed
  · next hEq => exact absurd (List.cons.inj hEq).1 hReturn
  · next hEq => exact absurd (List.cons.inj hEq).1 hComment
  · rfl

theorem skipSpace?_break (fuel : Nat) (cs : List Char) :
    skipSpace? (fuel + 1) ('\n' :: cs) = skipSpace? fuel cs := rfl

theorem skipSpace?_blank {c : Char} (h : isLineBlank c = true) (fuel : Nat) (cs : List Char) :
    skipSpace? fuel (c :: cs) = skipSpace? fuel cs := by
  cases fuel with
  | zero => rfl
  | succ fuel => rw [skipSpace?, skipSpace?, skipBlanks_blank h]

/-! ## Names -/

/-- A character may stand first in a name. -/
def BeginsName (c : Char) : Prop := isBare c = true ∨ c = '"' ∨ c = '\''

instance (c : Char) : Decidable (BeginsName c) :=
  inferInstanceAs (Decidable (isBare c = true ∨ c = '"' ∨ c = '\''))

theorem BeginsName.ne {c d : Char} (h : BeginsName c) (hd : ¬ BeginsName d) : c ≠ d := by
  rintro rfl
  exact hd h

theorem BeginsName.isLineBlank {c : Char} (h : BeginsName c) : isLineBlank c = false := by
  have hSpace : c ≠ ' ' := h.ne (by decide)
  have hTab : c ≠ '\t' := h.ne (by decide)
  simp [Toml.isLineBlank, hSpace, hTab]

/-- No bare character comes first. -/
def NoBareFirst (cs : List Char) : Prop := ∀ c ∈ cs.head?, isBare c = false

theorem longestRun_eq_zero {c : Char} {cs : List Char} (h : c ∉ cs) : longestRun c 0 cs = 0 := by
  induction cs with
  | nil => rfl
  | cons d cs ih =>
      simp only [List.mem_cons, not_or] at h
      rw [longestRun, if_neg (Ne.symm h.1), ih h.2]
      rfl

theorem TextStyle.ofName_cases (cs : List Char) :
    ofName cs = .basic ∨ (ofName cs = .literal ∧ Body '\'' false 0 false 0 cs) := by
  rw [ofName]
  split
  · exact Or.inl rfl
  split
  · next hLiteral =>
    simp only [Bool.and_eq_true, Bool.not_eq_true', Bool.or_eq_false_iff, List.contains_eq_mem,
      decide_eq_false_iff_not] at hLiteral
    obtain ⟨⟨hControl, hFeed⟩, hQuote⟩ := hLiteral
    exact Or.inr ⟨rfl, body_of_longestRun hControl (Or.inr hFeed)
      (Nat.le_of_eq (longestRun_eq_zero hQuote))⟩
  · exact Or.inl rfl

theorem writeName_eq_cons (s : String) : ∃ c cs, writeName s = c :: cs ∧ BeginsName c := by
  rw [writeName]
  split
  · next hBare =>
    simp only [Bool.and_eq_true, bne_iff_ne, List.all_eq_true] at hBare
    obtain ⟨c, cs, hCons⟩ := List.exists_cons_of_ne_nil hBare.1
    exact ⟨c, cs, hCons, Or.inl (hBare.2 c (by simp [hCons]))⟩
  · rcases TextStyle.ofName_cases s.toList with hStyle | ⟨hStyle, -⟩
    · exact ⟨_, _, by rw [hStyle]; rfl, Or.inr (Or.inl rfl)⟩
    · exact ⟨_, _, by rw [hStyle]; rfl, Or.inr (Or.inr rfl)⟩

/-- A bare name is read up to the first character that is not bare. -/
theorem name?_bare {cs : List Char} (hne : cs ≠ []) (hBare : ∀ c ∈ cs, isBare c = true)
    {rest : List Char} (h : NoBareFirst rest) :
    name? (cs ++ rest) = some (String.ofList cs, rest) := by
  have hRest : rest.takeWhile isBare = [] ∧ rest.dropWhile isBare = rest := by
    cases rest with
    | nil => exact ⟨rfl, rfl⟩
    | cons d rest =>
        have hNot := h d rfl
        exact ⟨List.takeWhile_cons_of_neg (by simp [hNot]),
          List.dropWhile_cons_of_neg (by simp [hNot])⟩
  have hTake : (cs ++ rest).takeWhile isBare = cs := by
    rw [List.takeWhile_append_of_pos hBare, hRest.1, List.append_nil]
  have hDrop : (cs ++ rest).dropWhile isBare = rest := by
    rw [List.dropWhile_append_of_pos hBare, hRest.2]
  have hNoQuote {quote : Char} (hQuote : isBare quote = false) (ds : List Char) :
      cs ++ rest ≠ quote :: ds := by
    intro hEq
    obtain ⟨c, cs', rfl⟩ := List.exists_cons_of_ne_nil hne
    have hFirst := hBare c List.mem_cons_self
    rw [(List.cons.inj hEq).1, hQuote] at hFirst
    cases hFirst
  rw [name?.eq_def]
  split
  · next hEq => exact absurd hEq (hNoQuote (by decide) _)
  · next hEq => exact absurd hEq (hNoQuote (by decide) _)
  · dsimp only
    rw [hTake, hDrop, if_neg hne]

/-- **A written name reads back**, whatever characters are in it. -/
theorem name?_writeName (s : String) {rest : List Char} (h : NoBareFirst rest) :
    name? (writeName s ++ rest) = some (s, rest) := by
  rw [writeName]
  split
  · next hBare =>
    simp only [Bool.and_eq_true, bne_iff_ne, List.all_eq_true] at hBare
    rw [name?_bare hBare.1 hBare.2 h, String.ofList_toList]
  · rcases TextStyle.ofName_cases s.toList with hStyle | ⟨hStyle, hBody⟩
    · have hText := lineText?_basic s.toList rest
      rw [hStyle]
      rw [write_basic] at hText ⊢
      rw [name?, hText, Option.map_some, String.ofList_toList]
    · have hText := lineText?_literal hBody rest
      rw [hStyle]
      rw [write_literal] at hText ⊢
      rw [name?, hText, Option.map_some, String.ofList_toList]

/-! ## Keys -/

/-- The names of a key with dots between them. -/
def writeKey (key : Key) : List Char := ['.'].intercalate (key.map writeName)

theorem writeKey_cons (name next : String) (key : Key) :
    writeKey (name :: next :: key) = writeName name ++ '.' :: writeKey (next :: key) := by
  simp [writeKey, List.intercalate]

theorem writeKey_eq_cons {key : Key} (hne : key ≠ []) :
    ∃ c cs, writeKey key = c :: cs ∧ BeginsName c := by
  cases key with
  | nil => exact absurd rfl hne
  | cons name key =>
      obtain ⟨c, cs, hCons, hBegins⟩ := writeName_eq_cons name
      cases key with
      | nil => exact ⟨c, cs, by simp [writeKey, List.intercalate, hCons], hBegins⟩
      | cons next key => exact ⟨c, _, by rw [writeKey_cons, hCons]; rfl, hBegins⟩

/-- **A written key reads back**, and the blanks after it are skipped. -/
theorem key?_writeKey {key : Key} (hne : key ≠ []) {limit : Nat} (hLimit : key.length ≤ limit)
    {rest : List Char} (hBare : NoBareFirst rest) (hDot : (skipBlanks rest).head? ≠ some '.') :
    key? limit (writeKey key ++ rest) = some (key, skipBlanks rest) := by
  induction key generalizing limit with
  | nil => exact absurd rfl hne
  | cons name key ih =>
      obtain ⟨limit, rfl⟩ : ∃ more, limit = more + 1 :=
        ⟨limit - 1, by rw [List.length_cons] at hLimit; omega⟩
      obtain ⟨c, cs, hCons, hBegins⟩ := writeName_eq_cons name
      have hStart (more : List Char) :
          skipBlanks (writeName name ++ more) = writeName name ++ more := by
        rw [hCons]
        exact skipBlanks_cons hBegins.isLineBlank _
      cases key with
      | nil =>
          have hSingle : writeKey [name] = writeName name := by simp [writeKey, List.intercalate]
          rw [hSingle, key?, hStart, name?_writeName name hBare]
          dsimp only
          split
          · next hEq => exact absurd (by rw [hEq]; rfl) hDot
          · rfl
      | cons next key =>
          have hNotBare : NoBareFirst ('.' :: (writeKey (next :: key) ++ rest)) := by
            rintro d ⟨⟩
            decide
          have hRest := ih (List.cons_ne_nil next key) (Nat.le_of_succ_le_succ hLimit)
          rw [writeKey_cons, List.append_assoc, List.cons_append, key?, hStart,
            name?_writeName name hNotBare]
          dsimp only
          rw [skipBlanks_cons (by decide)]
          simp only [hRest, Option.map_some]

/-! ## Values -/

/-- What is written is read as a value in front of a line end, and no blank comes first. -/
structure Writes (cs : List Char) (v : Value) : Prop where
  begins : ∃ c ds, cs = c :: ds ∧ isLineBlank c = false
  reads : ∀ fuel, 2 * cs.length ≤ fuel → ∀ rest,
    value? nestingLimit fuel (cs ++ '\n' :: rest) = some (v, '\n' :: rest)

theorem value?_writeText (depth fuel : Nat) (s : String) {rest : List Char}
    (h : NoQuoteFirst rest) :
    value? depth (fuel + 1) (writeText s ++ rest) = some (.text s, rest) := by
  have hRead := quoted?_writeText s h
  obtain ⟨quote, cs, hCons, rfl | rfl⟩ := writeText_eq_cons s
  · rw [hCons] at hRead ⊢
    rw [List.cons_append] at hRead ⊢
    rw [value?, hRead, Option.map_some, String.ofList_toList]
  · rw [hCons] at hRead ⊢
    rw [List.cons_append] at hRead ⊢
    rw [value?, hRead, Option.map_some, String.ofList_toList]

theorem writeText_stops (s : String) (rest : List Char) :
    ∃ c cs, writeText s ++ rest = c :: cs ∧ StopsSpace c ∧ c ≠ ']' := by
  obtain ⟨quote, cs, hCons, hQuote⟩ := writeText_eq_cons s
  refine ⟨quote, cs ++ rest, by rw [hCons]; rfl, ?_⟩
  rcases hQuote with rfl | rfl
  · exact ⟨by unfold StopsSpace; decide, by decide⟩
  · exact ⟨by unfold StopsSpace; decide, by decide⟩

theorem writes_text (s : String) : Writes (writeText s) (.text s) := by
  obtain ⟨quote, cs, hCons, hQuote⟩ := writeText_eq_cons s
  refine ⟨⟨quote, cs, hCons, ?_⟩, fun fuel hFuel rest => ?_⟩
  · rcases hQuote with rfl | rfl <;> decide
  · obtain ⟨fuel, rfl⟩ : ∃ more, fuel = more + 1 :=
      ⟨fuel - 1, by rw [hCons, List.length_cons] at hFuel; omega⟩
    exact value?_writeText nestingLimit fuel s ⟨by simp, by simp⟩

/-! ## Numbers -/

theorem isDigit_toDigits (n : Nat) : ∀ c ∈ Nat.toDigits 10 n, isDigit c = true := by
  intro c hc
  have hDigit := Nat.isDigit_of_mem_toDigits (by decide) (by decide) hc
  simpa [isDigit, Char.isDigit, Char.le_def] using hDigit

theorem isDigit_ne {c d : Char} (h : isDigit c = true) (hd : isDigit d = false) : c ≠ d := by
  rintro rfl
  rw [h] at hd
  cases hd

theorem digitsNumber_eq_digitsValue {ds : List Char} (h : ∀ c ∈ ds, isDigit c = true) :
    digitsNumber 10 ds = Json.digitsValue ds := by
  have hStep : ∀ n, ∀ c ∈ ds, n * 10 + (Json.hexValue? c).getD 0 = n * 10 + Json.digitValue c := by
    intro n c hc
    have hDigit : '0' ≤ c ∧ c ≤ '9' := by simpa [isDigit] using h c hc
    rw [Json.hexValue?, if_pos hDigit]
    rfl
  rw [digitsNumber, Json.digitsValue]
  exact List.foldl_ext _ _ 0 hStep

theorem integerOf?_toDigits (n : UInt64) :
    integerOf? false 10 (Nat.toDigits 10 n.toNat) = some (n.toNat : Int) := by
  have hWord : n.toNat < 2 ^ 64 := n.toNat_lt
  by_cases hZero : n.toNat = 0
  · rw [hZero]
    decide
  · have hHead := Json.head_toDigits (Nat.pos_of_ne_zero hZero)
    have hDrop : (Nat.toDigits 10 n.toNat).dropWhile (· == '0') = Nat.toDigits 10 n.toNat := by
      obtain ⟨d, ds, hCons⟩ : ∃ d ds, Nat.toDigits 10 n.toNat = d :: ds :=
        List.exists_cons_of_ne_nil Nat.toDigits_ne_nil
      rw [hCons] at hHead ⊢
      exact List.dropWhile_cons_of_neg (by simpa using hHead)
    have hNumber : digitsNumber 10 (Nat.toDigits 10 n.toNat) = n.toNat := by
      rw [digitsNumber_eq_digitsValue (isDigit_toDigits _), Json.digitsValue_toDigits]
    have hLength : ¬ digitLimit < (Nat.toDigits 10 n.toNat).length := by
      have hShort : (Nat.toDigits 10 n.toNat).length ≤ 20 :=
        (Nat.length_toDigits_le_iff (by decide) (by decide)).2 (by omega)
      rw [digitLimit]
      omega
    rw [integerOf?, hDrop, if_neg hLength, hNumber, if_pos]
    · rfl
    · show n.toNat ≤ integerLimit
      rw [integerLimit]
      omega

theorem cutScalar_digits {ds : List Char} (h : ∀ c ∈ ds, isDigit c = true) (rest : List Char) :
    cutScalar (ds ++ '\n' :: rest) = (ds, '\n' :: rest) := by
  have hGoes : ∀ c ∈ ds, (!endsWord c) = true := by
    intro c hc
    have hDigit := h c hc
    rw [Bool.not_eq_true']
    by_contra hEnds
    simp only [Bool.not_eq_false, endsWord, List.contains_eq_mem, decide_eq_true_eq,
      List.mem_cons, List.not_mem_nil, or_false] at hEnds
    rcases hEnds with rfl | rfl | rfl | rfl | rfl | rfl | rfl | rfl | rfl | rfl | rfl <;>
      exact absurd hDigit (by decide)
  have hWord : cutWord (ds ++ '\n' :: rest) = (ds, '\n' :: rest) := by
    rw [cutWord, List.takeWhile_append_of_pos hGoes, List.dropWhile_append_of_pos hGoes,
      List.takeWhile_cons_of_neg (by decide), List.dropWhile_cons_of_neg (by decide),
      List.append_nil]
  have hDrop : ds.dropWhile isDigit = [] := List.dropWhile_eq_nil_iff.2 h
  rw [cutScalar, hWord]
  dsimp only
  rw [hDrop]

theorem hasNeedlessZero_toDigits (n : Nat) : hasNeedlessZero (Nat.toDigits 10 n) = false := by
  have hNo := Json.noZero_toDigits n
  obtain ⟨d, ds, hCons⟩ : ∃ d ds, Nat.toDigits 10 n = d :: ds :=
    List.exists_cons_of_ne_nil Nat.toDigits_ne_nil
  rw [hCons] at hNo ⊢
  cases ds with
  | nil => simp [hasNeedlessZero]
  | cons e ds =>
      have hFirst : d ≠ '0' := by
        rintro rfl
        exact hNo e ds rfl
      simp [hasNeedlessZero, hFirst]

/-- **The decimal digits of a number are read as it.** -/
theorem ofWord?_toDigits (n : UInt64) :
    Value.ofWord? (Nat.toDigits 10 n.toNat) = some (.integer n.toNat) := by
  have hZero := hasNeedlessZero_toDigits n.toNat
  have hInteger := integerOf?_toDigits n
  have hNonempty : Nat.toDigits 10 n.toNat ≠ [] := Nat.toDigits_ne_nil
  have hDigits := isDigit_toDigits n.toNat
  generalize Nat.toDigits 10 n.toNat = ds at *
  have hNot {c : Char} (hc : c ∈ ds) (hOther : isDigit c = false) : False :=
    isDigit_ne (hDigits c hc) hOther rfl
  have hPlain : Value.ofWord? ds = ofDecimal? false ds ds := by
    rw [Value.ofWord?.eq_def]
    split
    · exact (hNot (c := 't') (by simp) (by decide)).elim
    · exact (hNot (c := 'f') (by simp) (by decide)).elim
    · exact (hNot (c := '+') (by simp) (by decide)).elim
    · exact (hNot (c := '-') (by simp) (by decide)).elim
    · exact (hNot (c := 'x') (by simp) (by decide)).elim
    · exact (hNot (c := 'o') (by simp) (by decide)).elim
    · exact (hNot (c := 'b') (by simp) (by decide)).elim
    · rfl
  have hReal : ¬ (ds = ['i', 'n', 'f'] ∨ ds = ['n', 'a', 'n']) := by
    rintro (rfl | rfl)
    · exact hNot (c := 'i') (by simp) (by decide)
    · exact hNot (c := 'n') (by simp) (by decide)
  have hTake : ds.takeWhile isDigit = ds := List.takeWhile_eq_self_iff.2 hDigits
  have hDrop : ds.dropWhile isDigit = [] := List.dropWhile_eq_nil_iff.2 hDigits
  rw [hPlain, ofDecimal?, hTake, hDrop, if_neg hReal, if_neg hNonempty]
  dsimp only
  rw [hZero, if_neg (by simp), integerValue, hInteger]

theorem writes_natural (n : UInt64) :
    Writes (Nat.toDigits 10 n.toNat) (.integer n.toNat) := by
  have hDigits := isDigit_toDigits n.toNat
  have hWord := ofWord?_toDigits n
  obtain ⟨d, ds, hCons⟩ : ∃ d ds, Nat.toDigits 10 n.toNat = d :: ds :=
    List.exists_cons_of_ne_nil Nat.toDigits_ne_nil
  have hFirst : isDigit d = true := hDigits d (by simp [hCons])
  refine ⟨⟨d, ds, hCons, ?_⟩, fun fuel hFuel rest => ?_⟩
  · have hSpace : d ≠ ' ' := isDigit_ne hFirst (by decide)
    have hTab : d ≠ '\t' := isDigit_ne hFirst (by decide)
    simp [isLineBlank, hSpace, hTab]
  · obtain ⟨fuel, rfl⟩ : ∃ more, fuel = more + 1 :=
      ⟨fuel - 1, by rw [hCons, List.length_cons] at hFuel; omega⟩
    have hScalar : scalar? (Nat.toDigits 10 n.toNat ++ '\n' :: rest) =
        some (.integer n.toNat, '\n' :: rest) := by
      rw [scalar?, cutScalar_digits hDigits]
      dsimp only
      rw [hWord]
      rfl
    rw [hCons] at hScalar ⊢
    rw [List.cons_append] at hScalar ⊢
    rw [value?.eq_def]
    dsimp only
    split
    · next hEq => exact absurd (List.cons.inj hEq).1 (isDigit_ne hFirst (by decide))
    · next hEq => exact absurd (List.cons.inj hEq).1 (isDigit_ne hFirst (by decide))
    · next hEq => exact absurd (List.cons.inj hEq).1 (isDigit_ne hFirst (by decide))
    · next hEq => exact absurd (List.cons.inj hEq).1 (isDigit_ne hFirst (by decide))
    · exact hScalar

/-! ## Lists of texts -/

/-- Lines for the items of a list. -/
def itemLines (ss : List String) : List Char :=
  ss.flatMap fun s => List.replicate 4 ' ' ++ writeText s ++ [',', '\n']

theorem le_length_itemLines (ss : List String) : ss.length ≤ (itemLines ss).length := by
  induction ss with
  | nil => exact Nat.le_refl 0
  | cons s ss ih =>
      rw [itemLines, List.flatMap_cons, List.length_append, List.length_cons]
      have hHere : 1 ≤ (List.replicate 4 ' ' ++ writeText s ++ [',', '\n']).length := by simp
      show ss.length + 1 ≤ _ + (itemLines ss).length
      omega

/-- After a text in a list comes a comma, or the bracket that closes the list. -/
theorem items?_text {depth fuel : Nat} {s : String} {d : Char} {cs rest : List Char}
    (hd : d = ',' ∨ d = ']') (hSpace : skipSpace? (fuel + 1) cs = some (writeText s ++ d :: rest)) :
    items? depth (fuel + 2) cs =
      if d = ',' then (items? depth (fuel + 1) rest).map fun r => (.text s :: r.1, r.2)
      else some ([.text s], rest) := by
  obtain ⟨c, ds, hCons, -, hOpen⟩ := writeText_stops s (d :: rest)
  have hNoQuote : NoQuoteFirst (d :: rest) := by
    rcases hd with rfl | rfl <;> exact ⟨by simp, by simp⟩
  have hStop : StopsSpace d := by
    rcases hd with rfl | rfl <;> (unfold StopsSpace; decide)
  rw [items?, hSpace]
  simp only [Option.bind_eq_bind, Option.bind_some]
  split
  · next hEq =>
    rw [hCons] at hEq
    exact absurd (List.cons.inj hEq).1 hOpen
  · rw [value?_writeText depth fuel s hNoQuote]
    simp only [Option.bind_some]
    rw [skipSpace?_stop hStop]
    rcases hd with rfl | rfl
    · rw [if_pos rfl]
      simp only [Option.bind_some]
      cases items? depth (fuel + 1) rest <;> rfl
    · rfl

theorem items?_none (depth fuel : Nat) (rest : List Char) :
    items? depth (fuel + 2) (']' :: rest) = some ([], rest) := by
  have hClose : StopsSpace ']' := by unfold StopsSpace; decide
  rw [items?, skipSpace?_stop hClose]
  rfl

theorem items?_one (depth fuel : Nat) (s : String) (rest : List Char) :
    items? depth (fuel + 2) (writeText s ++ ']' :: rest) = some ([.text s], rest) := by
  obtain ⟨c, cs, hCons, hStops, -⟩ := writeText_stops s (']' :: rest)
  have hSpace : skipSpace? (fuel + 1) (writeText s ++ ']' :: rest) =
      some (writeText s ++ ']' :: rest) := by
    rw [hCons, skipSpace?_stop hStops]
  rw [items?_text (Or.inr rfl) hSpace]
  rfl

/-- **Items on lines of their own are read in order.** -/
theorem items?_itemLines (depth : Nat) (ss : List String) {fuel : Nat} (h : ss.length + 3 ≤ fuel)
    (rest : List Char) :
    items? depth fuel ('\n' :: (itemLines ss ++ ']' :: rest)) = some (ss.map .text, rest) := by
  induction ss generalizing fuel with
  | nil =>
      obtain ⟨fuel, rfl⟩ := Nat.exists_eq_add_of_le' h
      have hClose : StopsSpace ']' := by unfold StopsSpace; decide
      have hSpace : skipSpace? (fuel + 2) ('\n' :: ']' :: rest) = some (']' :: rest) := by
        rw [skipSpace?_break, skipSpace?_stop hClose]
      show items? depth (fuel + 3) ('\n' :: ']' :: rest) = _
      rw [items?, hSpace]
      rfl
  | cons s ss ih =>
      obtain ⟨fuel, rfl⟩ : ∃ more, fuel = more + 3 := ⟨fuel - 3, by omega⟩
      have hEnough : ss.length + 3 ≤ fuel + 2 := by
        rw [List.length_cons] at h
        omega
      have hRest := ih hEnough
      generalize hMore : '\n' :: (itemLines ss ++ ']' :: rest) = more at hRest
      have hText : '\n' :: (itemLines (s :: ss) ++ ']' :: rest) =
          '\n' :: ' ' :: ' ' :: ' ' :: ' ' :: (writeText s ++ ',' :: more) := by
        rw [← hMore]
        simp [itemLines, List.replicate]
      obtain ⟨c, cs, hCons, hStops, -⟩ := writeText_stops s (',' :: more)
      have hSpace : skipSpace? (fuel + 2)
          ('\n' :: ' ' :: ' ' :: ' ' :: ' ' :: (writeText s ++ ',' :: more)) =
            some (writeText s ++ ',' :: more) := by
        rw [skipSpace?_break, skipSpace?_blank (by decide), skipSpace?_blank (by decide),
          skipSpace?_blank (by decide), skipSpace?_blank (by decide), hCons,
          skipSpace?_stop hStops]
      rw [hText, items?_text (Or.inl rfl) hSpace, if_pos rfl, hRest]
      rfl

/-- **A written list of texts is read as their array.** -/
theorem writes_texts (ss : List String) : Writes (writeTexts ss) (.array (ss.map .text)) := by
  have hArray (fuel : Nat) (cs : List Char) : value? nestingLimit (fuel + 1) ('[' :: cs) =
      (items? (nestingLimit - 1) fuel cs).map fun r => (.array r.1, r.2) := by
    rw [value?.eq_def]
    rfl
  match ss with
  | [] =>
      refine ⟨⟨_, _, rfl, by decide⟩, fun fuel hFuel rest => ?_⟩
      obtain ⟨fuel, rfl⟩ : ∃ more, fuel = more + 3 :=
        ⟨fuel - 3, by simp [writeTexts] at hFuel; omega⟩
      show value? nestingLimit (fuel + 3) ('[' :: ']' :: '\n' :: rest) = _
      rw [hArray, items?_none]
      rfl
  | [s] =>
      refine ⟨⟨_, _, rfl, by decide⟩, fun fuel hFuel rest => ?_⟩
      obtain ⟨fuel, rfl⟩ : ∃ more, fuel = more + 3 :=
        ⟨fuel - 3, by simp [writeTexts] at hFuel; omega⟩
      have hText : writeTexts [s] ++ '\n' :: rest =
          '[' :: (writeText s ++ ']' :: '\n' :: rest) := by
        simp [writeTexts]
      rw [hText, hArray, items?_one]
      rfl
  | s :: next :: ss =>
      refine ⟨⟨_, _, rfl, by decide⟩, fun fuel hFuel rest => ?_⟩
      have hText (tail : List Char) : writeTexts (s :: next :: ss) ++ tail =
          '[' :: '\n' :: (itemLines (s :: next :: ss) ++ ']' :: tail) := by
        simp [writeTexts, itemLines]
      have hLength := congrArg List.length (hText [])
      have hLines := le_length_itemLines (s :: next :: ss)
      simp only [List.append_nil, List.length_cons, List.length_append, List.length_nil]
        at hLength hLines
      obtain ⟨fuel, rfl⟩ : ∃ more, fuel = more + 1 := ⟨fuel - 1, by omega⟩
      rw [hText, hArray, items?_itemLines _ _ (by simp only [List.length_cons]; omega)]
      rfl

end CoverRun.Toml

import CoverRun.Toml.Written

/-!
# Written texts read back

A text is written in one of four styles. In each of them the reader cuts off the body at its closing
quotes, since nothing in the body closes it (`Body`), and then carries out its escapes, which undoes
those that were written (`unescape_escapeBody`). So a written text reads back wherever no quote
follows it (`quoted?_writeText`).
-/

namespace CoverRun.Toml

/-! ## Bodies -/

/-- All of a body may stand there and nothing in it closes it: plain characters, line feeds in a
`block`, backslashes before a character if there are escapes, and quotes of which no more than
`allowed` are in a row, with some in front of the body that count. -/
inductive Body (quote : Char) (escapes : Bool) (allowed : Nat) (block : Bool) :
    Nat → List Char → Prop
  | nil {run : Nat} : Body quote escapes allowed block run []
  | quote {run : Nat} {cs : List Char} (room : run < allowed)
      (rest : Body quote escapes allowed block (run + 1) cs) :
      Body quote escapes allowed block run (quote :: cs)
  | plain {run : Nat} {c : Char} {cs : List Char}
      (stands : isPlain c = true ∨ block = true ∧ c = '\n') (other : c ≠ quote)
      (bare : escapes = true → c ≠ '\\') (rest : Body quote escapes allowed block 0 cs) :
      Body quote escapes allowed block run (c :: cs)
  | escape {run : Nat} {c : Char} {cs : List Char} (hold : escapes = true)
      (stands : isPlain c = true) (rest : Body quote escapes allowed block 0 cs) :
      Body quote escapes allowed block run ('\\' :: c :: cs)

section

variable {quote : Char} {escapes : Bool}

theorem lineBody_pass {escaped : Bool} {c : Char} (hOpen : ¬ (c = quote ∧ escaped = false))
    (hStands : isPlain c = true) (cs : List Char) :
    lineBody quote escapes escaped (c :: cs) =
      (lineBody quote escapes (escapes && c == '\\' && !escaped) cs).map fun r =>
        (c :: r.1, r.2) := by
  rw [lineBody, if_neg hOpen, if_pos hStands]

theorem blockBody_pass {escaped : Bool} {c : Char} (hOpen : ¬ (c = quote ∧ escaped = false))
    (hStands : isPlain c = true ∨ c = '\n') (cs : List Char) :
    blockBody quote escapes escaped (c :: cs) =
      (blockBody quote escapes (escapes && c == '\\' && !escaped) cs).map fun r =>
        (c :: r.1, r.2) := by
  have hAny : (isPlain c || c == '\n' || (c == '\r' && cs.head? == some '\n')) = true := by
    rcases hStands with hPlain | rfl
    · rw [hPlain, Bool.true_or, Bool.true_or]
    · simp
  rw [blockBody.eq_def]
  dsimp only
  rw [if_neg hOpen, if_pos hAny]

/-- A character that is bare begins no escape. -/
theorem not_escaped {c : Char} (hBare : escapes = true → c ≠ '\\') :
    (escapes && c == '\\' && !false) = false := by
  cases escapes with
  | false => rfl
  | true => simpa using hBare rfl

/-- **A body on one line is cut off at its closing quote.** -/
theorem lineBody_append (hQuote : quote ≠ '\\') {run : Nat} {cs : List Char}
    (h : Body quote escapes 0 false run cs) (rest : List Char) :
    lineBody quote escapes false (cs ++ quote :: rest) = some (cs, rest) := by
  induction h with
  | nil => rw [List.nil_append, lineBody, if_pos ⟨rfl, rfl⟩]
  | quote room => exact absurd room (Nat.not_lt_zero _)
  | @plain run c cs stands other bare _ ih =>
      rw [List.cons_append, lineBody_pass (fun hClose => other hClose.1)
        (stands.resolve_right (by simp)), not_escaped bare, ih]
      rfl
  | @escape run c cs hold stands _ ih =>
      subst hold
      rw [List.cons_append, List.cons_append,
        lineBody_pass (fun hClose => hQuote hClose.1.symm) (by decide)]
      show Option.map _ (lineBody quote true true _) = _
      rw [lineBody_pass (by simp) stands]
      simp [ih]

/-! ## Bodies of several lines -/

theorem blockBody_open {d e : Char} (h : ¬ (d = quote ∧ e = quote)) (cs : List Char) :
    blockBody quote escapes false (quote :: d :: e :: cs) =
      (blockBody quote escapes false (d :: e :: cs)).map fun r => (quote :: r.1, r.2) := by
  rw [blockBody.eq_def]
  dsimp only
  rw [if_pos ⟨rfl, rfl⟩, if_neg h]

theorem blockBody_close {k : Nat} (hk : k ≤ 2) {rest : List Char}
    (hRest : rest.head? ≠ some quote) :
    blockBody quote escapes false
        (List.replicate k quote ++ quote :: quote :: quote :: rest) =
      some (List.replicate k quote, rest) := by
  have hCases : k = 0 ∨ k = 1 ∨ k = 2 := by omega
  rcases hCases with rfl | rfl | rfl
  · cases rest with
    | nil => simp [blockBody]
    | cons f rest =>
        have hOther : f ≠ quote := by simpa using hRest
        cases rest <;> simp [blockBody, hOther]
  · cases rest with
    | nil => simp [blockBody, List.replicate]
    | cons f rest =>
        have hOther : f ≠ quote := by simpa using hRest
        simp [blockBody, List.replicate, hOther]
  · simp [blockBody, List.replicate]

/-- What follows a quote in a body is up to one more quote at its end, or does not close it. -/
theorem Body.after_quote {run : Nat} {cs : List Char}
    (h : Body quote escapes 2 true (run + 1) cs) (hQuote : quote ≠ '\\') (closing : List Char) :
    cs = [] ∨ cs = [quote] ∨ ∃ d e ds, cs ++ quote :: closing = d :: e :: ds ∧
      ¬ (d = quote ∧ e = quote) := by
  cases h with
  | nil => exact Or.inl rfl
  | @plain _ c cs _ other _ _ =>
      obtain ⟨e, ds, hNext⟩ : ∃ e ds, cs ++ quote :: closing = e :: ds :=
        List.exists_cons_of_ne_nil (by simp)
      exact Or.inr (Or.inr ⟨c, e, ds, by rw [List.cons_append, hNext], fun hBoth => other hBoth.1⟩)
  | escape => exact Or.inr (Or.inr ⟨_, _, _, rfl, fun hBoth => hQuote hBoth.1.symm⟩)
  | quote _ rest =>
      cases rest with
      | nil => exact Or.inr (Or.inl rfl)
      | quote room => omega
      | plain _ other => exact Or.inr (Or.inr ⟨_, _, _, rfl, fun hBoth => other hBoth.2⟩)
      | escape => exact Or.inr (Or.inr ⟨_, _, _, rfl, fun hBoth => hQuote hBoth.2.symm⟩)

/-- **A body of several lines is cut off at its three closing quotes.** -/
theorem blockBody_append (hQuote : quote ≠ '\\') {run : Nat} {cs : List Char}
    (h : Body quote escapes 2 true run cs) {rest : List Char} (hRest : rest.head? ≠ some quote) :
    blockBody quote escapes false (cs ++ quote :: quote :: quote :: rest) = some (cs, rest) := by
  induction h with
  | nil => exact blockBody_close (k := 0) (by omega) hRest
  | @quote run cs room next ih =>
      -- quotes at the end of the body run into those that close it
      rcases next.after_quote hQuote (quote :: quote :: rest) with
        rfl | rfl | ⟨d, e, ds, hNext, hOpen⟩
      · exact blockBody_close (k := 1) (by omega) hRest
      · exact blockBody_close (k := 2) (by omega) hRest
      · rw [List.cons_append, hNext, blockBody_open hOpen, ← hNext, ih]
        rfl
  | @plain run c cs stands other bare _ ih =>
      rw [List.cons_append, blockBody_pass (fun hClose => other hClose.1)
        (stands.imp_right And.right), not_escaped bare, ih]
      rfl
  | @escape run c cs hold stands _ ih =>
      subst hold
      rw [List.cons_append, List.cons_append,
        blockBody_pass (fun hClose => hQuote hClose.1.symm) (Or.inl (by decide))]
      show Option.map _ (blockBody quote true true _) = _
      rw [blockBody_pass (by simp) (Or.inl stands)]
      simp [ih]

end

/-! ## Written bodies -/

theorem le_longestRun (c : Char) (before : Nat) (cs : List Char) :
    before ≤ longestRun c before cs := by
  induction cs generalizing before with
  | nil => exact Nat.le_refl before
  | cons d cs ih =>
      rw [longestRun]
      split
      · exact Nat.le_of_succ_le (ih (before + 1))
      · exact Nat.le_max_left _ _

theorem isPlain_of_not_isControl {c : Char} (h : isControl c = false) :
    isPlain c = true ∨ c = '\n' := by
  by_cases hTab : c = '\t'
  · exact Or.inl (by rw [hTab]; decide)
  · by_cases hBreak : c = '\n'
    · exact Or.inr hBreak
    · simp [isControl, hTab, hBreak] at h
      exact Or.inl (by simp [isPlain, h])

/-- Without escapes, characters are a body if none is a control character and no run of quotes is
too long. -/
theorem body_of_longestRun {quote : Char} {allowed run : Nat} {block : Bool} {cs : List Char}
    (hControl : cs.any isControl = false) (hLines : block = true ∨ '\n' ∉ cs)
    (hRun : longestRun quote run cs ≤ allowed) : Body quote false allowed block run cs := by
  induction cs generalizing run with
  | nil => exact .nil
  | cons c cs ih =>
      simp only [List.any_cons, Bool.or_eq_false_iff] at hControl
      have hRest : block = true ∨ '\n' ∉ cs :=
        hLines.imp_right fun hNot hMem => hNot (List.mem_cons_of_mem c hMem)
      rw [longestRun] at hRun
      by_cases hQuote : c = quote
      · subst hQuote
        rw [if_pos rfl] at hRun
        have hRoom := le_longestRun c (run + 1) cs
        exact .quote (by omega) (ih hControl.2 hRest hRun)
      · rw [if_neg hQuote] at hRun
        refine .plain ?_ hQuote (fun h => by cases h) (ih hControl.2 hRest (by omega))
        rcases isPlain_of_not_isControl hControl.1 with hPlain | rfl
        · exact Or.inl hPlain
        · exact Or.inr ⟨hLines.resolve_right (by simp), rfl⟩

theorem capitalDigit_plain (n : Nat) :
    isPlain (capitalDigit n) = true ∧ capitalDigit n ≠ '"' ∧ capitalDigit n ≠ '\\' := by
  have hAll : ∀ k < 16, isPlain (capitalDigit k) = true ∧ capitalDigit k ≠ '"' ∧
      capitalDigit k ≠ '\\' := by decide +kernel
  have hSame : capitalDigit n = capitalDigit (n % 16) := by
    rw [capitalDigit, capitalDigit, Nat.mod_mod]
  rw [hSame]
  exact hAll (n % 16) (Nat.mod_lt n (by omega))

/-- The escapes of one letter that are written, each with what it stands for. -/
def letters : List (Char × Char) :=
  [('b', '\x08'), ('t', '\t'), ('n', '\n'), ('f', '\x0c'), ('r', '\r'), ('"', '"'), ('\\', '\\')]

/-- A character is written as an escape of one letter, as one of four digits, or as it is. -/
theorem escapeChar_cases (c : Char) :
    (∃ e, (e, c) ∈ letters ∧ escapeChar c = ['\\', e]) ∨
      (c.toNat < 0x80 ∧ escapeChar c =
        ['\\', 'u', '0', '0', capitalDigit (c.toNat / 16), capitalDigit c.toNat]) ∨
      (c ≠ '\\' ∧ isPlain c = true ∧ escapeChar c = [c]) := by
  by_cases hLetter : c ∈ ['\\', '\x08', '\t', '\n', '\x0c', '\r']
  · refine Or.inl ?_
    simp only [List.mem_cons, List.not_mem_nil, or_false] at hLetter
    rcases hLetter with rfl | rfl | rfl | rfl | rfl | rfl
    all_goals exact ⟨_, by decide, rfl⟩
  · simp only [List.mem_cons, List.not_mem_nil, or_false, not_or] at hLetter
    refine Or.inr ?_
    by_cases hControl : c.toNat < 0x20 ∨ c.toNat = 0x7F
    · exact Or.inl ⟨by omega, by simp [escapeChar, hLetter, hControl]⟩
    · refine Or.inr ⟨hLetter.1, ?_, by simp [escapeChar, hLetter, hControl]⟩
      simp only [not_or, Nat.not_lt] at hControl
      simp [isPlain, hControl]

section

variable {allowed : Nat} {block : Bool}

theorem Body.escapeChar {run : Nat} {c : Char} {cs : List Char} (hc : c ≠ '"')
    (h : Body '"' true allowed block 0 cs) :
    Body '"' true allowed block run (escapeChar c ++ cs) := by
  rcases escapeChar_cases c with ⟨e, hLetter, hWritten⟩ | ⟨-, hWritten⟩ | ⟨hBare, hPlain, hWritten⟩
  · rw [hWritten]
    have hPlain : ∀ pair ∈ letters, isPlain pair.1 = true := by decide
    exact .escape rfl (hPlain (e, c) hLetter) h
  · rw [hWritten]
    obtain ⟨hPlain, hQuote, hBare⟩ := capitalDigit_plain (c.toNat / 16)
    obtain ⟨hPlain', hQuote', hBare'⟩ := capitalDigit_plain c.toNat
    have hZero : isPlain '0' = true := by decide
    refine .escape rfl (by decide) (.plain (Or.inl hZero) (by decide) (fun _ => by decide) ?_)
    refine .plain (Or.inl hZero) (by decide) (fun _ => by decide) ?_
    exact .plain (Or.inl hPlain) hQuote (fun _ => hBare)
      (.plain (Or.inl hPlain') hQuote' (fun _ => hBare') h)
  · rw [hWritten]
    exact .plain (Or.inl hPlain) hc (fun _ => hBare) h

/-- **What is written between double quotes is a body.** -/
theorem body_escapeBody (allowed run : Nat) (block : Bool) (cs : List Char) :
    Body '"' true allowed block run (escapeBody allowed run block cs) := by
  induction cs generalizing run with
  | nil => exact .nil
  | cons c cs ih =>
      rw [escapeBody]
      split
      · next hQuote =>
        subst hQuote
        split
        · next hRoom => exact .quote hRoom (ih (run + 1))
        · exact .escape rfl (by decide) (ih 0)
      · next hQuote =>
        split
        · next hBreak =>
          obtain ⟨hBlock, hFeed⟩ : block = true ∧ c = '\n' := by simpa using hBreak
          exact .plain (Or.inr ⟨hBlock, hFeed⟩) hQuote (fun _ => by rw [hFeed]; decide) (ih 0)
        · exact Body.escapeChar hQuote (ih 0)

end

/-! ## Escapes -/

theorem unescape_plain {c : Char} (h : c ≠ '\\') (cs : List Char) :
    unescape .away (c :: cs) = (unescape .away cs).map (c :: ·) := by
  rw [unescape.eq_def]
  simp [h]

theorem unescape_letter {e d : Char} (h : (e, d) ∈ letters) (cs : List Char) :
    unescape .away ('\\' :: e :: cs) = (unescape .away cs).map (d :: ·) := by
  simp only [letters, List.mem_cons, Prod.mk.injEq, List.not_mem_nil, or_false] at h
  rcases h with ⟨rfl, rfl⟩ | ⟨rfl, rfl⟩ | ⟨rfl, rfl⟩ | ⟨rfl, rfl⟩ | ⟨rfl, rfl⟩ | ⟨rfl, rfl⟩ |
    ⟨rfl, rfl⟩
  all_goals
    rw [unescape.eq_def]
    cases h : unescape .away cs <;> simp [letterEscape?, h]

theorem hexNumber?_control : ∀ n < 0x80,
    (hexNumber? ['0', '0', capitalDigit (n / 16), capitalDigit n]).bind charOf? =
      some (Char.ofNat n) := by
  decide +kernel

/-- **An escape that is written for a character stands for it.** -/
theorem unescape_escapeChar (c : Char) (cs : List Char) :
    unescape .away (escapeChar c ++ cs) = (unescape .away cs).map (c :: ·) := by
  rcases escapeChar_cases c with ⟨e, hLetter, hWritten⟩ | ⟨hSmall, hWritten⟩ | ⟨hBare, -, hWritten⟩
  · rw [hWritten]
    exact unescape_letter hLetter cs
  · have hCode := hexNumber?_control c.toNat hSmall
    rw [Char.ofNat_toNat] at hCode
    rw [hWritten]
    simp only [List.cons_append, List.nil_append]
    rw [unescape.eq_def]
    simp only [hCode]
    cases unescape .away cs <;> rfl
  · rw [hWritten]
    exact unescape_plain hBare cs

/-- **Carrying out escapes undoes writing them.** -/
theorem unescape_escapeBody (allowed run : Nat) (block : Bool) (cs : List Char) :
    unescape .away (escapeBody allowed run block cs) = some cs := by
  induction cs generalizing run with
  | nil => rfl
  | cons c cs ih =>
      rw [escapeBody]
      split
      · next hQuote =>
        subst hQuote
        split
        · rw [unescape_plain (by decide), ih]
          rfl
        · rw [unescape_letter (d := '"') (by decide), ih]
          rfl
      split
      · next hBreak =>
        have hFeed : c = '\n' := by simpa using (Bool.and_eq_true_iff.1 hBreak).2
        rw [unescape_plain (by rw [hFeed]; decide), ih]
        rfl
      · rw [unescape_escapeChar, ih]
        rfl

/-! ## Texts in quotes -/

theorem write_basic (cs rest : List Char) : TextStyle.basic.write cs ++ rest =
    '"' :: (escapeBody 0 0 false cs ++ '"' :: rest) := by
  simp [TextStyle.write]

theorem write_literal (cs rest : List Char) :
    TextStyle.literal.write cs ++ rest = '\'' :: (cs ++ '\'' :: rest) := by
  simp [TextStyle.write]

theorem lineText?_basic (cs rest : List Char) :
    lineText? (TextStyle.basic.write cs ++ rest) = some (cs, rest) := by
  have hBody := lineBody_append (by decide) (body_escapeBody 0 0 false cs) rest
  rw [write_basic, lineText?, hBody]
  simp [unescaped?, unescape_escapeBody]

theorem lineText?_literal {cs : List Char} (h : Body '\'' false 0 false 0 cs) (rest : List Char) :
    lineText? (TextStyle.literal.write cs ++ rest) = some (cs, rest) := by
  rw [write_literal, lineText?]
  exact lineBody_append (by decide) h rest

theorem quoted?_eq_lineText? {quote : Char} {cs : List Char} (h : ∀ ds, cs ≠ quote :: quote :: ds) :
    quoted? (quote :: cs) = lineText? (quote :: cs) := by
  rw [quoted?.eq_def]
  split
  · next hEq => cases hEq; exact absurd rfl (h _)
  · next hEq => cases hEq; exact absurd rfl (h _)
  · rfl

/-- On one line, the opening quote is not tripled unless a quote follows the text. -/
theorem Body.not_tripled {quote : Char} {escapes : Bool} {run : Nat} {cs rest : List Char}
    (h : Body quote escapes 0 false run cs) (hQuote : quote ≠ '\\')
    (hRest : rest.head? ≠ some quote) (ds : List Char) :
    cs ++ quote :: rest ≠ quote :: quote :: ds := by
  intro hEq
  cases h with
  | nil =>
      obtain ⟨-, rfl⟩ := List.cons.inj hEq
      exact hRest rfl
  | quote room => exact absurd room (Nat.not_lt_zero _)
  | plain _ other => exact other (List.cons.inj hEq).1
  | escape => exact hQuote (List.cons.inj hEq).1.symm

/-- A text does not begin with a line break. -/
def NoBreakFirst (cs : List Char) : Prop := cs.head? ≠ some '\n' ∧ cs.head? ≠ some '\r'

/-- The line break that is written in front of several lines is dropped, and no other. -/
theorem dropFirstBreak_written (lines : Bool) (cs : List Char)
    (h : lines = false → NoBreakFirst cs) :
    dropFirstBreak ((if lines then ['\n'] else []) ++ cs) = cs := by
  cases lines with
  | true => rfl
  | false =>
      obtain ⟨hFeed, hReturn⟩ := h rfl
      show dropFirstBreak cs = cs
      rw [dropFirstBreak.eq_def]
      split
      · exact absurd rfl hFeed
      · exact absurd rfl hReturn
      · rfl

theorem noBreakFirst_escapeBody {allowed run : Nat} {block : Bool} {cs : List Char}
    (h : '\n' ∉ cs) (rest : List Char) :
    NoBreakFirst (escapeBody allowed run block cs ++ '"' :: rest) := by
  cases cs with
  | nil => exact ⟨by simp [escapeBody], by simp [escapeBody]⟩
  | cons c cs =>
      have hFeed : c ≠ '\n' := fun hEq => h (hEq ▸ List.mem_cons_self)
      rw [escapeBody]
      split
      · next hQuote =>
        subst hQuote
        split <;> exact ⟨by simp, by simp⟩
      · rw [if_neg (by simp [hFeed])]
        rcases escapeChar_cases c with ⟨e, -, hWritten⟩ | ⟨-, hWritten⟩ | ⟨-, hPlain, hWritten⟩
        · rw [hWritten]
          exact ⟨by simp, by simp⟩
        · rw [hWritten]
          exact ⟨by simp, by simp⟩
        · have hReturn : c ≠ '\r' := by
            rintro rfl
            exact absurd hPlain (by decide)
          rw [hWritten]
          exact ⟨by simpa using hFeed, by simpa using hReturn⟩

theorem noBreakFirst_of_not_isControl {cs : List Char} (hControl : cs.any isControl = false)
    (h : '\n' ∉ cs) {rest : List Char} (hRest : NoBreakFirst rest) : NoBreakFirst (cs ++ rest) := by
  cases cs with
  | nil => exact hRest
  | cons c cs =>
      have hFeed : c ≠ '\n' := fun hEq => h (hEq ▸ List.mem_cons_self)
      have hReturn : c ≠ '\r' := by
        rintro rfl
        simp [isControl] at hControl
      exact ⟨by simpa using hFeed, by simpa using hReturn⟩

theorem quoted?_basicBlock (cs : List Char) {rest : List Char} (hRest : rest.head? ≠ some '"') :
    quoted? (TextStyle.basicBlock.write cs ++ rest) = some (cs, rest) := by
  have hWritten : TextStyle.basicBlock.write cs ++ rest = '"' :: '"' :: '"' ::
      ((if cs.contains '\n' then ['\n'] else []) ++
        (escapeBody 2 0 true cs ++ '"' :: '"' :: '"' :: rest)) := by
    simp [TextStyle.write, blockQuoted]
  have hDrop := dropFirstBreak_written (cs.contains '\n')
    (escapeBody 2 0 true cs ++ '"' :: '"' :: '"' :: rest) fun hLines =>
      noBreakFirst_escapeBody (by simpa using hLines) _
  rw [hWritten, quoted?, hDrop, blockBody_append (by decide) (body_escapeBody 2 0 true cs) hRest]
  simp [unescaped?, unescape_escapeBody]

theorem quoted?_literalBlock {cs : List Char} (hControl : cs.any isControl = false)
    (h : Body '\'' false 2 true 0 cs) {rest : List Char} (hRest : rest.head? ≠ some '\'') :
    quoted? (TextStyle.literalBlock.write cs ++ rest) = some (cs, rest) := by
  have hWritten : TextStyle.literalBlock.write cs ++ rest = '\'' :: '\'' :: '\'' ::
      ((if cs.contains '\n' then ['\n'] else []) ++
        (cs ++ '\'' :: '\'' :: '\'' :: rest)) := by
    simp [TextStyle.write, blockQuoted]
  have hDrop := dropFirstBreak_written (cs.contains '\n')
    (cs ++ '\'' :: '\'' :: '\'' :: rest) fun hLines =>
      noBreakFirst_of_not_isControl hControl (by simpa using hLines) ⟨by simp, by simp⟩
  rw [hWritten, quoted?, hDrop]
  exact blockBody_append (by decide) h hRest

theorem TextStyle.ofValue_cases (cs : List Char) :
    ofValue cs = .basic ∨ ofValue cs = .basicBlock ∨
      (ofValue cs = .literal ∧ Body '\'' false 0 false 0 cs) ∨
      (ofValue cs = .literalBlock ∧ cs.any isControl = false ∧ Body '\'' false 2 true 0 cs) := by
  rw [ofValue]
  split
  · exact Or.inl rfl
  split
  · next hLiteral =>
    simp only [Bool.and_eq_true, Bool.not_eq_true', beq_iff_eq, List.contains_eq_mem,
      decide_eq_false_iff_not] at hLiteral
    exact Or.inr (Or.inr (Or.inl ⟨rfl, body_of_longestRun hLiteral.1.1 (Or.inr hLiteral.2)
      (by omega)⟩))
  split
  · exact Or.inr (Or.inl rfl)
  split
  · next hLiteral =>
    simp only [Bool.and_eq_true, Bool.not_eq_true', decide_eq_true_eq] at hLiteral
    exact Or.inr (Or.inr (Or.inr ⟨rfl, hLiteral.1, body_of_longestRun hLiteral.1 (Or.inl rfl)
      hLiteral.2⟩))
  split
  · exact Or.inr (Or.inl rfl)
  · exact Or.inl rfl

/-- No quote comes first. -/
def NoQuoteFirst (cs : List Char) : Prop := cs.head? ≠ some '"' ∧ cs.head? ≠ some '\''

/-- **A written text reads back**, whatever characters are in it. -/
theorem quoted?_writeText (s : String) {rest : List Char} (h : NoQuoteFirst rest) :
    quoted? (writeText s ++ rest) = some (s.toList, rest) := by
  rw [writeText]
  rcases TextStyle.ofValue_cases s.toList with
    hStyle | hStyle | ⟨hStyle, hBody⟩ | ⟨hStyle, hControl, hBody⟩
  · have hBody := body_escapeBody 0 0 false s.toList
    rw [hStyle, write_basic, quoted?_eq_lineText? (hBody.not_tripled (by decide) h.1),
      ← write_basic, lineText?_basic]
  · rw [hStyle, quoted?_basicBlock _ h.1]
  · rw [hStyle, write_literal, quoted?_eq_lineText? (hBody.not_tripled (by decide) h.2),
      ← write_literal, lineText?_literal hBody]
  · rw [hStyle, quoted?_literalBlock hControl hBody h.2]

theorem writeText_eq_cons (s : String) :
    ∃ quote cs, writeText s = quote :: cs ∧ (quote = '"' ∨ quote = '\'') := by
  rw [writeText]
  cases TextStyle.ofValue s.toList with
  | basic => exact ⟨_, _, rfl, Or.inl rfl⟩
  | literal => exact ⟨_, _, rfl, Or.inr rfl⟩
  | basicBlock => exact ⟨_, _, rfl, Or.inl rfl⟩
  | literalBlock => exact ⟨_, _, rfl, Or.inr rfl⟩

end CoverRun.Toml

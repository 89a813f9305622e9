import CoverRun.Proofs.Toml.Value
import Mathlib.Data.List.Forall2

/-!
# Written lines read back

Each line that is written is read as one statement, and a text of such lines as the statements of
all of them in order (`Says`). Each statement takes up a character at least, so the steps that the
reader counts are enough.
-/

namespace CoverRun.Toml

/-! ## Lines -/

theorem afterLine?_name {c : Char} (h : BeginsName c) (cs : List Char) :
    afterLine? (c :: cs) = none := by
  rw [afterLine?, skipBlanks_cons h.isLineBlank]
  split
  · next hEq => cases hEq
  · next hEq => exact absurd (List.cons.inj hEq).1 (h.ne (by decide))
  · next hEq => exact absurd (List.cons.inj hEq).1 (h.ne (by decide))
  · next hEq => exact absurd (List.cons.inj hEq).1 (h.ne (by decide))
  · rfl

theorem statement?_blank (fuel : Nat) (rest : List Char) :
    statement? fuel ('\n' :: rest) = some (.blank, rest) := rfl

/-- **A line that gives a name a value is read as an assignment.** -/
theorem statement?_line (name : String) {cs : List Char} {v : Value} (h : Writes cs v) {fuel : Nat}
    (hFuel : 2 * cs.length ≤ fuel) (rest : List Char) :
    statement? fuel (writeLine name cs ++ rest) = some (.assignment [name] v, rest) := by
  obtain ⟨b, bs, hCons, hBegins⟩ := writeName_eq_cons name
  obtain ⟨c, ds, hValue, hBlank⟩ := h.begins
  have hText : writeLine name cs ++ rest =
      writeKey [name] ++ ' ' :: '=' :: ' ' :: (cs ++ '\n' :: rest) := by
    simp [writeLine, writeKey, List.intercalate]
  have hKey : key? nestingLimit (writeKey [name] ++ ' ' :: '=' :: ' ' :: (cs ++ '\n' :: rest)) =
      some ([name], '=' :: ' ' :: (cs ++ '\n' :: rest)) := by
    rw [key?_writeKey (List.cons_ne_nil name []) (by simp [nestingLimit])]
    · rfl
    · rintro d ⟨⟩
      decide
    · simp [skipBlanks, isLineBlank]
  have hFirst : writeKey [name] = b :: bs := by simp [writeKey, List.intercalate, hCons]
  have hSkip : skipBlanks (' ' :: (cs ++ '\n' :: rest)) = cs ++ '\n' :: rest := by
    rw [skipBlanks_blank (by decide), hValue]
    exact skipBlanks_cons hBlank _
  rw [hText]
  rw [hFirst, List.cons_append] at hKey ⊢
  rw [statement?, skipBlanks_cons hBegins.isLineBlank]
  split
  · next hEq => exact absurd (List.cons.inj hEq).1 (hBegins.ne (by decide))
  · next hEq => exact absurd (List.cons.inj hEq).1 (hBegins.ne (by decide))
  · rw [afterLine?_name hBegins, hKey]
    simp only [Option.bind_eq_bind, Option.bind_some]
    rw [hSkip, h.reads fuel hFuel rest]
    rfl

/-- **A header is read as opening its table.** -/
theorem statement?_header {key : Key} (hne : key ≠ []) (hLimit : key.length ≤ nestingLimit)
    (fuel : Nat) (rest : List Char) :
    statement? fuel (writeHeader key ++ rest) = some (.table key, rest) := by
  obtain ⟨c, cs, hCons, hBegins⟩ := writeKey_eq_cons hne
  have hText : writeHeader key ++ rest = '[' :: (writeKey key ++ ']' :: '\n' :: rest) := by
    simp [writeHeader, writeKey]
  have hKey : key? nestingLimit (writeKey key ++ ']' :: '\n' :: rest) =
      some (key, ']' :: '\n' :: rest) :=
    key?_writeKey hne hLimit (by rintro d ⟨⟩; decide) (by simp [skipBlanks, isLineBlank])
  rw [hText, statement?, skipBlanks_cons (by decide)]
  split
  · next hEq =>
    rw [hCons] at hEq
    exact absurd (List.cons.inj (List.cons.inj hEq).2).1 (hBegins.ne (by decide))
  · next hEq =>
    obtain rfl := (List.cons.inj hEq).2
    rw [hKey]
    rfl
  · next hNot => exact absurd rfl (hNot _)

/-- **A double header is read as opening a row.** -/
theorem statement?_rowHeader {key : Key} (hne : key ≠ []) (hLimit : key.length ≤ nestingLimit)
    (fuel : Nat) (rest : List Char) :
    statement? fuel (writeRowHeader key ++ rest) = some (.row key, rest) := by
  have hText : writeRowHeader key ++ rest =
      '[' :: '[' :: (writeKey key ++ ']' :: ']' :: '\n' :: rest) := by
    simp [writeRowHeader, writeKey]
  have hKey : key? nestingLimit (writeKey key ++ ']' :: ']' :: '\n' :: rest) =
      some (key, ']' :: ']' :: '\n' :: rest) :=
    key?_writeKey hne hLimit (by rintro d ⟨⟩; decide) (by simp [skipBlanks, isLineBlank])
  rw [hText, statement?, skipBlanks_cons (by decide)]
  split
  · next hEq =>
    obtain rfl := (List.cons.inj (List.cons.inj hEq).2).2
    rw [hKey]
    rfl
  · next hNot hEq => exact absurd (List.cons.inj hEq).2.symm (hNot _)
  · next hNot _ => exact absurd rfl (hNot _)

/-! ## Texts of lines -/

/-- A text of whole lines is read as statements, whatever follows. -/
structure Says (cs : List Char) (ss : List Statement) : Prop where
  short : ss.length ≤ cs.length
  reads : ∀ fuel rest, 2 * (cs.length + rest.length) + 2 ≤ fuel →
    statements? fuel (cs ++ rest) = (statements? (fuel - ss.length) rest).map (ss ++ ·)

theorem says_nil : Says [] [] := by
  refine ⟨Nat.le_refl 0, fun fuel rest _ => ?_⟩
  simp

theorem says_single {cs : List Char} {s : Statement} (hne : cs ≠ [])
    (h : ∀ fuel, 2 * cs.length ≤ fuel → ∀ rest, statement? fuel (cs ++ rest) = some (s, rest)) :
    Says cs [s] := by
  obtain ⟨c, ds, hCons⟩ := List.exists_cons_of_ne_nil hne
  refine ⟨by rw [hCons]; simp, fun fuel rest hFuel => ?_⟩
  obtain ⟨fuel, rfl⟩ : ∃ more, fuel = more + 1 := ⟨fuel - 1, by omega⟩
  have hRead := h (fuel + 1) (by omega) rest
  rw [hCons, List.cons_append] at hRead ⊢
  rw [statements?, hRead, List.length_singleton, Nat.add_sub_cancel]
  simp only [Option.bind_eq_bind, Option.bind_some]
  cases statements? fuel rest <;> rfl

theorem Says.append {cs cs' : List Char} {ss ss' : List Statement} (h : Says cs ss)
    (h' : Says cs' ss') : Says (cs ++ cs') (ss ++ ss') := by
  have hShort := h.short
  have hShort' := h'.short
  refine ⟨by simp only [List.length_append]; omega, fun fuel rest hFuel => ?_⟩
  rw [List.length_append] at hFuel
  have hFirst : 2 * (cs.length + (cs' ++ rest).length) + 2 ≤ fuel := by
    rw [List.length_append]
    omega
  have hSteps : fuel - ss.length - ss'.length = fuel - (ss ++ ss').length := by
    rw [List.length_append]
    omega
  rw [List.append_assoc, h.reads fuel _ hFirst, h'.reads (fuel - ss.length) rest (by omega), hSteps,
    Option.map_map]
  simp [Function.comp_def]

theorem says_line (name : String) {cs : List Char} {v : Value} (h : Writes cs v) :
    Says (writeLine name cs) [.assignment [name] v] := by
  refine says_single (by simp [writeLine]) fun fuel hFuel rest => statement?_line name h ?_ rest
  have hLength : cs.length ≤ (writeLine name cs).length := by simp [writeLine]; omega
  omega

theorem says_header {key : Key} (hne : key ≠ []) (hLimit : key.length ≤ nestingLimit) :
    Says (writeHeader key) [.table key] :=
  says_single (List.cons_ne_nil _ _) fun fuel _ rest => statement?_header hne hLimit fuel rest

theorem says_rowHeader {key : Key} (hne : key ≠ []) (hLimit : key.length ≤ nestingLimit) :
    Says (writeRowHeader key) [.row key] :=
  says_single (List.cons_ne_nil _ _) fun fuel _ rest => statement?_rowHeader hne hLimit fuel rest

theorem says_blank : Says ['\n'] [.blank] :=
  says_single (List.cons_ne_nil _ _) fun fuel _ rest => statement?_blank fuel rest

/-- Blocks say what each of them says, with blank lines between. -/
theorem says_blocks {blocks : List (List Char)} {sss : List (List Statement)}
    (h : List.Forall₂ Says blocks sss) :
    Says (writeBlocks blocks) ([Statement.blank].intercalate sss) := by
  induction h with
  | nil => exact says_nil
  | @cons block ss blocks sss hHere hRest ih =>
      cases hRest with
      | nil => simpa [writeBlocks, List.intercalate] using hHere
      | @cons next ss' blocks sss hNext hMore =>
          have hText : writeBlocks (block :: next :: blocks) =
              block ++ (['\n'] ++ writeBlocks (next :: blocks)) := by
            simp [writeBlocks, List.intercalate]
          have hStatements : [Statement.blank].intercalate (ss :: ss' :: sss) =
              ss ++ ([.blank] ++ [Statement.blank].intercalate (ss' :: sss)) := by
            simp [List.intercalate]
          rw [hText, hStatements]
          exact hHere.append (says_blank.append ih)

/-- **A text of lines is the document that its statements make.** -/
theorem document?_of_says {cs : List Char} {ss : List Statement} (h : Says cs ss)
    (hMark : cs.head? ≠ some '\uFEFF') :
    document? (String.ofList cs) = (ss.foldlM Draft.add? ⟨[], []⟩).map (·.members) := by
  have hShort := h.short
  have hNoMark : dropMark cs = cs := by
    rw [dropMark.eq_def]
    split
    · exact absurd rfl hMark
    · rfl
  have hRead := h.reads (2 * cs.length + 2) [] (by simp)
  have hEnd : statements? (2 * cs.length + 2 - ss.length) [] = some [] := by
    obtain ⟨fuel, hFuel⟩ : ∃ more, 2 * cs.length + 2 - ss.length = more + 1 :=
      ⟨2 * cs.length + 1 - ss.length, by omega⟩
    rw [hFuel, statements?]
  rw [List.append_nil, hEnd, Option.map_some, List.append_nil] at hRead
  rw [document?, String.toList_ofList, hNoMark, hRead, Option.bind_eq_bind, Option.bind_some]
  cases List.foldlM Draft.add? ⟨[], []⟩ ss <;> rfl

end CoverRun.Toml

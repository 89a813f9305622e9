import CoverRun.Glob
import CoverRun.Proofs.Path
import Mathlib.Data.List.Forall2

/-!
# What globs match

Tokens for characters within a component never match a separator, so where such tokens end in a
text is where its first piece ends. Tokens of several components, with a separator between, match a
text exactly if its pieces match component by component (`Glob.matchesChars_joined_iff`).
-/

namespace CoverRun.Glob

open CoverRun.Path

/-! ## Token by token -/

theorem mem_withinComponent {cs rest : List Char} :
    rest ∈ withinComponent cs ↔ ∃ run, cs = run ++ rest ∧ '/' ∉ run := by
  induction cs with
  | nil =>
      rw [withinComponent, List.mem_singleton]
      constructor
      · rintro rfl
        exact ⟨[], rfl, List.not_mem_nil⟩
      · rintro ⟨run, hRun, -⟩
        exact (List.append_eq_nil_iff.1 hRun.symm).2
  | cons c cs ih =>
      rw [withinComponent]
      split
      · next hSlash =>
        subst hSlash
        rw [List.mem_singleton]
        constructor
        · rintro rfl
          exact ⟨[], rfl, List.not_mem_nil⟩
        · rintro ⟨run, hRun, hInside⟩
          cases run with
          | nil => exact hRun.symm
          | cons d run =>
              obtain ⟨rfl, -⟩ := List.cons_eq_cons.1 hRun
              exact absurd List.mem_cons_self hInside
      · next hOther =>
        rw [List.mem_cons, ih]
        constructor
        · rintro (rfl | ⟨run, rfl, hInside⟩)
          · exact ⟨[], rfl, List.not_mem_nil⟩
          · exact ⟨c :: run, rfl, by simpa [Ne.symm hOther] using hInside⟩
        · rintro ⟨run, hRun, hInside⟩
          cases run with
          | nil => exact Or.inl hRun.symm
          | cons d run =>
              obtain ⟨rfl, rfl⟩ := List.cons_eq_cons.1 hRun
              exact Or.inr ⟨run, rfl, fun hMem => hInside (List.mem_cons_of_mem c hMem)⟩

theorem matchesChars_anySequence_iff {ts : List Token} {cs : List Char} :
    matchesChars (.anySequence :: ts) cs = true ↔
      ∃ run rest, cs = run ++ rest ∧ '/' ∉ run ∧ matchesChars ts rest = true := by
  rw [matchesChars, List.any_eq_true]
  constructor
  · rintro ⟨rest, hRest, hMatches⟩
    obtain ⟨run, hRun, hInside⟩ := mem_withinComponent.1 hRest
    exact ⟨run, rest, hRun, hInside, hMatches⟩
  · rintro ⟨run, rest, hRun, hInside, hMatches⟩
    exact ⟨rest, mem_withinComponent.2 ⟨run, hRun, hInside⟩, hMatches⟩

theorem matchesChars_one_iff {t : Token} (hSequence : t ≠ .anySequence)
    (hComponents : t ≠ .anyComponents) {ts : List Token} {cs : List Char} :
    matchesChars (t :: ts) cs = true ↔
      ∃ c rest, cs = c :: rest ∧ t.holds c = true ∧ matchesChars ts rest = true := by
  have hNil : matchesChars (t :: ts) [] = false := by
    cases t <;> first | rfl | exact absurd rfl hSequence | exact absurd rfl hComponents
  have hCons (c : Char) (rest : List Char) :
      matchesChars (t :: ts) (c :: rest) = (t.holds c && matchesChars ts rest) := by
    cases t <;> first | rfl | exact absurd rfl hSequence | exact absurd rfl hComponents
  cases cs with
  | nil => simp [hNil]
  | cons c cs => simp [hCons]

/-! ## Within a component -/

/-- A token that stands for characters within a component. -/
def Token.IsInner (t : Token) : Prop := t ≠ .char '/' ∧ t ≠ .anyComponents

theorem Token.IsInner.ne_of_holds {t : Token} (h : t.IsInner) {c : Char}
    (hHolds : t.holds c = true) :
    c ≠ '/' := by
  rintro rfl
  cases t with
  | char d =>
      obtain rfl : '/' = d := by simpa [Token.holds] using hHolds
      exact h.1 rfl
  | anyChar => simp [Token.holds] at hHolds
  | anyOf items => simp [Token.holds] at hHolds
  | noneOf items => simp [Token.holds] at hHolds
  | anySequence => simp [Token.holds] at hHolds
  | anyComponents => simp [Token.holds] at hHolds

/-- **Tokens within a component match a first part of the text without separators**, and what
follows them the rest. -/
theorem matchesChars_append_iff {ts : List Token} (h : ∀ t ∈ ts, t.IsInner) {us : List Token}
    {cs : List Char} : matchesChars (ts ++ us) cs = true ↔ ∃ as bs, cs = as ++ bs ∧ '/' ∉ as ∧
      matchesChars ts as = true ∧ matchesChars us bs = true := by
  induction ts generalizing cs with
  | nil =>
      constructor
      · intro hMatches
        exact ⟨[], cs, rfl, List.not_mem_nil, rfl, hMatches⟩
      · rintro ⟨as, bs, rfl, -, hEmpty, hMatches⟩
        obtain rfl : as = [] := by simpa [matchesChars] using hEmpty
        exact hMatches
  | cons t ts ih =>
      obtain ⟨hInner, hRest⟩ := List.forall_mem_cons.1 h
      rw [List.cons_append]
      by_cases hSequence : t = .anySequence
      · subst hSequence
        rw [matchesChars_anySequence_iff]
        constructor
        · rintro ⟨run, rest, rfl, hRun, hMatches⟩
          obtain ⟨as, bs, rfl, hInside, hFirst, hLast⟩ := (ih hRest).1 hMatches
          refine ⟨run ++ as, bs, by rw [List.append_assoc], ?_, ?_, hLast⟩
          · exact fun hMem => (List.mem_append.1 hMem).elim hRun hInside
          · exact matchesChars_anySequence_iff.2 ⟨run, as, rfl, hRun, hFirst⟩
        · rintro ⟨as, bs, rfl, hInside, hFirst, hLast⟩
          obtain ⟨run, rest, rfl, hRun, hMatches⟩ := matchesChars_anySequence_iff.1 hFirst
          refine ⟨run, rest ++ bs, by rw [List.append_assoc], hRun, (ih hRest).2 ?_⟩
          exact ⟨rest, bs, rfl, fun hMem => hInside (List.mem_append_right run hMem), hMatches,
            hLast⟩
      · rw [matchesChars_one_iff hSequence hInner.2]
        constructor
        · rintro ⟨c, rest, rfl, hHolds, hMatches⟩
          obtain ⟨as, bs, rfl, hInside, hFirst, hLast⟩ := (ih hRest).1 hMatches
          refine ⟨c :: as, bs, rfl, ?_, ?_, hLast⟩
          · simpa [Ne.symm (hInner.ne_of_holds hHolds)] using hInside
          · exact (matchesChars_one_iff hSequence hInner.2).2 ⟨c, as, rfl, hHolds, hFirst⟩
        · rintro ⟨as, bs, rfl, hInside, hFirst, hLast⟩
          obtain ⟨c, rest, rfl, hHolds, hMatches⟩ :=
            (matchesChars_one_iff hSequence hInner.2).1 hFirst
          refine ⟨c, rest ++ bs, rfl, hHolds, (ih hRest).2 ?_⟩
          exact ⟨rest, bs, rfl, fun hMem => hInside (List.mem_cons_of_mem c hMem), hMatches, hLast⟩

theorem slash_not_mem_of_matchesChars {ts : List Token} (h : ∀ t ∈ ts, t.IsInner) {cs : List Char}
    (hMatches : matchesChars ts cs = true) : '/' ∉ cs := by
  rw [← List.append_nil ts, matchesChars_append_iff h] at hMatches
  obtain ⟨as, bs, rfl, hInside, -, hLast⟩ := hMatches
  obtain rfl : bs = [] := by simpa [matchesChars] using hLast
  simpa using hInside

/-- Tokens within a component that match nothing at all match every text without separators. -/
theorem matchesChars_of_empty {ts : List Token} (h : ∀ t ∈ ts, t.IsInner) (hne : ts ≠ [])
    (hEmpty : matchesChars ts [] = true) {cs : List Char} (hInside : '/' ∉ cs) :
    matchesChars ts cs = true := by
  obtain ⟨t, ts, rfl⟩ := List.exists_cons_of_ne_nil hne
  by_cases hSequence : t = .anySequence
  · subst hSequence
    obtain ⟨run, rest, hRun, -, hMatches⟩ := matchesChars_anySequence_iff.1 hEmpty
    obtain ⟨rfl, rfl⟩ := List.append_eq_nil_iff.1 hRun.symm
    exact matchesChars_anySequence_iff.2 ⟨cs, [], by rw [List.append_nil], hInside, hMatches⟩
  · obtain ⟨c, rest, hCons, -⟩ :=
      (matchesChars_one_iff hSequence (h t List.mem_cons_self).2).1 hEmpty
    cases hCons

/-! ## Component by component -/

/-- The tokens of components with a separator between. -/
def joined (tss : List (List Token)) : List Token := [Token.char '/'].intercalate tss

theorem joined_cons_cons (ts ts' : List Token) (tss : List (List Token)) :
    joined (ts :: ts' :: tss) = ts ++ .char '/' :: joined (ts' :: tss) := by
  rw [joined, List.intercalate_cons_cons, List.append_assoc]
  rfl

/-- **Tokens of components match component by component.** -/
theorem matchesChars_joined_iff {tss : List (List Token)} (h : ∀ ts ∈ tss, ∀ t ∈ ts, t.IsInner)
    (hne : tss ≠ []) {cs : List Char} : matchesChars (joined tss) cs = true ↔
      List.Forall₂ (fun ts piece => matchesChars ts piece = true) tss (pieces '/' cs) := by
  induction tss generalizing cs with
  | nil => exact absurd rfl hne
  | cons ts tss ih =>
      obtain ⟨hInner, hRest⟩ := List.forall_mem_cons.1 h
      cases tss with
      | nil =>
          have hAlone : joined [ts] = ts := by simp [joined]
          rw [hAlone]
          by_cases hSlash : '/' ∈ cs
          · obtain ⟨p, rest, rfl, hInside⟩ := List.eq_append_cons_of_mem hSlash
            obtain ⟨q, qs, hCons⟩ := List.exists_cons_of_ne_nil (pieces_ne_nil rest)
            rw [pieces_append, pieces_of_not_mem hInside, hCons]
            refine iff_of_false (fun hMatches => ?_) (by simp)
            exact slash_not_mem_of_matchesChars hInner hMatches hSlash
          · rw [pieces_of_not_mem hSlash]
            simp
      | cons ts' tss =>
          rw [joined_cons_cons, matchesChars_append_iff hInner]
          constructor
          · rintro ⟨as, bs, rfl, hInside, hFirst, hLast⟩
            obtain ⟨c, rest, rfl, hHolds, hMatches⟩ :=
              (matchesChars_one_iff (by simp) (by simp)).1 hLast
            obtain rfl : c = '/' := by simpa [Token.holds] using hHolds
            rw [pieces_append, pieces_of_not_mem hInside]
            exact .cons hFirst ((ih hRest (List.cons_ne_nil ts' tss)).1 hMatches)
          · intro hPieces
            by_cases hSlash : '/' ∈ cs
            · obtain ⟨p, rest, rfl, hInside⟩ := List.eq_append_cons_of_mem hSlash
              rw [pieces_append, pieces_of_not_mem hInside, List.singleton_append,
                List.forall₂_cons] at hPieces
              refine ⟨p, '/' :: rest, rfl, hInside, hPieces.1, ?_⟩
              refine (matchesChars_one_iff (by simp) (by simp)).2 ⟨'/', rest, rfl, rfl, ?_⟩
              exact (ih hRest (List.cons_ne_nil ts' tss)).2 hPieces.2
            · rw [pieces_of_not_mem hSlash] at hPieces
              simpa using hPieces.length_eq

end CoverRun.Glob

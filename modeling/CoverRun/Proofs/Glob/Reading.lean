import CoverRun.Proofs.Glob

/-!
# Globs component by component

A component that is a pattern alone, other than `**`, is spelled token by token and needs nothing
of what comes before or after it (`Glob.spells_of_readFrom`). So such components with separators
between are read as their tokens with separators between (`Glob.readFrom_intercalate`).

A pattern without classes matches its own text (`Glob.accepts_self`): each character is
matched by the token that it was read as, and `**` matches itself as a component.
-/

namespace CoverRun.Glob

open CoverRun.Path

/-! ## Classes -/

theorem classBody?_append {cs body rest : List Char} (h : classBody? cs = some (body, rest))
    (tail : List Char) : classBody? (cs ++ tail) = some (body, rest ++ tail) := by
  cases cs with
  | nil => cases h
  | cons c cs =>
      rw [classBody?] at h
      rw [List.cons_append, classBody?]
      cases hClose : cs.dropWhile (· != ']') with
      | nil =>
          rw [hClose] at h
          cases h
      | cons close after =>
          rw [hClose] at h
          cases h
          have hLength : (cs.takeWhile (· != ']')).length ≠ cs.length := by
            intro hAll
            have hSplit := congrArg List.length (List.takeWhile_append_dropWhile (p := (· != ']'))
              (l := cs))
            rw [List.length_append, hAll, hClose, List.length_cons] at hSplit
            omega
          rw [List.dropWhile_append, List.takeWhile_append, hClose, if_neg hLength]
          rfl

/-- A class ends at its first bracket, whatever comes after that. -/
theorem class?_append {cs rest : List Char} {t : Token} (h : class? cs = some (t, rest))
    (tail : List Char) : class? (cs ++ tail) = some (t, rest ++ tail) := by
  rw [class?.eq_def] at h
  split at h
  · obtain ⟨⟨body, after⟩, hBody, hEq⟩ := Option.map_eq_some_iff.1 h
    cases hEq
    rw [List.cons_append, class?, classBody?_append hBody tail]
    rfl
  · next hNot =>
    obtain ⟨⟨body, after⟩, hBody, hEq⟩ := Option.map_eq_some_iff.1 h
    cases hEq
    cases cs with
    | nil => cases hBody
    | cons c cs =>
        have hBang : c ≠ '!' := fun hEq => hNot cs (by rw [hEq])
        rw [List.cons_append, class?, ← List.cons_append, classBody?_append hBody tail]
        · rfl
        · rintro cs' hEq
          exact hBang (List.head_eq_of_cons_eq hEq)

theorem suffix_of_classBody? {cs body rest : List Char} (h : classBody? cs = some (body, rest)) :
    rest <:+ cs := by
  cases cs with
  | nil => cases h
  | cons c cs =>
      rw [classBody?] at h
      cases hClose : cs.dropWhile (· != ']') with
      | nil =>
          rw [hClose] at h
          cases h
      | cons close after =>
          rw [hClose] at h
          cases h
          have hAfter : rest <:+ cs.dropWhile (· != ']') := hClose ▸ List.suffix_cons close rest
          exact (hAfter.trans (List.dropWhile_suffix _)).trans (List.suffix_cons c cs)

theorem suffix_of_class? {cs rest : List Char} {t : Token} (h : class? cs = some (t, rest)) :
    rest <:+ cs := by
  rw [class?.eq_def] at h
  split at h
  · next cs =>
    obtain ⟨r, hBody, hEq⟩ := Option.map_eq_some_iff.1 h
    cases hEq
    exact (suffix_of_classBody? hBody).trans (List.suffix_cons '!' cs)
  · obtain ⟨r, hBody, hEq⟩ := Option.map_eq_some_iff.1 h
    cases hEq
    exact suffix_of_classBody? hBody

theorem isInner_of_class? {cs rest : List Char} {t : Token} (h : class? cs = some (t, rest)) :
    t.IsInner := by
  rw [class?.eq_def] at h
  split at h
  · obtain ⟨r, -, hEq⟩ := Option.map_eq_some_iff.1 h
    cases hEq
    exact ⟨Token.noConfusion, Token.noConfusion⟩
  · obtain ⟨r, -, hEq⟩ := Option.map_eq_some_iff.1 h
    cases hEq
    exact ⟨Token.noConfusion, Token.noConfusion⟩

/-! ## Components -/

/-- How the characters of a component spell tokens. -/
inductive Spells : List Char → List Token → Prop
  | nil : Spells [] []
  | anyChar {cs : List Char} {ts : List Token} (rest : Spells cs ts) :
      Spells ('?' :: cs) (.anyChar :: ts)
  | anySequence {cs : List Char} {ts : List Token} (single : cs.head? ≠ some '*')
      (rest : Spells cs ts) : Spells ('*' :: cs) (.anySequence :: ts)
  | oneOf {cs after : List Char} {t : Token} {ts : List Token} (body : class? cs = some (t, after))
      (rest : Spells after ts) : Spells ('[' :: cs) (t :: ts)
  | char {c : Char} {cs : List Char} {ts : List Token} (plain : c ∉ ['?', '*', '[', '/'])
      (rest : Spells cs ts) : Spells (c :: cs) (.char c :: ts)

namespace Spells

theorem isInner {cs : List Char} {ts : List Token} (h : Spells cs ts) : ∀ t ∈ ts, t.IsInner := by
  induction h with
  | nil => exact List.forall_mem_nil _
  | anyChar _ ih => exact List.forall_mem_cons.2 ⟨⟨Token.noConfusion, Token.noConfusion⟩, ih⟩
  | anySequence _ _ ih => exact List.forall_mem_cons.2 ⟨⟨Token.noConfusion, Token.noConfusion⟩, ih⟩
  | oneOf body _ ih => exact List.forall_mem_cons.2 ⟨isInner_of_class? body, ih⟩
  | @char c _ _ plain _ ih =>
      refine List.forall_mem_cons.2 ⟨⟨fun hEq => ?_, Token.noConfusion⟩, ih⟩
      obtain rfl := Token.char.inj hEq
      exact plain (by decide)

theorem ne_nil {cs : List Char} {ts : List Token} (h : Spells cs ts) (hne : cs ≠ []) :
    ts ≠ [] := by
  cases h with
  | nil => exact absurd rfl hne
  | _ => exact List.cons_ne_nil _ _

/-- **Spelled tokens are read one after another**, and reading goes on after them, at a separator
or at the end. -/
theorem readFrom {cs : List Char} {ts : List Token} (h : Spells cs ts) (tail : List Char)
    (hTail : tail.head? ≠ some '*') (position : Nat) (fresh : Bool) (done : List Token) :
    ∃ position' fresh', readFrom position fresh done (cs ++ tail) =
      Glob.readFrom position' fresh' (ts.reverse ++ done) tail := by
  induction h generalizing position fresh done with
  | nil => exact ⟨position, fresh, rfl⟩
  | anyChar _ ih =>
      obtain ⟨position', fresh', hRead⟩ := ih (position + 1) false (.anyChar :: done)
      refine ⟨position', fresh', ?_⟩
      rw [List.cons_append, Glob.readFrom, hRead, List.reverse_cons, List.append_assoc]
      rfl
  | @anySequence cs ts single _ ih =>
      obtain ⟨position', fresh', hRead⟩ := ih (position + 1) false (.anySequence :: done)
      refine ⟨position', fresh', ?_⟩
      have hSingle : (cs ++ tail).head? ≠ some '*' := by
        cases cs with
        | nil => exact hTail
        | cons c cs => exact single
      rw [List.cons_append, Glob.readFrom, hRead, List.reverse_cons, List.append_assoc]
      · rfl
      · rintro further hEq
        simp [hEq] at hSingle
      · rintro further hEq
        simp [hEq] at hSingle
  | @oneOf cs after t ts body _ ih =>
      obtain ⟨position', fresh', hRead⟩ :=
        ih (position + 1 + ((cs ++ tail).length - (after ++ tail).length)) false (t :: done)
      refine ⟨position', fresh', ?_⟩
      have hBody := class?_append body tail
      rw [List.cons_append, Glob.readFrom]
      split
      · next hNone =>
        rw [hBody] at hNone
        cases hNone
      · next t' after' hSome =>
        obtain ⟨rfl, rfl⟩ := Prod.mk.inj (Option.some.inj (hBody.symm.trans hSome))
        rw [hRead, List.reverse_cons, List.append_assoc]
        rfl
  | @char c cs ts plain _ ih =>
      obtain ⟨position', fresh', hRead⟩ := ih (position + 1) (c == '/') (.char c :: done)
      refine ⟨position', fresh', ?_⟩
      simp only [List.mem_cons, List.not_mem_nil, or_false, not_or] at plain
      obtain ⟨hAny, hStar, hClass, -⟩ := plain
      rw [List.cons_append, Glob.readFrom, hRead, List.reverse_cons, List.append_assoc]
      · rfl
      · exact hAny
      · exact fun _ hEq => absurd hEq hStar
      · exact fun _ hEq => absurd hEq hStar
      · exact hStar
      · exact hClass

end Spells

/-- **A component that can be read alone is spelled**, unless it is `**`. -/
theorem spells_of_readFrom {position : Nat} {fresh : Bool} {done ts : List Token} {cs : List Char}
    (h : readFrom position fresh done cs = .ok ts) (hInside : '/' ∉ cs)
    (hSingle : fresh = true → cs ≠ ['*', '*']) :
    ∃ new, Spells cs new ∧ ts = done.reverse ++ new := by
  fun_induction readFrom position fresh done cs with
  | case1 position fresh done =>
      obtain rfl := Except.ok.inj h
      exact ⟨[], .nil, by rw [List.append_nil]⟩
  | case2 position fresh done cs ih =>
      obtain ⟨new, hSpells, rfl⟩ := ih h (fun hMem => hInside (List.mem_cons_of_mem _ hMem))
        Bool.noConfusion
      exact ⟨_, .anyChar hSpells, by rw [List.reverse_cons, List.append_assoc]; rfl⟩
  | case5 position fresh done hFresh =>
      exact absurd rfl (hSingle (Bool.not_eq_false _ ▸ hFresh))
  | case6 position fresh done hFresh rest => simp at hInside
  | case8 position fresh done cs hNotTwo hNotThree ih =>
      obtain ⟨new, hSpells, rfl⟩ := ih h (fun hMem => hInside (List.mem_cons_of_mem _ hMem))
        Bool.noConfusion
      refine ⟨_, .anySequence (fun hHead => ?_) hSpells, by
        rw [List.reverse_cons, List.append_assoc]; rfl⟩
      obtain ⟨further, rfl⟩ := List.head?_eq_some_iff.1 hHead
      exact hNotThree further rfl
  | case10 position fresh done cs t after hBody hShorter ih =>
      have hAfter : '/' ∉ after := fun hMem =>
        hInside (List.mem_cons_of_mem _ ((suffix_of_class? hBody).subset hMem))
      obtain ⟨new, hSpells, rfl⟩ := ih h hAfter Bool.noConfusion
      exact ⟨_, .oneOf hBody hSpells, by rw [List.reverse_cons, List.append_assoc]; rfl⟩
  | case11 position fresh done c cs hAny _ _ hStar hClass ih =>
      have hSlash : c ≠ '/' := fun hEq => hInside (hEq ▸ List.mem_cons_self)
      obtain ⟨new, hSpells, rfl⟩ := ih h (fun hMem => hInside (List.mem_cons_of_mem _ hMem))
        (fun hFresh => absurd (beq_iff_eq.1 hFresh) hSlash)
      have hPlain : c ∉ ['?', '*', '[', '/'] := by
        simp only [List.mem_cons, List.not_mem_nil, or_false, not_or]
        exact ⟨hAny, hStar, hClass, hSlash⟩
      exact ⟨_, .char hPlain hSpells, by rw [List.reverse_cons, List.append_assoc]; rfl⟩
  | _ => cases h

theorem spells_of_ofText {text : String} {g : Glob} (h : ofText text = .ok g)
    (hInside : '/' ∉ text.toList) (hSingle : text ≠ "**") : Spells text.toList g.tokens := by
  rw [ofText] at h
  split at h
  · next tokens hRead =>
    obtain rfl := Except.ok.inj h
    have hStars : text.toList ≠ ['*', '*'] := fun hEq => hSingle (String.toList_injective hEq)
    obtain ⟨new, hSpells, rfl⟩ := spells_of_readFrom hRead hInside fun _ => hStars
    exact hSpells
  · cases h

/-- **Components with separators between are read as their tokens with separators between.** -/
theorem readFrom_intercalate {css : List (List Char)} {tss : List (List Token)}
    (h : List.Forall₂ Spells css tss) (hne : css ≠ []) (position : Nat) (fresh : Bool)
    (done : List Token) : readFrom position fresh done (['/'].intercalate css) =
      .ok (done.reverse ++ joined tss) := by
  induction h generalizing position fresh done with
  | nil => exact absurd rfl hne
  | @cons cs ts css tss hSpells hRest ih =>
      cases hRest with
      | nil =>
          obtain ⟨position', fresh', hRead⟩ := hSpells.readFrom [] (by simp) position fresh done
          rw [List.append_nil] at hRead
          rw [List.intercalate_singleton, hRead, readFrom, List.reverse_append,
            List.reverse_reverse]
          simp [joined]
      | @cons cs' ts' css tss hSpells' hRest' =>
          obtain ⟨position', fresh', hRead⟩ :=
            hSpells.readFrom ('/' :: ['/'].intercalate (cs' :: css)) (by simp) position fresh done
          rw [List.intercalate_cons_cons, List.append_assoc, List.singleton_append, hRead, readFrom,
            ih (List.cons_ne_nil cs' css), joined_cons_cons]
          · simp
          all_goals simp

/-! ## Patterns without classes -/

theorem afterComponents_append {component : List Char} (h : '/' ∉ component) (cs : List Char) :
    afterComponents (component ++ '/' :: cs) = cs :: afterComponents cs := by
  induction component with
  | nil => rw [List.nil_append, afterComponents, if_pos rfl]
  | cons c component ih =>
      simp only [List.mem_cons, not_or] at h
      rw [List.cons_append, afterComponents, if_neg (Ne.symm h.1), ih h.2]

theorem afterComponents_of_not_mem {cs : List Char} (h : '/' ∉ cs) : afterComponents cs = [[]] := by
  induction cs with
  | nil => rfl
  | cons c cs ih =>
      simp only [List.mem_cons, not_or] at h
      rw [afterComponents, if_neg (Ne.symm h.1), ih h.2]

theorem matchesChars_anyComponents_iff {ts : List Token} {cs : List Char} :
    matchesChars (.anyComponents :: ts) cs = true ↔
      matchesChars ts cs = true ∨ ∃ rest ∈ afterComponents cs, matchesChars ts rest = true := by
  rw [matchesChars, List.any_cons, Bool.or_eq_true, List.any_eq_true]

theorem matchesChars_component {ts : List Token} {component cs : List Char} (h : '/' ∉ component)
    (hMatches : matchesChars (.anyComponents :: ts) cs = true) :
    matchesChars (.anyComponents :: ts) (component ++ '/' :: cs) = true := by
  rw [matchesChars_anyComponents_iff, afterComponents_append h] at *
  simpa using Or.inr hMatches

/-- A last `**`, which can stand for more. -/
def again : List Token → List Token
  | .anyComponents :: _ => [.anyComponents]
  | _ => []

theorem matchesChars_again (done : List Token) {us : List Token} {cs : List Char}
    (h : matchesChars us cs = true) : matchesChars (again done ++ us) cs = true := by
  rw [again.eq_def]
  split
  · exact matchesChars_anyComponents_iff.2 (Or.inl h)
  · exact h

/-- Tokens so far, last first, match the characters before, with what follows matched by what
follows. A last `**` may take a part of that. -/
def Covers (done : List Token) (before : List Char) : Prop :=
  ∀ us rest, matchesChars (again done ++ us) rest = true →
    matchesChars (done.reverse ++ us) (before ++ rest) = true

theorem covers_nil : Covers [] [] := fun _ _ h => h

section

variable {done : List Token} {before : List Char}

theorem Covers.one (h : Covers done before) {t : Token} {c : Char} (hAgain : again (t :: done) = [])
    (hOne : ∀ us rest, matchesChars us rest = true → matchesChars (t :: us) (c :: rest) = true) :
    Covers (t :: done) (before ++ [c]) := by
  intro us rest hRest
  rw [hAgain] at hRest
  have hAll := h (t :: us) (c :: rest) (matchesChars_again done (hOne us rest hRest))
  simpa using hAll

theorem Covers.components (h : Covers done before) (component : List Char)
    (hInside : '/' ∉ component) :
    Covers (pushComponents done) (before ++ component ++ ['/']) := by
  intro us rest hRest
  rw [pushComponents.eq_def] at hRest ⊢
  split at hRest
  · next t ts =>
    have hAll := h us (component ++ '/' :: rest) (matchesChars_component hInside hRest)
    simpa using hAll
  · have hAll := h (.anyComponents :: us) (component ++ '/' :: rest)
      (matchesChars_again done (matchesChars_component hInside hRest))
    simpa using hAll

theorem Covers.lastComponents (h : Covers done before) {component : List Char}
    (hInside : '/' ∉ component) :
    matchesChars (pushComponents done).reverse (before ++ component) = true := by
  have hEnd : matchesChars [.anyComponents] component = true := by
    rw [matchesChars_anyComponents_iff, afterComponents_of_not_mem hInside]
    exact Or.inr ⟨[], List.mem_singleton_self [], rfl⟩
  rw [pushComponents.eq_def]
  split
  · next t ts =>
    simpa using h [] component hEnd
  · simpa using h [.anyComponents] component (matchesChars_again done hEnd)

end

/-- **What was read without a class matches the text that it was read from.** -/
theorem matchesChars_of_readFrom {position : Nat} {fresh : Bool} {done ts : List Token}
    {cs : List Char} (h : readFrom position fresh done cs = .ok ts) (hClass : '[' ∉ cs)
    {before : List Char} (hDone : Covers done before) : matchesChars ts (before ++ cs) = true := by
  fun_induction readFrom position fresh done cs generalizing before with
  | case1 position fresh done =>
      obtain rfl := Except.ok.inj h
      simpa using hDone [] [] (matchesChars_again done rfl)
  | case2 position fresh done cs ih =>
      have hOne (us : List Token) (rest : List Char) (hRest : matchesChars us rest = true) :
          matchesChars (.anyChar :: us) ('?' :: rest) = true := hRest
      have hRest := ih h (fun hMem => hClass (List.mem_cons_of_mem _ hMem)) (hDone.one rfl hOne)
      simpa using hRest
  | case5 position fresh done hFresh =>
      obtain rfl := Except.ok.inj h
      exact hDone.lastComponents (by decide)
  | case6 position fresh done hFresh rest _ ih =>
      have hStars := hDone.components ['*', '*'] (by decide)
      have hRest := ih h (fun hMem => hClass (by simp [hMem])) hStars
      simpa using hRest
  | case8 position fresh done cs _ _ ih =>
      have hOne (us : List Token) (rest : List Char) (hRest : matchesChars us rest = true) :
          matchesChars (.anySequence :: us) ('*' :: rest) = true :=
        matchesChars_anySequence_iff.2 ⟨['*'], rest, rfl, by decide, hRest⟩
      have hRest := ih h (fun hMem => hClass (List.mem_cons_of_mem _ hMem)) (hDone.one rfl hOne)
      simpa using hRest
  | case10 position fresh done cs => exact absurd List.mem_cons_self hClass
  | case11 position fresh done c cs _ _ _ _ _ ih =>
      have hOne (us : List Token) (rest : List Char) (hRest : matchesChars us rest = true) :
          matchesChars (.char c :: us) (c :: rest) = true := by
        simpa [matchesChars, Token.holds] using hRest
      have hRest := ih h (fun hMem => hClass (List.mem_cons_of_mem _ hMem)) (hDone.one rfl hOne)
      simpa using hRest
  | _ => cases h

/-- **A glob without classes accepts its own text.** -/
theorem accepts_self {text : String} {g : Glob} (h : ofText text = .ok g)
    (hClass : '[' ∉ text.toList) : g.accepts text = true := by
  rw [ofText] at h
  split at h
  · next tokens hRead =>
    obtain rfl := Except.ok.inj h
    rw [accepts_eq]
    exact matchesChars_of_readFrom hRead hClass covers_nil
  · cases h

end CoverRun.Glob

import Mathlib.Data.List.Forall2

/-!
# Steps that may fail

Several steps come to something exactly if each of them does (`mapM_eq_ok_iff`), and fail as the
first of them does that fails (`mapM_eq_error_iff`).
-/

namespace CoverRun.Outcome

variable {ε α β : Type}

theorem bind_eq_ok_iff {x : Except ε α} {f : α → Except ε β} {b : β} :
    (x >>= f) = .ok b ↔ ∃ a, x = .ok a ∧ f a = .ok b := by
  constructor
  · intro h
    cases x with
    | error e => cases h
    | ok a => exact ⟨a, rfl, h⟩
  · rintro ⟨a, rfl, h⟩
    exact h

theorem bind_eq_error_iff {x : Except ε α} {f : α → Except ε β} {e : ε} :
    (x >>= f) = .error e ↔ x = .error e ∨ ∃ a, x = .ok a ∧ f a = .error e := by
  cases x with
  | error e' => simp [bind, Except.bind]
  | ok a => simp [bind, Except.bind]

theorem map_eq_ok_iff {x : Except ε α} {f : α → β} {b : β} :
    x.map f = .ok b ↔ ∃ a, x = .ok a ∧ f a = b := by
  cases x <;> simp [Except.map]

theorem map_eq_error_iff {x : Except ε α} {f : α → β} {e : ε} :
    x.map f = .error e ↔ x = .error e := by
  cases x <;> simp [Except.map]

theorem eq_ok_of_toOption {x : Except ε α} {a : α} (h : x.toOption = some a) : x = .ok a := by
  cases x with
  | error e => cases h
  | ok a' => exact congrArg Except.ok (Option.some.inj h)

theorem mapM_eq_ok_iff {f : α → Except ε β} {as : List α} {bs : List β} :
    as.mapM f = .ok bs ↔ List.Forall₂ (fun a b => f a = .ok b) as bs := by
  induction as generalizing bs with
  | nil =>
      rw [List.mapM_nil, List.forall₂_nil_left_iff]
      exact ⟨fun h => (Except.ok.inj h).symm, fun h => h ▸ rfl⟩
  | cons a as ih =>
      rw [List.mapM_cons, List.forall₂_cons_left_iff]
      constructor
      · intro h
        obtain ⟨b, hb, hRest⟩ := bind_eq_ok_iff.1 h
        obtain ⟨bs', hbs, hEq⟩ := bind_eq_ok_iff.1 hRest
        exact ⟨b, bs', hb, ih.1 hbs, (Except.ok.inj hEq).symm⟩
      · rintro ⟨b, bs', hb, hbs, rfl⟩
        rw [hb, ih.2 hbs]
        rfl

theorem exists_mapM_iff {f : α → Except ε β} {as : List α} :
    (∃ bs, as.mapM f = .ok bs) ↔ ∀ a ∈ as, ∃ b, f a = .ok b := by
  simp only [mapM_eq_ok_iff]
  induction as with
  | nil => exact ⟨fun _ => List.forall_mem_nil _, fun _ => ⟨[], .nil⟩⟩
  | cons a as ih =>
      rw [List.forall_mem_cons, ← ih]
      constructor
      · rintro ⟨_, hAll⟩
        obtain ⟨b, bs, hb, hbs, rfl⟩ := List.forall₂_cons_left_iff.1 hAll
        exact ⟨⟨b, hb⟩, bs, hbs⟩
      · rintro ⟨⟨b, hb⟩, bs, hbs⟩
        exact ⟨b :: bs, .cons hb hbs⟩

theorem exists_split_cons {P : List α → α → List α → Prop} {a : α} {as : List α} :
    (∃ before a' after, a :: as = before ++ a' :: after ∧ P before a' after) ↔
      P [] a as ∨ ∃ before a' after, as = before ++ a' :: after ∧ P (a :: before) a' after := by
  constructor
  · rintro ⟨before, a', after, hSplit, hP⟩
    cases before with
    | nil =>
        obtain ⟨rfl, rfl⟩ := List.cons_eq_cons.1 hSplit
        exact Or.inl hP
    | cons b before =>
        obtain ⟨rfl, rfl⟩ := List.cons_eq_cons.1 hSplit
        exact Or.inr ⟨before, a', after, rfl, hP⟩
  · rintro (hP | ⟨before, a', after, rfl, hP⟩)
    · exact ⟨[], a, as, rfl, hP⟩
    · exact ⟨a :: before, a', after, rfl, hP⟩

theorem mapM_eq_error_iff {f : α → Except ε β} {as : List α} {e : ε} :
    as.mapM f = .error e ↔ ∃ before a after, as = before ++ a :: after ∧
      (∀ a' ∈ before, ∃ b, f a' = .ok b) ∧ f a = .error e := by
  induction as with
  | nil =>
      constructor
      · intro h
        cases h
      · rintro ⟨before, a, after, hSplit, -⟩
        simp at hSplit
  | cons a as ih =>
      have hStep : (a :: as).mapM f = .error e ↔
          f a = .error e ∨ ∃ b, f a = .ok b ∧ as.mapM f = .error e := by
        rw [List.mapM_cons, bind_eq_error_iff]
        refine or_congr Iff.rfl (exists_congr fun b => and_congr_right fun _ => ?_)
        rw [bind_eq_error_iff]
        simp [pure, Except.pure]
      rw [hStep, ih, exists_split_cons]
      simp only [List.forall_mem_cons]
      constructor
      · rintro (hHere | ⟨b, hHere, before, a', after, hSplit, hBefore, hError⟩)
        · exact Or.inl ⟨List.forall_mem_nil _, hHere⟩
        · exact Or.inr ⟨before, a', after, hSplit, ⟨⟨b, hHere⟩, hBefore⟩, hError⟩
      · rintro (⟨-, hHere⟩ | ⟨before, a', after, hSplit, ⟨⟨b, hHere⟩, hBefore⟩, hError⟩)
        · exact Or.inl hHere
        · exact Or.inr ⟨b, hHere, before, a', after, hSplit, hBefore, hError⟩

theorem exists_of_mem_forall₂ {R : α → β → Prop} {as : List α} {bs : List β}
    (h : List.Forall₂ R as bs) {b : β} (hb : b ∈ bs) : ∃ a ∈ as, R a b := by
  induction h with
  | nil => cases hb
  | @cons a b' as bs hHead _ ih =>
      rcases List.mem_cons.1 hb with rfl | hb
      · exact ⟨a, List.mem_cons_self, hHead⟩
      · obtain ⟨a', hMem, hRelated⟩ := ih hb
        exact ⟨a', List.mem_cons_of_mem a hMem, hRelated⟩

theorem exists_of_mem_mapM {f : α → Except ε β} {as : List α} {bs : List β}
    (h : as.mapM f = .ok bs) {b : β} (hb : b ∈ bs) : ∃ a ∈ as, f a = .ok b :=
  exists_of_mem_forall₂ (mapM_eq_ok_iff.1 h) hb

theorem mapM_map_eq_some {f : α → β} {g : β → Option α} {as : List α}
    (h : ∀ a ∈ as, g (f a) = some a) : (as.map f).mapM g = some as := by
  induction as with
  | nil => rfl
  | cons a as ih =>
      obtain ⟨hHere, hLater⟩ := List.forall_mem_cons.1 h
      rw [List.map_cons, List.mapM_cons, hHere, ih hLater]
      rfl

end CoverRun.Outcome

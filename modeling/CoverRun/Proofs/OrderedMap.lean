import CoverRun.OrderedMap
import Mathlib.Data.List.Induction

/-!
# Laws of ordered maps

A map is known by what it yields for each key: `find?_insert`, `find?_erase` and `find?_mapValues`
say what changes, `OrderedMap.ext_find?` that nothing else matters.
-/

namespace CoverRun

open KeyOrder

namespace Entries

variable {κ ν : Type} [KeyOrder κ] [DecidableEq κ]

theorem find?_put (k k' : κ) (v : ν) (es : List (κ × ν)) :
    find? k' (put k v es) = if k' = k then some v else find? k' es := by
  induction es with
  | nil => rfl
  | cons e rest ih =>
      obtain ⟨k₁, v₁⟩ := e
      simp only [put]
      split
      · next h =>
        subst h
        by_cases hk : k' = k <;> simp [find?, hk]
      · next h =>
        split
        · rfl
        · by_cases hk : k' = k₁
          · subst hk
            simp [find?, Ne.symm h]
          · simp [find?, hk, ih]

omit [KeyOrder κ] in
theorem find?_eq_none_iff {k : κ} {es : List (κ × ν)} :
    find? k es = none ↔ k ∉ es.map (·.1) := by
  induction es with
  | nil => simp [find?]
  | cons e rest ih =>
      by_cases h : k = e.1
      · simp [find?, h]
      · simp [find?, h, ih]

omit [DecidableEq κ] in
theorem Ascending.nodup_keys {es : List (κ × ν)} (h : Ascending es) :
    (es.map (·.1)).Nodup := by
  rw [List.Nodup, List.pairwise_map]
  exact List.Pairwise.imp ne_of_before h

theorem Ascending.find?_eq_some_iff {es : List (κ × ν)} (h : Ascending es) {k : κ} {v : ν} :
    find? k es = some v ↔ (k, v) ∈ es := by
  induction es with
  | nil => simp [find?]
  | cons e rest ih =>
      obtain ⟨hHead, hTail⟩ := List.pairwise_cons.1 h
      obtain ⟨k', v'⟩ := e
      by_cases hk : k = k'
      · subst hk
        have hOther : (k, v) ∉ rest := fun hMem => ne_of_before (hHead _ hMem) rfl
        simp [find?, hOther, eq_comm]
      · simp [find?, hk, ih hTail]

/-- An entry that is put at its place stands between those before it and those after it. -/
theorem put_eq_append {k : κ} {v : ν} {es : List (κ × ν)} (h : Ascending es) :
    put k v es =
      es.filter (fun e => before e.1 k) ++ (k, v) :: es.filter (fun e => before k e.1) := by
  induction es with
  | nil => rfl
  | cons e rest ih =>
      obtain ⟨hHead, hTail⟩ := List.pairwise_cons.1 h
      obtain ⟨k', v'⟩ := e
      have hLater (hBefore : before k k' = true) : ∀ e ∈ rest, before k e.1 = true := fun e he =>
        before_trans hBefore (hHead e he)
      have hNone (hBefore : before k k' = true ∨ k = k') :
          rest.filter (fun e => before e.1 k) = [] := by
        refine List.filter_eq_nil_iff.2 fun e he hEarlier => ?_
        have hLoop : before k e.1 = true := by
          rcases hBefore with hBefore | rfl
          · exact hLater hBefore e he
          · exact hHead e he
        exact ne_of_before (before_trans hLoop hEarlier) rfl
      rw [put]
      split
      · next hSame =>
        subst hSame
        simp only [List.filter_cons, before_irrefl, Bool.false_eq_true, if_false]
        rw [hNone (Or.inr rfl), List.filter_eq_self.2 hHead, List.nil_append]
      split
      · next hne hBefore =>
        have hNot : before k' k = false :=
          Bool.eq_false_iff.2 fun hEarlier => ne_of_before (before_trans hBefore hEarlier) rfl
        simp only [List.filter_cons, hNot, hBefore, Bool.false_eq_true, if_false, if_true]
        rw [hNone (Or.inl hBefore), List.filter_eq_self.2 (hLater hBefore), List.nil_append]
      · next hne hNot =>
        have hEarlier : before k' k = true := before_total (Bool.eq_false_iff.2 hNot) hne
        simp only [List.filter_cons, hNot, hEarlier, Bool.false_eq_true, if_false, if_true]
        rw [ih hTail, List.cons_append]

end Entries

namespace OrderedMap

variable {κ ν : Type} [KeyOrder κ]

theorem nodup_keys (m : OrderedMap κ ν) : m.keys.Nodup := Entries.Ascending.nodup_keys m.ascending

@[simp] theorem keys_mapValues {μ : Type} (f : κ → ν → μ) (m : OrderedMap κ ν) :
    (m.mapValues f).keys = m.keys := by
  simp [keys, mapValues]

variable [DecidableEq κ]

theorem find?_insert (m : OrderedMap κ ν) (k k' : κ) (v : ν) :
    (m.insert k v).find? k' = if k' = k then some v else m.find? k' :=
  Entries.find?_put k k' v m.entries

theorem entries_insert (m : OrderedMap κ ν) (k : κ) (v : ν) :
    (m.insert k v).entries = m.entries.filter (fun e => before e.1 k) ++
      (k, v) :: m.entries.filter (fun e => before k e.1) :=
  Entries.put_eq_append m.ascending

@[simp] theorem find?_empty (k : κ) : (empty : OrderedMap κ ν).find? k = none := rfl

theorem find?_eq_some_iff {m : OrderedMap κ ν} {k : κ} {v : ν} :
    m.find? k = some v ↔ (k, v) ∈ m.entries := m.ascending.find?_eq_some_iff

theorem find?_eq_none_iff {m : OrderedMap κ ν} {k : κ} : m.find? k = none ↔ k ∉ m.keys :=
  Entries.find?_eq_none_iff

theorem find?_mapValues {μ : Type} (f : κ → ν → μ) (m : OrderedMap κ ν) (k : κ) :
    (m.mapValues f).find? k = (m.find? k).map (f k) := by
  obtain ⟨es, h⟩ := m
  simp only [mapValues, find?]
  clear h
  induction es with
  | nil => rfl
  | cons e rest ih =>
      by_cases hk : k = e.1
      · simp [Entries.find?, hk]
      · simp [Entries.find?, hk, ih]

theorem ext_find? {m m' : OrderedMap κ ν} (h : ∀ k, m.find? k = m'.find? k) : m = m' := by
  have hMem : ∀ e : κ × ν, e ∈ m.entries ↔ e ∈ m'.entries := fun e => by
    rw [← find?_eq_some_iff, ← find?_eq_some_iff, h]
  have hNodup : ∀ m : OrderedMap κ ν, m.entries.Nodup := fun m =>
    List.Pairwise.of_map (·.1) (fun a b hne hEq => hne (congrArg (·.1) hEq)) m.nodup_keys
  apply ext
  refine List.Perm.eq_of_pairwise (fun a b _ _ hab hba => ?_) m.ascending m'.ascending
    ((List.perm_ext_iff_of_nodup (hNodup m) (hNodup m')).2 hMem)
  exact absurd rfl (ne_of_before (before_trans hab hba))

theorem find?_filter (m : OrderedMap κ ν) (p : κ → Bool) (k : κ) :
    (m.filter fun k' _ => p k').find? k = if p k = true then m.find? k else none := by
  obtain ⟨es, h⟩ := m
  simp only [filter, find?]
  clear h
  induction es with
  | nil => simp [Entries.find?]
  | cons e rest ih =>
      by_cases hk : k = e.1
      · subst hk
        by_cases hp : p e.1 = true <;> simp_all [Entries.find?]
      · by_cases hp : p e.1 = true <;> simp [Entries.find?, hp, hk, ih]

theorem find?_erase (m : OrderedMap κ ν) (k k' : κ) :
    (m.erase k).find? k' = if k' = k then none else m.find? k' := by
  have hFilter := m.find?_filter (fun key => decide (key ≠ k)) k'
  by_cases hk : k' = k <;> simpa [erase, hk] using hFilter

theorem ofList_concat (es : List (κ × ν)) (e : κ × ν) :
    ofList (es ++ [e]) = (ofList es).insert e.1 e.2 := by
  rw [ofList, List.foldl_append]
  rfl

theorem mem_of_mem_ofList {es : List (κ × ν)} {e : κ × ν} (h : e ∈ (ofList es).entries) :
    e ∈ es := by
  induction es using List.reverseRecOn with
  | nil => cases h
  | append_singleton es e' ih =>
      rw [ofList_concat] at h
      rcases Entries.mem_put h with rfl | h
      · exact List.mem_append_right es List.mem_cons_self
      · exact List.mem_append_left [e'] (ih h)

/-- The value that the last entry with a key gives. -/
theorem find?_ofList_eq_last (es : List (κ × ν)) (k : κ) :
    (ofList es).find? k = (es.filter (·.1 = k)).getLast?.map (·.2) := by
  induction es using List.reverseRecOn with
  | nil => rfl
  | append_singleton es e ih =>
      rw [ofList_concat, find?_insert, ih]
      by_cases hk : k = e.1
      · subst hk
        simp
      · simp [hk, Ne.symm hk]

theorem find?_ofList {es : List (κ × ν)} (h : (es.map (·.1)).Nodup) {k : κ} {v : ν} :
    (ofList es).find? k = some v ↔ (k, v) ∈ es := by
  induction es using List.reverseRecOn with
  | nil => simp [ofList]
  | append_singleton es e ih =>
      obtain ⟨k', v'⟩ := e
      rw [List.map_append, List.map_singleton, List.nodup_append] at h
      obtain ⟨hInit, -, hNew⟩ := h
      rw [ofList_concat, find?_insert, List.mem_append, List.mem_singleton, Prod.mk.injEq,
        ← ih hInit]
      by_cases hk : k = k'
      · subst hk
        have hNone : (ofList es).find? k ≠ some v := fun hFound =>
          hNew k (List.mem_map.2 ⟨_, (ih hInit).1 hFound, rfl⟩) k List.mem_cons_self rfl
        simp [hNone, eq_comm]
      · simp [hk]

theorem ofList_of_perm {m : OrderedMap κ ν} {es : List (κ × ν)} (h : es.Perm m.entries) :
    ofList es = m := by
  have hNodup : (es.map (·.1)).Nodup := (h.map _).nodup_iff.2 m.nodup_keys
  apply ext_find?
  intro k
  apply Option.ext
  intro v
  rw [find?_ofList hNodup, h.mem_iff, find?_eq_some_iff]

end OrderedMap

end CoverRun

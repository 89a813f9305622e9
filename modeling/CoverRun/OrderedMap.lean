/-!
# Maps ordered by key

A map is the list of its entries in ascending key order, one entry a key, so that two maps with the
same entries are equal and listing a map needs no sorting. Keys are ordered by `KeyOrder`: texts by
their characters, which is the order of their UTF-8 bytes, and lists item by item, which puts a
directory before its content.
-/

namespace CoverRun

/-- A strict total order on keys, as a test that can be run. -/
class KeyOrder (κ : Type) where
  before : κ → κ → Bool
  before_irrefl : ∀ a, before a a = false
  before_trans : ∀ {a b c}, before a b = true → before b c = true → before a c = true
  before_total : ∀ {a b}, before a b = false → a ≠ b → before b a = true

namespace KeyOrder

/-- Item-by-item order of lists, a shorter list before its extensions. -/
def listBefore {κ : Type} [KeyOrder κ] [DecidableEq κ] : List κ → List κ → Bool
  | [], [] => false
  | [], _ :: _ => true
  | _ :: _, [] => false
  | a :: as, b :: bs => if a = b then listBefore as bs else before a b

section

variable {κ : Type} [KeyOrder κ] [DecidableEq κ]

theorem listBefore_irrefl (as : List κ) : listBefore as as = false := by
  induction as with
  | nil => rfl
  | cons a as ih => simp [listBefore, ih]

theorem listBefore_trans {as bs cs : List κ} (hab : listBefore as bs = true)
    (hbc : listBefore bs cs = true) : listBefore as cs = true := by
  induction as generalizing bs cs with
  | nil =>
      cases bs with
      | nil => simp [listBefore] at hab
      | cons b bs => cases cs <;> simp_all [listBefore]
  | cons a as ih =>
      cases bs with
      | nil => simp [listBefore] at hab
      | cons b bs =>
          cases cs with
          | nil => simp [listBefore] at hbc
          | cons c cs =>
              simp only [listBefore] at hab hbc ⊢
              by_cases hAB : a = b
              · subst hAB
                by_cases hAC : a = c
                · subst hAC
                  simp only [if_true] at hab hbc ⊢
                  exact ih hab hbc
                · simpa [hAC] using hbc
              · rw [if_neg hAB] at hab
                by_cases hBC : b = c
                · subst hBC
                  rw [if_neg hAB]
                  exact hab
                · rw [if_neg hBC] at hbc
                  have hAC : a ≠ c := by
                    intro h
                    subst h
                    have h := before_trans hab hbc
                    rw [before_irrefl] at h
                    cases h
                  rw [if_neg hAC]
                  exact before_trans hab hbc

theorem listBefore_total {as bs : List κ} (h : listBefore as bs = false) (hne : as ≠ bs) :
    listBefore bs as = true := by
  induction as generalizing bs with
  | nil => cases bs <;> simp_all [listBefore]
  | cons a as ih =>
      cases bs with
      | nil => rfl
      | cons b bs =>
          simp only [listBefore] at h ⊢
          by_cases hAB : a = b
          · subst hAB
            simp only [if_true] at h ⊢
            exact ih h (fun hEq => hne (by rw [hEq]))
          · rw [if_neg hAB] at h
            rw [if_neg (Ne.symm hAB)]
            exact before_total h hAB

end

instance : KeyOrder Nat where
  before a b := decide (a < b)
  before_irrefl a := by simp
  before_trans h g := by
    simp only [decide_eq_true_eq] at h g ⊢
    exact Nat.lt_trans h g
  before_total h hne := by
    simp only [decide_eq_false_iff_not, decide_eq_true_eq] at h ⊢
    omega

instance : KeyOrder UInt8 where
  before a b := decide (a < b)
  before_irrefl a := by simp
  before_trans h g := by
    simp only [decide_eq_true_eq] at h g ⊢
    exact UInt8.lt_trans h g
  before_total h hne := by
    simp only [decide_eq_false_iff_not, decide_eq_true_eq] at h ⊢
    exact UInt8.lt_of_le_of_ne (UInt8.not_lt.1 h) (Ne.symm hne)

instance {κ : Type} [KeyOrder κ] [DecidableEq κ] : KeyOrder (List κ) where
  before := listBefore
  before_irrefl := listBefore_irrefl
  before_trans := listBefore_trans
  before_total := listBefore_total

/-- Texts in the order of their characters. -/
instance : KeyOrder String where
  before a b := decide (a < b)
  before_irrefl a := by simp
  before_trans h g := by
    simp only [decide_eq_true_eq] at h g ⊢
    exact String.lt_trans h g
  before_total h hne := by
    simp only [decide_eq_false_iff_not, decide_eq_true_eq] at h ⊢
    exact String.not_le.1 fun hle => hne (String.le_antisymm hle (String.not_lt.1 h))

theorem ne_of_before {κ : Type} [KeyOrder κ] {a b : κ} (h : before a b = true) : a ≠ b := by
  intro hEq
  subst hEq
  rw [before_irrefl] at h
  cases h

end KeyOrder

namespace Entries

open KeyOrder

variable {κ ν : Type} [KeyOrder κ] [DecidableEq κ]

/-- Each key comes strictly before all later ones. -/
def Ascending (es : List (κ × ν)) : Prop :=
  es.Pairwise fun a b => before a.1 b.1 = true

/-- Puts an entry at its place, over an entry with the same key. -/
def put (k : κ) (v : ν) : List (κ × ν) → List (κ × ν)
  | [] => [(k, v)]
  | (k', v') :: rest =>
    if k = k' then (k, v) :: rest
    else if before k k' then (k, v) :: (k', v') :: rest
    else (k', v') :: put k v rest

/-- The value of a key. -/
def find? (k : κ) : List (κ × ν) → Option ν
  | [] => none
  | (k', v') :: rest => if k = k' then some v' else find? k rest

theorem mem_put {k : κ} {v : ν} {e : κ × ν} {es : List (κ × ν)} (h : e ∈ put k v es) :
    e = (k, v) ∨ e ∈ es := by
  induction es with
  | nil => simpa [put] using h
  | cons e' rest ih =>
      simp only [put] at h
      split at h
      · rcases List.mem_cons.1 h with h | h
        · exact Or.inl h
        · exact Or.inr (List.mem_cons_of_mem _ h)
      · split at h
        · exact List.mem_cons.1 h
        · rcases List.mem_cons.1 h with h | h
          · exact Or.inr (h ▸ List.mem_cons_self)
          · rcases ih h with h | h
            · exact Or.inl h
            · exact Or.inr (List.mem_cons_of_mem _ h)

theorem ascending_put (k : κ) (v : ν) {es : List (κ × ν)} (h : Ascending es) :
    Ascending (put k v es) := by
  induction es with
  | nil => exact List.pairwise_singleton _ _
  | cons e' rest ih =>
      have hHead := (List.pairwise_cons.1 h).1
      have hTail := (List.pairwise_cons.1 h).2
      simp only [put]
      split
      next hEq =>
        exact List.pairwise_cons.2 ⟨fun e he => hEq ▸ hHead e he, hTail⟩
      next hNe =>
        split
        next hLt =>
          refine List.pairwise_cons.2 ⟨fun e he => ?_, h⟩
          rcases List.mem_cons.1 he with he | he
          · exact he ▸ hLt
          · exact before_trans hLt (hHead e he)
        next hGe =>
          refine List.pairwise_cons.2 ⟨fun e he => ?_, ih hTail⟩
          rcases mem_put he with he | he
          · rw [he]
            exact before_total (Bool.eq_false_iff.2 hGe) hNe
          · exact hHead e he

end Entries

/-- A map from keys to values: its entries in ascending key order. -/
structure OrderedMap (κ ν : Type) [KeyOrder κ] where
  entries : List (κ × ν)
  ascending : Entries.Ascending entries

namespace OrderedMap

variable {κ ν : Type} [KeyOrder κ]

/-- The map without entries. -/
def empty : OrderedMap κ ν := ⟨[], List.Pairwise.nil⟩

instance : Inhabited (OrderedMap κ ν) := ⟨empty⟩

instance [DecidableEq κ] [DecidableEq ν] : DecidableEq (OrderedMap κ ν) := fun a b =>
  if h : a.entries = b.entries then
    isTrue (by cases a; cases b; simp_all)
  else
    isFalse (fun hEq => h (by rw [hEq]))

theorem ext {a b : OrderedMap κ ν} (h : a.entries = b.entries) : a = b := by
  cases a
  cases b
  simp_all

/-- The keys in ascending order. -/
def keys (m : OrderedMap κ ν) : List κ := m.entries.map (·.1)

/-- The values in the order of their keys. -/
def values (m : OrderedMap κ ν) : List ν := m.entries.map (·.2)

/-- The number of entries. -/
def size (m : OrderedMap κ ν) : Nat := m.entries.length

/-- The entries that pass a test. -/
def filter (p : κ → ν → Bool) (m : OrderedMap κ ν) : OrderedMap κ ν :=
  ⟨m.entries.filter fun e => p e.1 e.2, m.ascending.sublist List.filter_sublist⟩

/-- Applies a function to each value. -/
def mapValues {μ : Type} (f : κ → ν → μ) (m : OrderedMap κ ν) : OrderedMap κ μ :=
  ⟨m.entries.map fun e => (e.1, f e.1 e.2), by
    have h := m.ascending
    unfold Entries.Ascending at h ⊢
    rw [List.pairwise_map]
    exact h⟩

variable [DecidableEq κ]

/-- The value of a key. -/
def find? (m : OrderedMap κ ν) (k : κ) : Option ν := Entries.find? k m.entries

/-- Whether a key has an entry. -/
def contains (m : OrderedMap κ ν) (k : κ) : Bool := (m.find? k).isSome

/-- Sets the value of a key. -/
def insert (m : OrderedMap κ ν) (k : κ) (v : ν) : OrderedMap κ ν :=
  ⟨Entries.put k v m.entries, Entries.ascending_put k v m.ascending⟩

/-- Drops the entry of a key. -/
def erase (m : OrderedMap κ ν) (k : κ) : OrderedMap κ ν :=
  m.filter fun k' _ => decide (k' ≠ k)

/-- The map of a list of entries, where the last entry of a key wins. -/
def ofList (es : List (κ × ν)) : OrderedMap κ ν :=
  es.foldl (fun m e => m.insert e.1 e.2) empty

end OrderedMap

end CoverRun

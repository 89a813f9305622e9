import CoverRun.Proofs.Json.Compact
import CoverRun.Proofs.OrderedMap
import CoverRun.Proofs.Text.Utf8

/-!
# What is kept

A value is kept as it was (`Value.ofNode?_node`) if in each of its records the members are in key
order, if it has whole numbers only and nests no deeper than the reader allows: members that come in
key order are put one behind the other.
-/

namespace CoverRun

theorem Entries.put_of_before {κ ν : Type} [KeyOrder κ] [DecidableEq κ] {es : List (κ × ν)} {k : κ}
    (h : ∀ e ∈ es, KeyOrder.before e.1 k = true) (v : ν) : put k v es = es ++ [(k, v)] := by
  induction es with
  | nil => rfl
  | cons e es ih =>
      have hBefore := h e List.mem_cons_self
      have hNot : ¬ KeyOrder.before k e.1 = true := by
        intro hAfter
        exact KeyOrder.ne_of_before (KeyOrder.before_trans hBefore hAfter) rfl
      rw [put, if_neg (KeyOrder.ne_of_before hBefore).symm, if_neg hNot,
        ih fun e' he' => h e' (List.mem_cons_of_mem _ he'), List.cons_append]

namespace Json

/-! ## Numbers -/

theorem number?_natural (n : UInt64) : (Number.natural n).written.number? = some (.natural n) := by
  have hLimit : ¬ wordLimit < n.toNat := Nat.not_lt.2 (Nat.le_of_lt_succ n.toNat_lt)
  simp [Number.written, NumberText.number?, NumberText.isInteger, digitsValue_toDigits, hLimit]

theorem number?_negative (n : Fin signLimit) :
    (Number.negative n).written.number? = some (.negative n) := by
  have hLimit : n.val + 1 ≤ signLimit := n.isLt
  have hWord : ¬ wordLimit < n.val + 1 := Nat.not_lt.2 (hLimit.trans (by decide))
  simp [Number.written, NumberText.number?, NumberText.isInteger, digitsValue_toDigits, hLimit,
    hWord]

namespace Value

/-! ## Records in key order -/

/-- In each record of the value the members are in key order. -/
inductive InOrder : Value → Prop
  | null : InOrder .null
  | bool (b : Bool) : InOrder (.bool b)
  | number (n : Number) : InOrder (.number n)
  | string (s : String) : InOrder (.string s)
  | list {items : List Value} : (∀ v ∈ items, InOrder v) → InOrder (.list items)
  | record {members : List (String × Value)} : Entries.Ascending members →
      (∀ m ∈ members, InOrder m.2) → InOrder (.record members)

/-! ## Whole numbers -/

/-- At most so many lists and records nest in the value, and all its numbers are whole. -/
inductive Whole : Nat → Value → Prop
  | null {depth : Nat} : Whole depth .null
  | bool {depth : Nat} (b : Bool) : Whole depth (.bool b)
  | natural {depth : Nat} (n : UInt64) : Whole depth (.number (.natural n))
  | negative {depth : Nat} (n : Fin signLimit) : Whole depth (.number (.negative n))
  | string {depth : Nat} (s : String) : Whole depth (.string s)
  | list {depth : Nat} {items : List Value} : (∀ v ∈ items, Whole depth v) →
      Whole (depth + 1) (.list items)
  | record {depth : Nat} {members : List (String × Value)} : (∀ m ∈ members, Whole depth m.2) →
      Whole (depth + 1) (.record members)

theorem Whole.mono {v : Value} {depth depth' : Nat} (h : Whole depth v) (hle : depth ≤ depth') :
    Whole depth' v := by
  induction h generalizing depth' with
  | null => exact .null
  | bool b => exact .bool b
  | natural n => exact .natural n
  | negative n => exact .negative n
  | string s => exact .string s
  | list _ ih =>
      obtain ⟨more, rfl⟩ : ∃ more, depth' = more + 1 := ⟨depth' - 1, by omega⟩
      exact .list fun v hv => ih v hv (by omega)
  | record _ ih =>
      obtain ⟨more, rfl⟩ : ∃ more, depth' = more + 1 := ⟨depth' - 1, by omega⟩
      exact .record fun m hm => ih m hm (by omega)

theorem ofNodes?_nodes {depth : Nat} {items : List Value}
    (h : ∀ v ∈ items, ofNode? depth v.node = some v) :
    ofNodes? depth (nodes items) = some items := by
  induction items with
  | nil => rfl
  | cons v vs ih =>
      rw [nodes, ofNodes?, h v List.mem_cons_self, ih fun u hu => h u (List.mem_cons_of_mem _ hu)]
      rfl

/-- Members in key order are kept behind those that were kept before. -/
theorem ofMembers?_memberNodes {depth : Nat} {done members : List (String × Value)}
    (hAscending : Entries.Ascending (done ++ members))
    (h : ∀ m ∈ members, ofNode? depth m.2.node = some m.2) :
    ofMembers? depth done (memberNodes members) = some (done ++ members) := by
  induction members generalizing done with
  | nil => rw [memberNodes, ofMembers?, List.append_nil]
  | cons m ms ih =>
      obtain ⟨k, v⟩ := m
      have hBefore : ∀ e ∈ done, KeyOrder.before e.1 k = true := fun e he =>
        (List.pairwise_append.1 hAscending).2.2 e he (k, v) List.mem_cons_self
      have hSplit : done ++ (k, v) :: ms = (done ++ [(k, v)]) ++ ms := by simp
      rw [hSplit] at hAscending ⊢
      rw [memberNodes, ofMembers?, Units.text?_ofText, h (k, v) List.mem_cons_self]
      simp only [Option.bind_eq_bind, Option.bind_some]
      rw [Entries.put_of_before hBefore]
      exact ih hAscending fun m hm => h m (List.mem_cons_of_mem _ hm)

/-- **A value of whole numbers is kept as it was.** -/
theorem ofNode?_node {v : Value} {depth : Nat} (hWhole : v.Whole depth) (hOrder : v.InOrder) :
    ofNode? depth v.node = some v := by
  induction hWhole with
  | null => rfl
  | bool b => rfl
  | natural n => rw [node, ofNode?, number?_natural, Option.map_some]
  | negative n => rw [node, ofNode?, number?_negative, Option.map_some]
  | string s => rw [node, ofNode?, Units.text?_ofText, Option.map_some]
  | list _ ih =>
      cases hOrder with
      | list hItems => rw [node, ofNode?, ofNodes?_nodes fun v hv => ih v hv (hItems v hv),
          Option.map_some]
  | @record depth members _ ih =>
      cases hOrder with
      | record hAscending hMembers =>
          have hKept : ofMembers? depth [] (memberNodes members) = some ([] ++ members) :=
            ofMembers?_memberNodes hAscending fun m hm => ih m hm (hMembers m hm)
          rw [node, ofNode?, hKept, Option.map_some, List.nil_append]

/-! ## Records as maps -/

theorem memberNodes_eq_map (members : List (String × Value)) :
    memberNodes members = members.map fun m => (Units.ofText m.1, m.2.node) := by
  induction members with
  | nil => rfl
  | cons m ms ih => rw [memberNodes, ih, List.map_cons]

/-- A record that is read member by member into a map holds what each member is read as. -/
theorem foldlM_insert_as {μ ν : Type} (read : Node → Option ν) (write : μ → Value) (sense : μ → ν)
    {es : List (String × μ)} (h : ∀ e ∈ es, read (write e.2).node = some (sense e.2))
    (done : OrderedMap String ν) :
    (memberNodes (es.map fun e => (e.1, write e.2))).foldlM (fun (m : OrderedMap String ν) e => do
        let k ← e.1.text?
        let v ← read e.2
        return m.insert k v) done =
      some (es.foldl (fun m e => m.insert e.1 (sense e.2)) done) := by
  induction es generalizing done with
  | nil => rfl
  | cons e es ih =>
      rw [List.map_cons, memberNodes, List.foldlM_cons, Units.text?_ofText,
        h e List.mem_cons_self]
      exact ih (fun e' he' => h e' (List.mem_cons_of_mem _ he')) _

theorem foldlM_insert {ν : Type} (read : Node → Option ν) (write : ν → Value)
    {es : List (String × ν)} (h : ∀ e ∈ es, read (write e.2).node = some e.2)
    (done : OrderedMap String ν) :
    (memberNodes (es.map fun e => (e.1, write e.2))).foldlM (fun (m : OrderedMap String ν) e => do
        let k ← e.1.text?
        let v ← read e.2
        return m.insert k v) done =
      some (es.foldl (fun m e => m.insert e.1 e.2) done) := foldlM_insert_as read write id h done

end Value

end Json

end CoverRun

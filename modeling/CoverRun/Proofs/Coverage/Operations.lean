import CoverRun.Proofs.Coverage.Merging
import CoverRun.Proofs.Json.Kept
import Mathlib.Data.List.DropRight

/-!
# Tables that are reached

A table is reached from the empty one by registering sites and adding hits. What it holds of a site
can be told from these operations: the metadata of its last registration, and as many hits as were
added to it since, as far as 64 bits go (`SiteTable.find?_run`). What holds of all that `metadataOf`
makes therefore holds of every table that is reached: the counter owns the key `hits`, which is
never among the metadata (`SiteTable.hits_not_mem_run`).
-/

namespace CoverRun.SiteTable

/-- A value as metadata come: the members of its records are in key order. -/
abbrev Metadata := {v : Json.Value // v.InOrder}

/-- What is done to a table. -/
inductive Operation where
  | register (site : String) (metadata : Metadata)
  | addHits (site : String) (n : Hits)

/-- The table after an operation. -/
def apply (t : SiteTable) : Operation → SiteTable
  | .register site metadata => t.register site metadata.val
  | .addHits site n => t.addHits site n

/-- The table that operations make of the empty one. -/
def run (ops : List Operation) : SiteTable := ops.foldl apply empty

theorem run_concat (ops : List Operation) (op : Operation) :
    run (ops ++ [op]) = (run ops).apply op := by
  rw [run, List.foldl_append]
  rfl

/-! ## What operations say of a site -/

/-- The metadata with which an operation registers a site, if it does. -/
def Operation.metadata? (site : String) : Operation → Option Metadata
  | .register s metadata => if s = site then some metadata else none
  | .addHits _ _ => none

/-- How many hits an operation adds to a site. -/
def Operation.hitsFor (site : String) : Operation → Nat
  | .register _ _ => 0
  | .addHits s n => if s = site then n.toNat else 0

/-- The metadata of the last registration of a site. -/
def lastMetadata? (ops : List Operation) (site : String) : Option Metadata :=
  (ops.filterMap (Operation.metadata? site)).getLast?

/-- The hits that were added to a site since it was last registered, if it ever was. -/
def addedSince (ops : List Operation) (site : String) : Nat :=
  ((ops.rtakeWhile fun op => (op.metadata? site).isNone).map (Operation.hitsFor site)).sum

theorem Operation.metadata?_eq_some_iff {op : Operation} {site : String} {metadata : Metadata} :
    op.metadata? site = some metadata ↔ op = .register site metadata := by
  cases op with
  | register s m => by_cases hSite : s = site <;> simp [Operation.metadata?, hSite]
  | addHits s n => simp [Operation.metadata?]

theorem lastMetadata?_concat (ops : List Operation) (op : Operation) (site : String) :
    lastMetadata? (ops ++ [op]) site = (op.metadata? site).or (lastMetadata? ops site) := by
  rw [lastMetadata?, List.filterMap_append]
  cases h : op.metadata? site <;> simp [lastMetadata?, h]

theorem addedSince_concat (ops : List Operation) (op : Operation) (site : String) :
    addedSince (ops ++ [op]) site =
      if (op.metadata? site).isNone then addedSince ops site + op.hitsFor site else 0 := by
  rw [addedSince, List.rtakeWhile_concat]
  split
  · rw [List.map_append, List.sum_append, List.map_singleton, List.sum_singleton, addedSince]
  · rfl

theorem mem_of_lastMetadata? {ops : List Operation} {site : String} {metadata : Metadata}
    (h : lastMetadata? ops site = some metadata) : .register site metadata ∈ ops := by
  obtain ⟨op, hMem, hMetadata⟩ := List.mem_filterMap.1 (List.mem_of_getLast? h)
  exact Operation.metadata?_eq_some_iff.1 hMetadata ▸ hMem

/-- A site has a last registration exactly if it was registered. -/
theorem isSome_lastMetadata?_iff {ops : List Operation} {site : String} :
    (lastMetadata? ops site).isSome ↔ ∃ metadata, .register site metadata ∈ ops := by
  constructor
  · intro h
    obtain ⟨metadata, hLast⟩ := Option.isSome_iff_exists.1 h
    exact ⟨metadata, mem_of_lastMetadata? hLast⟩
  · rintro ⟨metadata, hMem⟩
    have hHere : metadata ∈ ops.filterMap (Operation.metadata? site) :=
      List.mem_filterMap.2 ⟨_, hMem, Operation.metadata?_eq_some_iff.2 rfl⟩
    exact List.getLast?_isSome.2 (List.ne_nil_of_mem hHere)

/-! ## What a table holds -/

theorem find?_register (t : SiteTable) (site s : String) (v : Json.Value) :
    (t.register site v).find? s = if s = site then some ⟨0, metadataOf v⟩ else t.find? s :=
  OrderedMap.find?_insert ..

/-- **A table holds what its operations say of each site.** -/
theorem find?_run (ops : List Operation) (site : String) :
    (run ops).find? site = (lastMetadata? ops site).map fun metadata =>
      ⟨Hits.upTo (addedSince ops site), metadataOf metadata.val⟩ := by
  induction ops using List.reverseRecOn with
  | nil => rfl
  | append_singleton ops op ih =>
      rw [run_concat, lastMetadata?_concat, addedSince_concat]
      cases op with
      | register s metadata =>
          rw [apply, find?_register, ih]
          by_cases hSite : s = site
          · subst hSite
            have hZero : Hits.upTo 0 = 0 := rfl
            simp [Operation.metadata?, hZero]
          · simp [Operation.metadata?, Operation.hitsFor, hSite, Ne.symm hSite]
      | addHits s n =>
          rw [apply, addHits_eq_credit, find?_credit, ih, Option.map_map]
          simp only [Operation.metadata?, Operation.hitsFor, Option.none_or, Option.isNone_none,
            if_true, Function.comp_def, Hits.upTo_upTo_add, eq_comm]

theorem exists_register {ops : List Operation} {site : String} {c : SiteCounter}
    (h : (run ops).find? site = some c) :
    ∃ metadata : Metadata, .register site metadata ∈ ops ∧
      c.metadata = metadataOf metadata.val := by
  rw [find?_run] at h
  obtain ⟨metadata, hLast, rfl⟩ := Option.map_eq_some_iff.1 h
  exact ⟨metadata, mem_of_lastMetadata? hLast, rfl⟩

/-! ## What is made of a value -/

theorem find?_metadataOf_hits (v : Json.Value) :
    (metadataOf v).find? SiteCounter.hitsKey = none :=
  (OrderedMap.find?_erase _ SiteCounter.hitsKey SiteCounter.hitsKey).trans (if_pos rfl)

/-- What a declaration says of a site: nothing by null, each member but the hits by a record, where
the last of equal keys counts, and any other value under a key of its own. -/
inductive Describes : Json.Value → OrderedMap String Json.Value → Prop
  | null : Describes .null OrderedMap.empty
  | record {members : List (String × Json.Value)} {metadata : OrderedMap String Json.Value}
      (kept : ∀ key, metadata.find? key =
        if key = "hits" then none else (members.filter (·.1 = key)).getLast?.map (·.2)) :
      Describes (.record members) metadata
  | other {v : Json.Value} (notNull : v ≠ .null) (notRecord : ∀ members, v ≠ .record members) :
      Describes v (OrderedMap.empty.insert "value" v)

theorem describes_metadataOf (v : Json.Value) : Describes v (metadataOf v) := by
  have hSingle (v : Json.Value) :
      (OrderedMap.empty.insert "value" v).erase "hits" = OrderedMap.empty.insert "value" v := by
    apply OrderedMap.ext_find?
    intro key
    rw [OrderedMap.find?_erase, OrderedMap.find?_insert, OrderedMap.find?_empty]
    by_cases hHits : key = "hits"
    · subst hHits
      rfl
    · rw [if_neg hHits]
  have hOther {v : Json.Value} (hNull : v ≠ .null) (hRecord : ∀ members, v ≠ .record members)
      (h : metadataOf v = (OrderedMap.empty.insert "value" v).erase "hits") :
      Describes v (metadataOf v) := by
    rw [h, hSingle]
    exact .other hNull hRecord
  cases v with
  | null => exact .null
  | record members =>
      refine .record fun key => ?_
      rw [← OrderedMap.find?_ofList_eq_last]
      exact OrderedMap.find?_erase (OrderedMap.ofList members) "hits" key
  | bool b => exact hOther (by simp) (by simp) rfl
  | number n => exact hOther (by simp) (by simp) rfl
  | string s => exact hOther (by simp) (by simp) rfl
  | list items => exact hOther (by simp) (by simp) rfl

/-- Metadata are the members of a record or a single value. -/
theorem mem_metadataOf {v : Json.Value} {m : String × Json.Value}
    (h : m ∈ (metadataOf v).entries) :
    m.2 = v ∨ ∃ members, v = .record members ∧ m ∈ members := by
  have hMem := (List.mem_filter.1 h).1
  cases v with
  | null => cases hMem
  | record members => exact Or.inr ⟨members, rfl, OrderedMap.mem_of_mem_ofList hMem⟩
  | _ =>
      rw [List.mem_singleton.1 hMem]
      exact Or.inl rfl

theorem inOrder_metadataOf {v : Json.Value} (h : v.InOrder) :
    ∀ m ∈ (metadataOf v).entries, m.2.InOrder := by
  intro m hm
  rcases mem_metadataOf hm with hSelf | ⟨members, rfl, hMem⟩
  · exact hSelf.symm ▸ h
  · cases h with
    | record _ hMembers => exact hMembers m hMem

/-- **No site that is reached has `hits` among its metadata.** -/
theorem hits_not_mem_run {ops : List Operation} {site : String} {c : SiteCounter}
    (h : (run ops).find? site = some c) : SiteCounter.hitsKey ∉ c.metadata.keys := by
  obtain ⟨metadata, -, hMetadata⟩ := exists_register h
  rw [hMetadata, ← OrderedMap.find?_eq_none_iff]
  exact find?_metadataOf_hits metadata.val

theorem inOrder_run {ops : List Operation} {site : String} {c : SiteCounter}
    (h : (run ops).find? site = some c) : ∀ m ∈ c.metadata.entries, m.2.InOrder := by
  obtain ⟨metadata, -, hMetadata⟩ := exists_register h
  rw [hMetadata]
  exact inOrder_metadataOf metadata.property

/-! ## Whole numbers -/

/-- All metadata in the table are of whole numbers, and at most so many lists and records nest in
each of them. -/
def WholeMetadata (t : SiteTable) (depth : Nat) : Prop :=
  ∀ site c, t.find? site = some c → ∀ m ∈ c.metadata.entries, m.2.Whole depth

theorem WholeMetadata.mono {t : SiteTable} {depth depth' : Nat} (h : t.WholeMetadata depth)
    (hle : depth ≤ depth') : t.WholeMetadata depth' :=
  fun site c hc m hm => (h site c hc m hm).mono hle

theorem whole_metadataOf {v : Json.Value} {depth : Nat} (h : v.Whole depth) :
    ∀ m ∈ (metadataOf v).entries, m.2.Whole depth := by
  intro m hm
  rcases mem_metadataOf hm with hSelf | ⟨members, rfl, hMem⟩
  · exact hSelf.symm ▸ h
  · cases h with
    | record hMembers => exact (hMembers m hMem).mono (Nat.le_succ _)

/-- Sites that are registered with whole numbers only make a table of whole numbers. -/
theorem wholeMetadata_run {ops : List Operation} {depth : Nat}
    (h : ∀ site metadata, .register site metadata ∈ ops → metadata.val.Whole depth) :
    (run ops).WholeMetadata depth := by
  intro site c hFind
  obtain ⟨metadata, hMem, hMetadata⟩ := exists_register hFind
  rw [hMetadata]
  exact whole_metadataOf (h site metadata hMem)

end CoverRun.SiteTable

import CoverRun.Toml.Document

/-!
# Documents that grow at their end

A header opens a table at the end of a document, and the assignments below it add their members to
this table one after the other, if no name comes twice (`Below.foldlM_assignments`). A double header
opens a row, and a header of two names a table at the end of the last one.
-/

namespace CoverRun.Toml

open Members

variable {name : String} {ms : Members}

/-! ## The last member -/

theorem alter_new (h : name ∉ ms.map (·.1)) (f : Option Value → Option Value) :
    alter name f ms = (f none).map fun v => ms ++ [(name, v)] := by
  induction ms with
  | nil => rfl
  | cons m ms ih =>
      obtain ⟨k, old⟩ := m
      simp only [List.map_cons, List.mem_cons, not_or] at h
      rw [alter, if_neg (Ne.symm h.1), ih h.2, Option.map_map]
      rfl

theorem alter_last (h : name ∉ ms.map (·.1)) (f : Option Value → Option Value) (v : Value) :
    alter name f (ms ++ [(name, v)]) = (f (some v)).map fun v' => ms ++ [(name, v')] := by
  induction ms with
  | nil => rw [List.nil_append, alter, if_pos rfl]; rfl
  | cons m ms ih =>
      obtain ⟨k, old⟩ := m
      simp only [List.map_cons, List.mem_cons, not_or] at h
      rw [List.cons_append, alter, if_neg (Ne.symm h.1), ih h.2, Option.map_map]
      rfl

theorem alterLast_concat (f : Members → Option Members) (tables : List Members) (row : Members) :
    alterLast f (tables ++ [row]) = (f row).map fun r => tables ++ [r] := by
  induction tables with
  | nil => rfl
  | cons first tables ih =>
      obtain ⟨next, more, hCons⟩ : ∃ next more, tables ++ [row] = next :: more :=
        List.exists_cons_of_ne_nil (by simp)
      rw [List.cons_append, hCons, alterLast, ← hCons, ih, Option.map_map]
      · rfl
      · exact List.cons_ne_nil _ _

theorem assign_new (h : name ∉ ms.map (·.1)) (v : Value) :
    assign [name] v ms = some (ms ++ [(name, v)]) := by
  rw [assign, alter_new h]
  rfl

/-! ## Headers -/

theorem along_into {next : String} (h : name ∉ ms.map (·.1)) (last : Option Value → Option Value)
    (outer : Members) :
    along last [name, next] (ms ++ [(name, .table .header outer)]) =
      (alter next last outer).map fun inner => ms ++ [(name, .table .header inner)] := by
  rw [along, alter_last h]
  · show Option.map _ (Option.map _ (along last [next] outer)) = _
    rw [along, Option.map_map]
    rfl
  · exact List.cons_ne_nil _ _

theorem add?_table (h : name ∉ ms.map (·.1)) (header : Key) :
    Draft.add? ⟨ms, header⟩ (.table [name]) = some ⟨ms ++ [(name, .table .header [])], [name]⟩ := by
  rw [Draft.add?, openTable, along, alter_new h]
  rfl

theorem add?_innerTable {next : String} {outer : Members} (h : name ∉ ms.map (·.1))
    (hNext : next ∉ outer.map (·.1)) (header : Key) :
    Draft.add? ⟨ms ++ [(name, .table .header outer)], header⟩ (.table [name, next]) =
      some ⟨ms ++ [(name, .table .header (outer ++ [(next, .table .header [])]))],
        [name, next]⟩ := by
  rw [Draft.add?, openTable, along_into h, alter_new hNext]
  rfl

theorem add?_firstRow (h : name ∉ ms.map (·.1)) (header : Key) :
    Draft.add? ⟨ms, header⟩ (.row [name]) = some ⟨ms ++ [(name, .rows [[]])], [name]⟩ := by
  rw [Draft.add?, openRow, along, alter_new h]
  rfl

theorem add?_nextRow (h : name ∉ ms.map (·.1)) (tables : List Members) (header : Key) :
    Draft.add? ⟨ms ++ [(name, .rows tables)], header⟩ (.row [name]) =
      some ⟨ms ++ [(name, .rows (tables ++ [[]]))], [name]⟩ := by
  rw [Draft.add?, openRow, along, alter_last h]
  rfl

/-! ## Assignments -/

/-- Assignments below a header are made in an open table. `context` puts this table into its
document. -/
def Below (header : Key) (context : Members → Members) : Prop :=
  ∀ name v inner, name ∉ inner.map (·.1) →
    assignBelow header [name] v (context inner) = some (context (inner ++ [(name, v)]))

theorem below_table (h : name ∉ ms.map (·.1)) :
    Below [name] fun inner => ms ++ [(name, .table .header inner)] := by
  intro field v inner hField
  rw [assignBelow, if_neg (List.cons_ne_nil _ _), along, alter_last h]
  dsimp only
  rw [assign_new hField]
  rfl

theorem below_innerTable {next : String} {outer : Members} (h : name ∉ ms.map (·.1))
    (hNext : next ∉ outer.map (·.1)) :
    Below [name, next] fun inner =>
      ms ++ [(name, .table .header (outer ++ [(next, .table .header inner)]))] := by
  intro field v inner hField
  rw [assignBelow, if_neg (List.cons_ne_nil _ _), along_into h, alter_last hNext]
  dsimp only
  rw [assign_new hField]
  rfl

theorem below_row (h : name ∉ ms.map (·.1)) (tables : List Members) :
    Below [name] fun inner => ms ++ [(name, .rows (tables ++ [inner]))] := by
  intro field v inner hField
  rw [assignBelow, if_neg (List.cons_ne_nil _ _), along, alter_last h]
  dsimp only
  rw [alterLast_concat, assign_new hField]
  rfl

/-- The assignments of members. -/
def assignments (fields : Members) : List Statement :=
  fields.map fun m => .assignment [m.1] m.2

/-- **Assignments add their members to the open table.** -/
theorem Below.foldlM_assignments {header : Key} {context : Members → Members}
    (h : Below header context) (inner : Members) {fields : Members}
    (hNodup : ((inner ++ fields).map (·.1)).Nodup) :
    (assignments fields).foldlM Draft.add? ⟨context inner, header⟩ =
      some ⟨context (inner ++ fields), header⟩ := by
  induction fields generalizing inner with
  | nil => rw [List.append_nil]; rfl
  | cons m fields ih =>
      obtain ⟨name, v⟩ := m
      have hSplit : inner ++ (name, v) :: fields = inner ++ [(name, v)] ++ fields := by simp
      have hNew : name ∉ inner.map (·.1) := by
        rw [List.map_append, List.nodup_append] at hNodup
        intro hMem
        exact hNodup.2.2 name hMem name (by simp) rfl
      have hHere : Draft.add? ⟨context inner, header⟩ (.assignment [name] v) =
          some ⟨context (inner ++ [(name, v)]), header⟩ := by
        rw [Draft.add?, h name v inner hNew]
        rfl
      rw [hSplit] at hNodup ⊢
      show List.foldlM Draft.add? _ (.assignment [name] v :: assignments fields) = _
      rw [List.foldlM_cons, hHere]
      exact ih _ hNodup

/-! ## Blocks -/

theorem foldlM_table (h : name ∉ ms.map (·.1)) (header : Key) {fields : Members}
    (hNodup : (fields.map (·.1)).Nodup) :
    (Statement.table [name] :: assignments fields).foldlM Draft.add? ⟨ms, header⟩ =
      some ⟨ms ++ [(name, .table .header fields)], [name]⟩ := by
  rw [List.foldlM_cons, add?_table h]
  exact (below_table h).foldlM_assignments [] hNodup

theorem foldlM_innerTable {next : String} {outer : Members} (h : name ∉ ms.map (·.1))
    (hNext : next ∉ outer.map (·.1)) (header : Key) {fields : Members}
    (hNodup : (fields.map (·.1)).Nodup) :
    (Statement.table [name, next] :: assignments fields).foldlM Draft.add?
        ⟨ms ++ [(name, .table .header outer)], header⟩ =
      some ⟨ms ++ [(name, .table .header (outer ++ [(next, .table .header fields)]))],
        [name, next]⟩ := by
  rw [List.foldlM_cons, add?_innerTable h hNext]
  exact (below_innerTable h hNext).foldlM_assignments [] hNodup

theorem foldlM_firstRow (h : name ∉ ms.map (·.1)) (header : Key) {fields : Members}
    (hNodup : (fields.map (·.1)).Nodup) :
    (Statement.row [name] :: assignments fields).foldlM Draft.add? ⟨ms, header⟩ =
      some ⟨ms ++ [(name, .rows [fields])], [name]⟩ := by
  rw [List.foldlM_cons, add?_firstRow h]
  exact (below_row h []).foldlM_assignments [] hNodup

theorem foldlM_nextRow (h : name ∉ ms.map (·.1)) (tables : List Members) (header : Key)
    {fields : Members} (hNodup : (fields.map (·.1)).Nodup) :
    (Statement.row [name] :: assignments fields).foldlM Draft.add?
        ⟨ms ++ [(name, .rows tables)], header⟩ =
      some ⟨ms ++ [(name, .rows (tables ++ [fields]))], [name]⟩ := by
  rw [List.foldlM_cons, add?_nextRow h]
  exact (below_row h tables).foldlM_assignments [] hNodup

theorem foldlM_blocks (sss : List (List Statement)) (d : Draft) :
    ([Statement.blank].intercalate sss).foldlM Draft.add? d =
      sss.foldlM (fun d ss => ss.foldlM Draft.add? d) d := by
  induction sss generalizing d with
  | nil => rfl
  | cons ss sss ih =>
      cases sss with
      | nil => simp [List.intercalate]
      | cons next sss =>
          have hSplit : [Statement.blank].intercalate (ss :: next :: sss) =
              ss ++ .blank :: [Statement.blank].intercalate (next :: sss) := by
            simp [List.intercalate]
          rw [hSplit, List.foldlM_append, List.foldlM_cons]
          cases List.foldlM Draft.add? d ss with
          | none => rfl
          | some d' =>
              show List.foldlM Draft.add? d' (.blank :: _) = _
              rw [List.foldlM_cons]
              exact ih d'

end CoverRun.Toml

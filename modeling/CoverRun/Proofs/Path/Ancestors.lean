import CoverRun.Proofs.Path.Parent

/-!
# Ancestors of paths

The ancestors of a path are its parent and the ancestors of that (`Path.ancestors_eq_cons`). So
those of a path of names are the paths of the names before the last one, before the last but one,
and so on, down to the empty path (`Path.mem_ancestors_ofNames`).
-/

namespace CoverRun.Path

/-! ## Parent by parent -/

theorem slice_slice (p : Path) {stop stop' : Nat} (h : stop' ≤ stop) :
    (p.slice 0 stop).slice 0 stop' = p.slice 0 stop' := by
  simp only [slice, List.drop_zero, Nat.sub_zero, List.take_take, Nat.min_eq_left h]

theorem ancestorsOf_slice (p : Path) {stop : Nat} {parts : List Part}
    (h : ∀ part ∈ parts, part.stop ≤ stop) :
    (p.slice 0 stop).ancestorsOf parts = p.ancestorsOf parts := by
  induction parts with
  | nil => rfl
  | cons part before ih =>
      obtain ⟨-, hBefore⟩ := List.forall_mem_cons.1 h
      have hEnd : (before.head?.map (·.stop)).getD 0 ≤ stop := by
        cases before with
        | nil => exact Nat.zero_le stop
        | cons last before => exact hBefore last List.mem_cons_self
      rw [ancestorsOf, ancestorsOf, slice_slice p hEnd, ih hBefore]

theorem stop_le_of_parts {p : Path} {before after : List Part} {part : Part}
    (h : p.parts = before ++ part :: after) : ∀ part' ∈ before, part'.stop ≤ part.stop := by
  intro part' hPart
  obtain ⟨front, middle, rfl⟩ := List.mem_iff_append.1 hPart
  obtain ⟨hParts, hLength⟩ := parts_slice h
  rw [List.append_assoc, List.cons_append] at hParts
  have hShorter : ((p.slice 0 part.stop).slice 0 part'.stop).bytes.length ≤
      (p.slice 0 part.stop).bytes.length := by
    simp only [slice, List.drop_zero, Nat.sub_zero, List.length_take]
    omega
  rwa [(parts_slice hParts).2, hLength] at hShorter

/-- **The ancestors of a path are its parent and the ancestors of that.** -/
theorem ancestors_eq_cons {p parent : Path} (h : p.parent? = some parent) :
    p.ancestors = parent :: parent.ancestors := by
  obtain ⟨further, hAncestors⟩ := List.head?_eq_some_iff.1 h
  rcases List.eq_nil_or_concat p.parts with hNone | ⟨before, part, hParts⟩
  · rw [ancestors, hNone] at hAncestors
    cases hAncestors
  rw [List.concat_eq_append] at hParts
  rw [ancestors, hParts, List.reverse_concat, ancestorsOf] at hAncestors ⊢
  by_cases hRoot : part.component = .root
  · rw [if_pos hRoot] at hAncestors
    cases hAncestors
  rw [if_neg hRoot] at hAncestors ⊢
  obtain rfl := List.head_eq_of_cons_eq hAncestors
  rw [List.head?_reverse]
  rcases List.eq_nil_or_concat before with rfl | ⟨front, last, rfl⟩
  · have hEmpty : p.slice 0 0 = ⟨[]⟩ := by simp [slice]
    simp only [List.getLast?_nil, Option.map_none, Option.getD_none, hEmpty]
    rfl
  · rw [List.concat_eq_append] at hParts ⊢
    rw [List.append_assoc] at hParts
    have hUpTo : ∀ part' ∈ (front ++ [last]).reverse, part'.stop ≤ last.stop := by
      intro part' hMem
      rcases List.mem_append.1 (List.mem_reverse.1 hMem) with hFront | hLast
      · exact stop_le_of_parts hParts part' hFront
      · rw [List.mem_singleton.1 hLast]
    rw [List.getLast?_concat, Option.map_some, Option.getD_some, ancestors, (parts_slice hParts).1,
      ancestorsOf_slice p hUpTo]

/-! ## Paths of names -/

theorem exists_last_partsFrom {names : List FileName} (h : ∀ n ∈ names, IsName n) (hne : names ≠ [])
    (start : Nat) (leading : Bool) : ∃ front last,
      partsFrom start leading (names.map FileName.bytes) = front ++ [last] ∧
        last.stop = start + (ofNames names).bytes.length := by
  induction names generalizing start leading with
  | nil => exact absurd rfl hne
  | cons n names ih =>
      obtain ⟨hName, hNames⟩ := List.forall_mem_cons.1 h
      have hHere : partsFrom start leading [n.bytes] =
          [⟨.name n, start, start + n.bytes.length⟩] := by
        rw [← partsFrom_name hName start leading, pieces_of_not_mem hName.no_slash]
      rw [List.map_cons, partsFrom_cons, hHere]
      cases names with
      | nil => exact ⟨[], _, rfl, by simp [ofNames]⟩
      | cons m names =>
          obtain ⟨front, last, hLater, hStop⟩ := ih hNames (List.cons_ne_nil m names)
            (start + n.bytes.length + 1) false
          refine ⟨_ :: front, last, by rw [hLater]; rfl, ?_⟩
          rw [hStop, bytes_ofNames_cons, List.length_append, List.length_cons]
          omega

theorem parent?_ofNames_concat {names : List FileName} {n : FileName}
    (h : ∀ m ∈ names ++ [n], IsName m) :
    (ofNames (names ++ [n])).parent? = some (ofNames names) := by
  have hName : IsName n := h n (List.mem_append_right names List.mem_cons_self)
  by_cases hEmpty : names = []
  · subst hEmpty
    simpa [ofNames] using (parent?_name hName).1
  · have hInit : ∀ m ∈ names, IsName m := fun m hm => h m (List.mem_append_left [n] hm)
    have hParts : (ofNames names).parts = partsFrom 0 true (names.map FileName.bytes) := by
      rw [parts_relative (isAbsolute_ofNames hInit), pieces_ofNames hInit hEmpty]
    obtain ⟨front, last, hLast, hStop⟩ := exists_last_partsFrom hInit hEmpty 0 true
    rw [Nat.zero_add] at hStop
    have hJoin : ofNames (names ++ [n]) = (ofNames names).join ⟨n.bytes⟩ := by
      have hFrom := join_ofNames_concat (p := ⟨[]⟩) h hEmpty
      rwa [empty_join, empty_join] at hFrom
    rw [hJoin]
    exact (parent?_join (hParts.trans hLast) hStop.symm hName).1

/-- **The ancestors of a path of names are the paths of fewer of them**, the first ones. -/
theorem mem_ancestors_ofNames {names : List FileName} (h : ∀ n ∈ names, IsName n) {dir : Path} :
    dir ∈ (ofNames names).ancestors ↔
      ∃ front, front <+: names ∧ front ≠ names ∧ dir = ofNames front := by
  induction names using List.reverseRecOn with
  | nil =>
      have hNone : (ofNames []).ancestors = [] := by decide
      rw [hNone]
      simp
  | append_singleton names n ih =>
      have hInit : ∀ m ∈ names, IsName m := fun m hm => h m (List.mem_append_left [n] hm)
      rw [ancestors_eq_cons (parent?_ofNames_concat h), List.mem_cons, ih hInit]
      constructor
      · rintro (rfl | ⟨front, hFront, -, rfl⟩)
        · exact ⟨names, List.prefix_append names [n], by simp, rfl⟩
        · refine ⟨front, hFront.trans (List.prefix_append names [n]), ?_, rfl⟩
          rintro rfl
          exact absurd hFront.length_le (by simp)
      · rintro ⟨front, hFront, hne, rfl⟩
        have hShorter : front <+: names := (List.prefix_concat_iff.1 hFront).resolve_left hne
        by_cases hAll : front = names
        · exact Or.inl (by rw [hAll])
        · exact Or.inr ⟨front, hShorter, hAll, rfl⟩

end CoverRun.Path

import CoverRun.Proofs.Path.Parent

/-!
# Remainders of paths

The bytes of a path from the start of one of its parts on have the parts from there on
(`Path.parts_drop`). So what remains of a path after another one, read from within that one, leads
on as the path does (`Path.components_join_remainder`).
-/

namespace CoverRun.Path

/-- **The bytes from the start of a part on have the parts from there on**, and no separator
comes first. -/
theorem parts_drop {cs : Bytes} {start : Nat} {before after : List Part} {part : Part}
    (h : partsFrom start false (pieces slash cs) = before ++ part :: after) :
    start ≤ part.start ∧
      partsFrom part.start false (pieces slash (cs.drop (part.start - start))) = part :: after ∧
      (cs.drop (part.start - start)).head? ≠ some slash := by
  induction hLength : cs.length using Nat.strongRecOn generalizing cs start before with
  | ind length ih =>
      by_cases hSlash : slash ∈ cs
      · obtain ⟨p, cs', rfl, hFirst⟩ := List.eq_append_cons_of_mem hSlash
        have hPiece := pieces_of_not_mem hFirst
        rw [List.length_append, List.length_cons] at hLength
        have hSplit : partsFrom start false (pieces slash (p ++ slash :: cs')) =
            partsFrom start false [p] ++
              partsFrom (start + p.length + 1) false (pieces slash cs') := by
          rw [pieces_append, hPiece, List.singleton_append, partsFrom_cons]
        have hLater (before' : List Part)
            (hRest : partsFrom (start + p.length + 1) false (pieces slash cs') =
              before' ++ part :: after) :
            start ≤ part.start ∧
              partsFrom part.start false
                (pieces slash ((p ++ slash :: cs').drop (part.start - start))) = part :: after ∧
              ((p ++ slash :: cs').drop (part.start - start)).head? ≠ some slash := by
          obtain ⟨hStart, hDropped, hHead⟩ := ih cs'.length (by omega) hRest rfl
          have hSkip : part.start - start =
              p.length + (part.start - (start + p.length + 1) + 1) := by omega
          rw [hSkip, List.drop_length_add_append, List.drop_succ_cons]
          exact ⟨by omega, hDropped, hHead⟩
        rcases partsFrom_single start false p with hNone | ⟨c, hOne⟩
        · rw [hSplit, hNone, List.nil_append] at h
          exact hLater before h
        · cases before with
          | nil =>
              have hAll := h
              rw [hSplit, hOne] at hAll
              obtain rfl := List.head_eq_of_cons_eq hAll
              have hNonempty : p ≠ [] := by
                rintro rfl
                simp [partsFrom] at hOne
              simp only [Nat.sub_self, List.drop_zero]
              refine ⟨Nat.le_refl start, h, fun hHead => hFirst ?_⟩
              obtain ⟨c', p, rfl⟩ := List.exists_cons_of_ne_nil hNonempty
              exact List.mem_of_mem_head? hHead
          | cons b before =>
              rw [hSplit, hOne] at h
              exact hLater before (List.cons_eq_cons.1 h).2
      · have hHead : cs.head? ≠ some slash := fun hEq => hSlash (List.mem_of_mem_head? hEq)
        have hAlone := h
        rw [pieces_of_not_mem hSlash] at hAlone
        obtain ⟨rfl, -, hPart⟩ := stop_of_single hAlone
        rcases partsFrom_single start false cs with hNone | ⟨c, hOne⟩
        · rw [hNone] at hPart
          cases hPart
        · obtain rfl := List.head_eq_of_cons_eq (hOne.symm.trans hPart)
          simp only [Nat.sub_self, List.drop_zero]
          exact ⟨Nat.le_refl start, h, hHead⟩

theorem componentsOf_cut {cs : Bytes} {start : Nat} {before middle after : List Part}
    {first last : Part} (hFirst : (middle ++ [last]).head? = some first)
    (h : partsFrom start false (pieces slash cs) = before ++ (middle ++ last :: after)) :
    start ≤ first.start ∧
      componentsOf false
        (pieces slash ((cs.drop (first.start - start)).take (last.stop - first.start))) =
          (middle ++ [last]).map (·.component) ∧
      ((cs.drop (first.start - start)).take (last.stop - first.start)).head? ≠ some slash := by
  obtain ⟨tail, hTail⟩ := List.head?_eq_some_iff.1 hFirst
  have hFrom : middle ++ last :: after = first :: (tail ++ after) := by
    rw [← List.cons_append, ← hTail]
    simp
  rw [hFrom] at h
  obtain ⟨hStart, hDropped, hHead⟩ := parts_drop h
  rw [← hFrom] at hDropped
  obtain ⟨-, -, hTaken⟩ := parts_take hDropped
  refine ⟨hStart, ?_, ?_⟩
  · rw [← map_partsFrom first.start, hTaken]
  · rw [List.head?_take]
    split
    · exact fun hEq => nomatch hEq
    · exact hHead

/-- **What remains of a path leads on to it**, from within the path that it remains after. -/
theorem components_join_remainder {p q r : Path} (hp : p.isAbsolute = true) (hq : q.bytes ≠ [])
    (h : p.remainder? q = some r) : (q.join r).components = p.components := by
  obtain ⟨cs, hBytes⟩ := List.head?_eq_some_iff.1 (beq_iff_eq.1 hp)
  obtain ⟨k, hSkipped⟩ : ∃ k, q.components.length = k + 1 :=
    Nat.exists_eq_add_one_of_ne_zero (mt List.length_eq_zero_iff.1 (components_ne_nil hq))
  have hParts := parts_absolute hBytes
  rw [remainder?] at h
  split at h
  case isFalse => cases h
  next hStarts =>
  simp only [hSkipped, Nat.add_one_ne_zero, if_false] at h
  obtain rfl := Option.some.inj h
  obtain ⟨rest, hRest⟩ := List.isPrefixOf_iff_prefix.1 hStarts
  have hLater : rest = ((partsFrom 1 false (pieces slash cs)).drop k).map (·.component) := by
    have hDrop : (q.components ++ rest).drop q.components.length = rest := List.drop_left
    rw [hRest, hSkipped, components, hParts, List.map_cons, List.drop_succ_cons,
      ← List.map_drop] at hDrop
    exact hDrop.symm
  rw [← hRest, hLater, hParts, List.drop_succ_cons]
  rcases List.eq_nil_or_concat ((partsFrom 1 false (pieces slash cs)).drop k) with
    hNone | ⟨middle, last, hSome⟩
  · rw [hNone]
    have hEmpty : p.slice 0 0 = ⟨[]⟩ := by simp [slice]
    exact (congrArg (components ∘ q.join) hEmpty).trans (components_join hq rfl)
  · rw [List.concat_eq_append] at hSome
    obtain ⟨first, hFirst⟩ : ∃ first, (middle ++ [last]).head? = some first :=
      Option.isSome_iff_exists.1 (by simp)
    have hSplit : partsFrom 1 false (pieces slash cs) =
        (partsFrom 1 false (pieces slash cs)).take k ++ (middle ++ last :: []) := by
      rw [← hSome, List.take_append_drop]
    obtain ⟨hStart, hCut, hHead⟩ := componentsOf_cut hFirst hSplit
    obtain ⟨start, hStart⟩ := Nat.exists_eq_add_of_le hStart
    rw [hSome, hFirst, List.getLast?_concat]
    have hSlice : (p.slice first.start last.stop).bytes =
        (cs.drop (first.start - 1)).take (last.stop - first.start) := by
      rw [slice, hBytes, hStart, Nat.add_sub_cancel_left, Nat.add_comm, List.drop_succ_cons]
    have hRelative : (p.slice first.start last.stop).isAbsolute = false := by
      rw [isAbsolute, hSlice]
      exact beq_eq_false_iff_ne.2 hHead
    refine (components_join hq hRelative).trans ?_
    rw [hSlice, hCut]

end CoverRun.Path

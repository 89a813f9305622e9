import CoverRun.Proofs.Path

/-!
# Parents of paths

The bytes of a path up to the end of one of its parts have the parts up to this one
(`Path.parts_slice`). So the parent of a path that ends with a name has the components before that
name (`Path.exists_parent`), and however many separators and inner `.` stood there are gone. Reading
a name from within the parent adds one part, and the parent is still the same path
(`Path.parent?_join`).
-/

namespace CoverRun.Path

/-! ## Parts -/

theorem partsFrom_single (start : Nat) (leading : Bool) (p : Bytes) :
    partsFrom start leading [p] = [] ∨
      ∃ c, partsFrom start leading [p] = [⟨c, start, start + p.length⟩] := by
  by_cases hEmpty : p = []
  · exact Or.inl (by simp [partsFrom, hEmpty])
  · by_cases hCurrent : p = [dot]
    · cases leading
      · exact Or.inl (by simp [partsFrom, hCurrent])
      · exact Or.inr ⟨.current, by simp [partsFrom, hCurrent]⟩
    · exact Or.inr ⟨componentOf p, by simp [partsFrom, hEmpty, hCurrent]⟩

theorem stop_of_single {start : Nat} {leading : Bool} {p : Bytes} {before after : List Part}
    {part : Part} (h : partsFrom start leading [p] = before ++ part :: after) :
    before = [] ∧ part.stop = start + p.length ∧ partsFrom start leading [p] = [part] := by
  rcases partsFrom_single start leading p with hNone | ⟨c, hOne⟩
  · rw [hNone] at h
    simp at h
  · have hBoth := hOne.symm.trans h
    cases before with
    | cons b before => simp at hBoth
    | nil =>
        obtain rfl := List.head_eq_of_cons_eq hBoth
        exact ⟨rfl, rfl, hOne⟩

/-- **The bytes up to the end of a part have the parts up to it.** -/
theorem parts_take {cs : Bytes} {start : Nat} {leading : Bool} {before after : List Part}
    {part : Part} (h : partsFrom start leading (pieces slash cs) = before ++ part :: after) :
    start ≤ part.stop ∧ part.stop ≤ start + cs.length ∧
      partsFrom start leading (pieces slash (cs.take (part.stop - start))) = before ++ [part] := by
  induction hLength : cs.length using Nat.strongRecOn generalizing cs start leading before with
  | ind length ih =>
      by_cases hSlash : slash ∈ cs
      · obtain ⟨p, cs', rfl, hFirst⟩ := List.eq_append_cons_of_mem hSlash
        have hPiece := pieces_of_not_mem hFirst
        rw [pieces_append, hPiece, List.singleton_append, partsFrom_cons] at h
        rw [List.length_append, List.length_cons] at hLength
        have hLater (before' : List Part)
            (hRest : partsFrom (start + p.length + 1) false (pieces slash cs') =
              before' ++ part :: after) :
            start ≤ part.stop ∧ part.stop ≤ start + length ∧
              partsFrom start leading
                  (pieces slash ((p ++ slash :: cs').take (part.stop - start))) =
                partsFrom start leading [p] ++ (before' ++ [part]) := by
          obtain ⟨hStart, hEnd, hTaken⟩ := ih cs'.length (by omega) hRest rfl
          have hStop : part.stop - start = p.length + (part.stop - (start + p.length + 1) + 1) := by
            omega
          refine ⟨by omega, by omega, ?_⟩
          rw [hStop, List.take_length_add_append, List.take_succ_cons, pieces_append, hPiece,
            List.singleton_append, partsFrom_cons, hTaken]
        rcases partsFrom_single start leading p with hNone | ⟨c, hOne⟩
        · rw [hNone, List.nil_append] at h
          have hRest := hLater before h
          rwa [hNone, List.nil_append] at hRest
        · rw [hOne] at h
          cases before with
          | nil =>
              obtain rfl := List.head_eq_of_cons_eq h
              refine ⟨Nat.le_add_right start p.length, by simp only; omega, ?_⟩
              rw [Nat.add_sub_cancel_left, List.take_left, hPiece, hOne]
              rfl
          | cons b before =>
              obtain ⟨rfl, hRest⟩ := List.cons_eq_cons.1 h
              have hAll := hLater before hRest
              rwa [hOne] at hAll
      · rw [pieces_of_not_mem hSlash] at h
        obtain ⟨rfl, hStop, hAlone⟩ := stop_of_single h
        refine ⟨hStop ▸ Nat.le_add_right start cs.length, by omega, ?_⟩
        rw [hStop, Nat.add_sub_cancel_left, List.take_length, pieces_of_not_mem hSlash, hAlone]
        rfl

/-! ## Parents -/

theorem root_not_mem_componentsOf (leading : Bool) (ps : List Bytes) :
    Component.root ∉ componentsOf leading ps := by
  induction ps generalizing leading with
  | nil => exact List.not_mem_nil
  | cons p ps ih =>
      have hPiece : Component.root ≠ componentOf p := by
        rw [componentOf]
        split <;> exact Component.noConfusion
      rw [componentsOf]
      split
      · exact ih false
      split
      · split
        · simpa using ih false
        · exact ih false
      · simpa [hPiece] using ih false

theorem isAbsolute_iff {p : Path} : p.isAbsolute = true ↔ p.components.head? = some .root := by
  constructor
  · intro hAbsolute
    obtain ⟨cs, hBytes⟩ := List.head?_eq_some_iff.1 (beq_iff_eq.1 hAbsolute)
    rw [components_absolute hBytes]
    rfl
  · intro hHead
    by_contra hRelative
    rw [components_relative (Bool.eq_false_iff.2 hRelative)] at hHead
    exact root_not_mem_componentsOf _ _ (List.mem_of_mem_head? hHead)

theorem parts_slice {p : Path} {before after : List Part} {part : Part}
    (h : p.parts = before ++ part :: after) :
    (p.slice 0 part.stop).parts = before ++ [part] ∧
      (p.slice 0 part.stop).bytes.length = part.stop := by
  have hBytes : (p.slice 0 part.stop).bytes = p.bytes.take part.stop := rfl
  suffices hEnd : (p.slice 0 part.stop).parts = before ++ [part] ∧
      part.stop ≤ p.bytes.length by
    exact ⟨hEnd.1, by rw [hBytes, List.length_take, Nat.min_eq_left hEnd.2]⟩
  by_cases hAbsolute : p.isAbsolute = true
  · obtain ⟨cs, hCons⟩ := List.head?_eq_some_iff.1 (beq_iff_eq.1 hAbsolute)
    rw [parts_absolute hCons] at h
    rw [hCons] at hBytes ⊢
    cases before with
    | nil =>
        obtain rfl := List.head_eq_of_cons_eq h
        exact ⟨parts_absolute hBytes, by simp⟩
    | cons b before =>
        obtain ⟨rfl, hRest⟩ := List.cons_eq_cons.1 h
        obtain ⟨hStart, hEnd, hTaken⟩ := parts_take hRest
        obtain ⟨stop, hStop⟩ := Nat.exists_eq_add_of_le hStart
        refine ⟨?_, by rw [List.length_cons]; omega⟩
        rw [hStop, Nat.add_comm, List.take_succ_cons] at hBytes
        rw [hStop, Nat.add_sub_cancel_left] at hTaken
        rw [hStop, Nat.add_comm, parts_absolute hBytes, hTaken]
        rfl
  · have hRelative : (p.slice 0 part.stop).isAbsolute = false := by
      rw [isAbsolute, hBytes, List.head?_take]
      split
      · rfl
      · exact Bool.eq_false_iff.2 hAbsolute
    rw [parts_relative (Bool.eq_false_iff.2 hAbsolute)] at h
    obtain ⟨-, hEnd, hTaken⟩ := parts_take h
    rw [parts_relative hRelative, hBytes]
    exact ⟨hTaken, by omega⟩

theorem components_slice {p : Path} {before after : List Part} {part : Part}
    (h : p.parts = before ++ part :: after) :
    (p.slice 0 part.stop).components = (before ++ [part]).map (·.component) :=
  congrArg (List.map Part.component) (parts_slice h).1

theorem parent?_of_parts {p : Path} {before : List Part} {part : Part}
    (h : p.parts = before ++ [part]) (hPart : part.component ≠ .root) :
    p.parent? = some (p.slice 0 ((before.getLast?.map (·.stop)).getD 0)) := by
  rw [parent?, ancestors, h, List.reverse_concat, ancestorsOf, if_neg hPart, List.head?_cons,
    List.head?_reverse]

/-- **The parent of a path has the components before the last one**, which is a name. -/
theorem exists_parent {p : Path} {cs : List Component} {name : FileName}
    (h : p.components = cs ++ [.name name]) :
    ∃ parent, p.parent? = some parent ∧ parent.components = cs := by
  obtain ⟨before, last, hParts, hBefore, hLast⟩ := List.map_eq_append_iff.1 h
  obtain ⟨part, rfl, hPart⟩ := List.map_eq_singleton_iff.1 hLast
  have hNotRoot : part.component ≠ .root := by
    rw [hPart]
    exact Component.noConfusion
  refine ⟨_, parent?_of_parts hParts hNotRoot, ?_⟩
  subst hBefore
  rcases List.eq_nil_or_concat before with rfl | ⟨front, part', rfl⟩
  · rfl
  · rw [List.concat_eq_append] at hParts ⊢
    rw [List.getLast?_concat]
    exact components_slice (hParts.trans (List.append_assoc front [part'] [part]))

/-! ## Names in a parent -/

theorem partsFrom_name {name : FileName} (h : IsName name) (start : Nat) (leading : Bool) :
    partsFrom start leading (pieces slash name.bytes) =
      [⟨.name name, start, start + name.bytes.length⟩] := by
  rw [pieces_of_not_mem h.no_slash, partsFrom, if_neg h.nonempty, if_neg h.not_current,
    componentOf, if_neg h.not_parent, partsFrom]

theorem exists_parts_join_name {p : Path} (hp : p.bytes ≠ []) {name : FileName} (h : IsName name) :
    ∃ start, (p.join ⟨name.bytes⟩).parts =
        p.parts ++ [⟨.name name, start, start + name.bytes.length⟩] ∧
      p.bytes <+: (p.join ⟨name.bytes⟩).bytes := by
  obtain ⟨start, hParts⟩ := @exists_parts_join p ⟨name.bytes⟩ hp (h.isAbsolute)
  rw [partsFrom_name h] at hParts
  exact ⟨start, hParts⟩

/-- A path whose last part ends where its bytes do is the parent of each name in it. -/
theorem parent?_join {p : Path} {front : List Part} {last : Part}
    (hParts : p.parts = front ++ [last]) (hLength : p.bytes.length = last.stop)
    {name : FileName} (h : IsName name) : (p.join ⟨name.bytes⟩).parent? = some p ∧
      (p.join ⟨name.bytes⟩).components = p.components ++ [.name name] := by
  have hp : p.bytes ≠ [] := by
    apply bytes_ne_of_components
    simp [components, hParts]
  obtain ⟨start, hJoined, rest, hRest⟩ := exists_parts_join_name hp h
  refine ⟨?_, by simp [components, hJoined]⟩
  rw [parent?_of_parts hJoined Component.noConfusion, hParts, List.getLast?_concat]
  have hSame : (p.join ⟨name.bytes⟩).slice 0 last.stop = p := by
    rw [slice, List.drop_zero, Nat.sub_zero, ← hRest, ← hLength, List.take_left]
  exact congrArg some hSame

theorem parent?_name {name : FileName} (h : IsName name) :
    (Path.mk name.bytes).parent? = some ⟨[]⟩ ∧ (Path.mk name.bytes).components = [.name name] := by
  have hParts : (Path.mk name.bytes).parts = [] ++ [⟨.name name, 0, 0 + name.bytes.length⟩] := by
    rw [parts_relative h.isAbsolute, partsFrom_name h]
    rfl
  refine ⟨parent?_of_parts hParts Component.noConfusion, ?_⟩
  rw [components, hParts]
  rfl

/-- **Another name in the parent of a path has the same parent**, and its components but for the
last. -/
theorem parent?_sibling {p parent : Path} {cs : List Component} {name : FileName}
    (h : p.components = cs ++ [.name name]) (hParent : p.parent? = some parent) {name' : FileName}
    (h' : IsName name') : (parent.join ⟨name'.bytes⟩).parent? = some parent ∧
      (parent.join ⟨name'.bytes⟩).components = cs ++ [.name name'] := by
  obtain ⟨before, last, hParts, rfl, hLast⟩ := List.map_eq_append_iff.1 h
  obtain ⟨part, rfl, hPart⟩ := List.map_eq_singleton_iff.1 hLast
  rw [parent?_of_parts hParts (hPart ▸ Component.noConfusion)] at hParent
  obtain rfl := Option.some.inj hParent
  rcases List.eq_nil_or_concat before with rfl | ⟨front, last, rfl⟩
  · have hAlone : (Path.mk []).join ⟨name'.bytes⟩ = ⟨name'.bytes⟩ := empty_join ⟨name'.bytes⟩
    obtain ⟨hEmpty, hComponents⟩ := parent?_name h'
    exact ⟨(congrArg parent? hAlone).trans hEmpty, (congrArg components hAlone).trans hComponents⟩
  · rw [List.concat_eq_append] at hParts ⊢
    rw [List.append_assoc] at hParts
    obtain ⟨hFront, hLength⟩ := parts_slice hParts
    rw [List.getLast?_concat]
    obtain ⟨hSame, hComponents⟩ := parent?_join hFront hLength h'
    refine ⟨hSame, hComponents.trans ?_⟩
    exact congrArg (· ++ [Component.name name']) (congrArg (List.map Part.component) hFront)

/-! ## File names -/

theorem fileName?_of_components {p : Path} {cs : List Component} {name : FileName}
    (h : p.components = cs ++ [.name name]) : p.fileName? = some name := by
  rw [fileName?, h, List.getLast?_concat]

theorem exists_components_of_fileName? {p : Path} {name : FileName} (h : p.fileName? = some name) :
    ∃ cs, p.components = cs ++ [.name name] := by
  rw [fileName?] at h
  split at h
  · next name' hLast =>
    obtain rfl := Option.some.inj h
    exact List.getLast?_eq_some_iff.1 hLast
  · cases h

theorem isName_of_fileName? {p : Path} {name : FileName} (h : p.fileName? = some name) :
    IsName name := by
  have hWritten := isWritten_components p
  rw [fileName?] at h
  split at h
  · next name' hLast =>
    obtain rfl := Option.some.inj h
    cases hComponents : p.components with
    | nil => simp [hComponents] at hLast
    | cons c cs =>
        rw [hComponents] at hWritten hLast
        rcases List.mem_cons.1 (List.mem_of_mem_getLast? hLast) with rfl | hMem
        · rcases hWritten.1 with hRoot | hCurrent | hStep
          · cases hRoot
          · cases hCurrent
          · exact hStep
        · exact hWritten.2 _ hMem
  · cases h

theorem components_ne_nil {p : Path} (h : p.bytes ≠ []) : p.components ≠ [] := by
  by_cases hAbsolute : p.isAbsolute = true
  · intro hNil
    have hHead := isAbsolute_iff.1 hAbsolute
    rw [hNil] at hHead
    cases hHead
  · rw [components_relative (Bool.eq_false_iff.2 hAbsolute)]
    obtain ⟨c, cs, hBytes⟩ := List.exists_cons_of_ne_nil h
    have hSlash : c ≠ slash := by
      rintro rfl
      simp [isAbsolute, hBytes] at hAbsolute
    obtain ⟨piece, rest, hPieces⟩ := List.exists_cons_of_ne_nil (pieces_ne_nil cs)
    rw [hBytes, pieces, if_neg hSlash, hPieces]
    by_cases hCurrent : c :: piece = [dot]
    · simp [componentsOf, hCurrent]
    · simp [componentsOf, hCurrent]

end CoverRun.Path

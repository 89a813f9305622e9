import CoverRun.Proofs.Path.Parent
import CoverRun.Proofs.Path.Text
import CoverRun.Selection
import CoverRun.Shadow.Name

/-!
# Shadows are named apart

The name of a shadow is made in two ways (`Shadow.nameBytes_split`): a file name with an extension
gets the marker before it, any other name at its end. The last dot of a shadow's name tells the two
ways apart, so no two file names have the same shadow name. A shadow has the parent of its source
and a name that begins with a dot, so it is the shadow of one path only and no path with another
name (`Shadow.namePath_apart`). It is hidden exactly if the name of its source is UTF-8
(`Shadow.isHidden_nameOf`).
-/

namespace CoverRun.Shadow

open CoverRun.Path

/-! ## Names -/

/-- The name of the shadow of a file name. -/
def nameOf (name : FileName) : FileName := ⟨nameBytes name.bytes⟩

/-- The name of a shadow is a dot, the stem, the marker and what else the file name has. -/
theorem nameBytes_cases (name : Bytes) : ∃ stem rest,
    nameBytes name = dot :: (stem ++ marker ++ rest) ∧
      ∀ b ∈ stem ++ rest, b ∈ name ∨ b = dot := by
  rcases cutName_cases name with ⟨stem, ext, hCut, hName, -, -⟩ | hCut
  · refine ⟨stem, dot :: ext, by simp [nameBytes, hCut], fun b hb => Or.inl ?_⟩
    rwa [hName]
  · refine ⟨name, [], by simp [nameBytes, hCut], fun b hb => Or.inl ?_⟩
    rwa [List.append_nil] at hb

theorem head?_nameOf (name : FileName) : (nameOf name).bytes.head? = some dot := by
  obtain ⟨stem, rest, hBytes, -⟩ := nameBytes_cases name.bytes
  rw [nameOf, hBytes, List.head?_cons]

theorem isName_nameOf {name : FileName} (h : slash ∉ name.bytes) : IsName (nameOf name) := by
  obtain ⟨stem, rest, hBytes, hOwn⟩ := nameBytes_cases name.bytes
  have hLong (short : Bytes) (hShort : short.length < 7) : (nameOf name).bytes ≠ short := by
    intro hEq
    have hLength := congrArg List.length hEq
    have hMarker : marker.length = 6 := by decide
    simp only [nameOf, hBytes, List.length_cons, List.length_append, hMarker] at hLength
    omega
  refine ⟨hLong [] (by decide), hLong [dot] (by decide), hLong [dot, dot] (by decide),
    fun hSlash => ?_⟩
  have hMarker : slash ∉ marker := by decide
  have hOwn' : slash ∉ stem ++ rest := fun hMem => (hOwn _ hMem).elim h (by decide)
  rw [List.mem_append, not_or] at hOwn'
  rw [nameOf, hBytes, List.mem_cons, List.mem_append, List.mem_append] at hSlash
  rcases hSlash with hDot | (hStem | hMiddle) | hRest
  · exact absurd hDot (by decide)
  · exact hOwn'.1 hStem
  · exact hMarker hMiddle
  · exact hOwn'.2 hRest

theorem no_slash_fileName (p : Path) : slash ∉ (p.fileName?.getD "").bytes := by
  cases hName : p.fileName? with
  | none => exact List.not_mem_nil
  | some name => exact (isName_of_fileName? hName).no_slash

/-! ## One name for each -/

/-- **The two ways in which the name of a shadow is made.** -/
theorem nameBytes_split (name : Bytes) :
    (∃ stem ext, stem ≠ [] ∧ dot ∉ ext ∧ name = stem ++ dot :: ext ∧
      nameBytes name = dot :: (stem ++ marker ++ dot :: ext)) ∨
    dot ∉ name.tail ∧ nameBytes name = dot :: (name ++ marker) := by
  by_cases hDot : dot ∈ name.tail
  · obtain ⟨c, rest, rfl⟩ := List.exists_cons_of_ne_nil fun hNil : name = [] => by
      simp [hNil] at hDot
    obtain ⟨head, ext, hRest, hExt⟩ := exists_lastDot hDot
    obtain rfl : rest = head ++ dot :: ext := hRest
    have hCut := @cutName_append (c :: head) ext (List.cons_ne_nil c head) hExt
    exact Or.inl ⟨c :: head, ext, List.cons_ne_nil c head, hExt, rfl, by
      rw [← List.cons_append, nameBytes, hCut]
      rfl⟩
  · exact Or.inr ⟨hDot, by simp [nameBytes, cutName_of_not_mem hDot]⟩

theorem eq_of_marked {stem ext name : Bytes} (hExt : dot ∉ ext)
    (h : stem ++ marker ++ dot :: ext = name ++ marker) : stem ++ marker = name :=
  (lastDot_unique hExt (by decide : dot ∉ Utf8.encode "cover") h).1

theorem dot_mem_marked {stem : Bytes} (hStem : stem ≠ []) : dot ∈ (stem ++ marker).tail := by
  obtain ⟨c, stem, rfl⟩ := List.exists_cons_of_ne_nil hStem
  simp [marker]

theorem nameBytes_injective : Function.Injective nameBytes := by
  intro name name' hEq
  rcases nameBytes_split name with ⟨stem, ext, hStem, hExt, rfl, hMade⟩ | ⟨hDotless, hMade⟩ <;>
    rcases nameBytes_split name' with
      ⟨stem', ext', hStem', hExt', rfl, hMade'⟩ | ⟨hDotless', hMade'⟩ <;>
    rw [hMade, hMade'] at hEq <;> have hRest := List.tail_eq_of_cons_eq hEq
  · obtain ⟨hMarked, rfl⟩ := lastDot_unique hExt hExt' hRest
    rw [List.append_cancel_right hMarked]
  · obtain rfl := eq_of_marked hExt hRest
    exact absurd (dot_mem_marked hStem) hDotless'
  · obtain rfl := eq_of_marked hExt' hRest.symm
    exact absurd (dot_mem_marked hStem') hDotless
  · exact List.append_cancel_right hRest

theorem nameOf_injective : Function.Injective nameOf := fun _ _ hEq =>
  congrArg FileName.mk (nameBytes_injective (FileName.mk.inj hEq))

/-- **The name of a shadow is UTF-8 exactly if that of its source is.** -/
theorem isText_nameOf (name : FileName) : (nameOf name).isText = name.isText := by
  have hDot : dot.toNat < 0x80 := by decide
  have hCover : (Utf8.decode? (Utf8.encode "cover")).isSome = true := by decide
  have hFirst (bs : Bytes) : (Utf8.decode? (dot :: bs)).isSome = (Utf8.decode? bs).isSome :=
    Utf8.isSome_decode?_append_ascii [] bs hDot
  rw [FileName.isText, FileName.isText, nameOf]
  rcases nameBytes_split name.bytes with ⟨stem, ext, -, -, hName, hMade⟩ | ⟨-, hMade⟩
  · rw [hMade, hName, hFirst, marker, List.append_assoc, List.cons_append,
      Utf8.isSome_decode?_append_ascii _ _ hDot, Utf8.isSome_decode?_append_ascii _ _ hDot,
      Utf8.isSome_decode?_append_ascii _ _ hDot, hCover, Bool.true_and]
  · rw [hMade, hFirst, marker, Utf8.isSome_decode?_append_ascii _ _ hDot, hCover, Bool.and_true]

theorem isHidden_nameOf (name : FileName) : Selection.isHidden (nameOf name) = name.isText := by
  rw [Selection.isHidden, isText_nameOf, head?_nameOf, beq_self_eq_true, Bool.and_true]

/-! ## Paths -/

theorem namePath_eq {p parent : Path} {name : FileName} (hParent : p.parent? = some parent)
    (hName : p.fileName? = some name) : namePath p = parent.join ⟨(nameOf name).bytes⟩ := by
  rw [namePath, hParent, hName]
  rfl

/-- **A shadow has the parent of its source and its own name.** -/
theorem namePath_spec {p : Path} {cs : List Component} {name : FileName}
    (h : p.components = cs ++ [.name name]) :
    (namePath p).parent? = p.parent? ∧
      (namePath p).components = cs ++ [.name (nameOf name)] := by
  have hName := fileName?_of_components h
  have hShadow : IsName (nameOf name) := isName_nameOf (isName_of_fileName? hName).no_slash
  obtain ⟨parent, hParent, -⟩ := exists_parent h
  rw [namePath_eq hParent hName, hParent]
  exact parent?_sibling h hParent hShadow

/-- **No two paths share a shadow, and the name of a shadow begins with a dot.** -/
theorem namePath_apart {p : Path} {name : FileName} (h : p.fileName? = some name) :
    (∀ q : Path, q.fileName?.isSome →
      ((namePath p).components = (namePath q).components ↔ p.components = q.components)) ∧
    (namePath p).parent? = p.parent? ∧
    ∃ shadow, (namePath p).fileName? = some shadow ∧ shadow.bytes.head? = some dot ∧
      ∀ q : Path, (∀ n, q.fileName? = some n → n.bytes.head? ≠ some dot) →
        (namePath p).components ≠ q.components := by
  obtain ⟨cs, hComponents⟩ := exists_components_of_fileName? h
  obtain ⟨hParent, hShadow⟩ := namePath_spec hComponents
  have hHidden := head?_nameOf name
  refine ⟨fun q hq => ?_, hParent, nameOf name, fileName?_of_components hShadow, hHidden,
    fun q hq hEq => ?_⟩
  · obtain ⟨name', hName'⟩ := Option.isSome_iff_exists.1 hq
    obtain ⟨cs', hComponents'⟩ := exists_components_of_fileName? hName'
    rw [hShadow, (namePath_spec hComponents').2, hComponents, hComponents']
    constructor
    · intro hEq
      obtain ⟨rfl, hLast⟩ := List.append_inj' hEq rfl
      rw [nameOf_injective (Component.name.inj (List.head_eq_of_cons_eq hLast))]
    · intro hEq
      obtain ⟨rfl, hLast⟩ := List.append_inj' hEq rfl
      rw [Component.name.inj (List.head_eq_of_cons_eq hLast)]
  · exact hq _ (fileName?_of_components (hEq.symm.trans hShadow)) hHidden

/-- A file name that is marked already, beside the name without the mark. -/
theorem namePath_apart_marked :
    (ofText "c//x.cover").fileName? = some (FileName.ofText "x.cover") ∧
      (namePath "c//x.cover").components ≠ (namePath "c/x").components ∧
      (namePath "c//x.cover").parent? = (ofText "c//x.cover").parent? ∧
      (namePath "c//x.cover").components ≠ (ofText "c/x.cover.cover").components := by
  have hName : (ofText "c//x.cover").fileName? = some (FileName.ofText "x.cover") := by
    decide +kernel
  obtain ⟨hApart, hParent, -, -, -, hShown⟩ := namePath_apart hName
  refine ⟨hName, ?_, hParent, ?_⟩
  · intro hEq
    have hSame := (hApart "c/x" (by decide +kernel)).1 hEq
    exact absurd hSame (by decide +kernel)
  · apply hShown
    intro n hn
    have hPlain : (ofText "c/x.cover.cover").fileName? =
        some (FileName.ofText "x.cover.cover") := by decide +kernel
    obtain rfl := Option.some.inj (hPlain.symm.trans hn)
    decide

end CoverRun.Shadow

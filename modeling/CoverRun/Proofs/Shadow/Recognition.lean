import CoverRun.Proofs.Shadow.Name

/-!
# Which names are recognised

A name is recognised as that of a shadow if it is UTF-8, begins with a dot and has the marker after
something, either before its last dot or at its end; if the marker stands before the last dot, the
end is not looked at (`Shadow.isMarked_iff`). That is not quite what the names of shadows are. The
shadow of a name that is not UTF-8 is passed over, and that of `.cover` too, since the marker before
its last dot stands after nothing. A name with further dots before a marker at its end is recognised
though it is no shadow (`Shadow.isShadow_iff`).
-/

namespace CoverRun.Shadow

open CoverRun.Path

/-! ## Marked names -/

theorem endsMarked_iff {cs : Bytes} :
    endsMarked cs = true ↔ ∃ name, name ≠ [] ∧ cs = name ++ marker := by
  rw [endsMarked, Bool.and_eq_true, List.isSuffixOf_iff_suffix, decide_eq_true_iff]
  constructor
  · rintro ⟨⟨name, rfl⟩, hLength⟩
    refine ⟨name, ?_, rfl⟩
    rintro rfl
    simp at hLength
  · rintro ⟨name, hne, rfl⟩
    have hPositive := List.length_pos_iff.2 hne
    refine ⟨List.suffix_append name marker, ?_⟩
    rw [List.length_append]
    omega

/-- Where the marker stands before the last dot, only that place counts. -/
theorem isMarked_append {head ext : Bytes} (hExt : dot ∉ ext) :
    isMarked (head ++ dot :: ext) = true ↔ endsMarked head = true ∨
      ¬ marker <:+ head ∧ endsMarked (head ++ dot :: ext) = true := by
  have hBefore : (head ++ dot :: ext).reverse.dropWhile (· != dot) = dot :: head.reverse := by
    rw [List.reverse_append, List.reverse_cons, List.append_assoc,
      List.dropWhile_append_of_pos (fun c hc => ?_)]
    · simp
    · have hOther : c ≠ dot := fun hDot => hExt (hDot ▸ List.mem_reverse.1 hc)
      simpa using hOther
  rw [isMarked, hBefore]
  by_cases hSuffix : marker <:+ head <;> simp [endsMarked, hSuffix, List.isSuffixOf_iff_suffix]

/-- **The two places of the marker.** -/
theorem isMarked_iff {rest : Bytes} : isMarked rest = true ↔
    (∃ stem ext, stem ≠ [] ∧ dot ∉ ext ∧ rest = stem ++ marker ++ dot :: ext) ∨
    ∃ name, name ≠ [] ∧ ¬ marker <:+ name ∧ rest = name ++ marker := by
  have hCover : dot ∉ Utf8.encode "cover" := by decide
  constructor
  · intro h
    have hDot : dot ∈ rest := by
      by_contra hDotless
      have hBefore : rest.reverse.dropWhile (· != dot) = [] := by
        rw [List.dropWhile_eq_nil_iff]
        intro c hc
        rw [bne_iff_ne]
        rintro rfl
        exact hDotless (List.mem_reverse.1 hc)
      rw [isMarked, hBefore] at h
      obtain ⟨name, -, rfl⟩ := endsMarked_iff.1 h
      exact hDotless (List.mem_append_right name List.mem_cons_self)
    obtain ⟨head, ext, rfl, hExt⟩ := exists_lastDot hDot
    rcases (isMarked_append hExt).1 h with hHead | ⟨hNot, hEnd⟩
    · obtain ⟨stem, hStem, rfl⟩ := endsMarked_iff.1 hHead
      exact Or.inl ⟨stem, ext, hStem, hExt, rfl⟩
    · obtain ⟨name, hne, hName⟩ := endsMarked_iff.1 hEnd
      obtain ⟨rfl, -⟩ := lastDot_unique hExt hCover hName
      exact Or.inr ⟨head, hne, hNot, hName⟩
  · rintro (⟨stem, ext, hStem, hExt, rfl⟩ | ⟨name, hne, hNot, rfl⟩)
    · exact (isMarked_append hExt).2 (Or.inl (endsMarked_iff.2 ⟨stem, hStem, rfl⟩))
    · exact (isMarked_append hCover).2 (Or.inr ⟨hNot, endsMarked_iff.2 ⟨name, hne, rfl⟩⟩)

theorem isMarkedName_iff {name : Bytes} :
    isMarkedName name = true ↔ ∃ rest, name = dot :: rest ∧ isMarked rest = true := by
  cases name with
  | nil => simp [isMarkedName]
  | cons b rest =>
      rw [isMarkedName, Bool.and_eq_true, beq_iff_eq]
      constructor
      · rintro ⟨rfl, hMarked⟩
        exact ⟨rest, rfl, hMarked⟩
      · rintro ⟨rest', hEq, hMarked⟩
        obtain ⟨rfl, rfl⟩ := List.cons_eq_cons.1 hEq
        exact ⟨rfl, hMarked⟩

theorem isMarkedName_nameBytes {name ext : Bytes} (h : (cutName name).2 = some ext) :
    isMarkedName (nameBytes name) = true := by
  rcases nameBytes_split name with ⟨stem, ext', hStem, hExt, -, hMade⟩ | ⟨hDotless, -⟩
  · refine isMarkedName_iff.2 ⟨_, hMade, isMarked_iff.2 (Or.inl ⟨stem, ext', hStem, hExt, rfl⟩)⟩
  · rw [cutName_of_not_mem hDotless] at h
    cases h

/-! ## Shadows that are recognised, and others -/

theorem isMarkedName_of_ne {name : Bytes} (hne : name ≠ []) (hCover : name ≠ marker) :
    isMarkedName (nameBytes name) = true := by
  rcases nameBytes_split name with ⟨stem, ext, hStem, hExt, -, hMade⟩ | ⟨hDotless, hMade⟩
  · exact isMarkedName_iff.2 ⟨_, hMade, isMarked_iff.2 (Or.inl ⟨stem, ext, hStem, hExt, rfl⟩)⟩
  · refine isMarkedName_iff.2 ⟨_, hMade, isMarked_iff.2 (Or.inr ⟨name, hne, ?_, rfl⟩)⟩
    rintro ⟨before, rfl⟩
    cases before with
    | nil => exact hCover rfl
    | cons c before => simp [marker] at hDotless

theorem exists_of_isMarkedName {name : FileName} (hSlash : slash ∉ name.bytes)
    (h : isMarkedName name.bytes = true) :
    (∃ n, IsName n ∧ n.bytes ≠ marker ∧ nameOf n = name) ∨ name = "...cover." ∨
      ∃ n, name.bytes = dot :: (n ++ marker) ∧ ¬ marker <:+ n ∧ (n = [dot] ∨ dot ∈ n.tail) := by
  obtain ⟨rest, hRest, hMarked⟩ := isMarkedName_iff.1 h
  have hMade {n : Bytes} (hn : nameBytes n = dot :: rest) : nameOf ⟨n⟩ = name :=
    congrArg FileName.mk (hn.trans hRest.symm)
  rw [hRest] at hSlash
  rcases isMarked_iff.1 hMarked with ⟨stem, ext, hStem, hExt, rfl⟩ | ⟨n, hne, hNot, rfl⟩
  · by_cases hParent : stem ++ dot :: ext = [dot, dot]
    · obtain ⟨rfl, rfl⟩ := @lastDot_unique stem [dot] ext [] hExt List.not_mem_nil hParent
      exact Or.inr (Or.inl (congrArg FileName.mk hRest))
    · refine Or.inl ⟨⟨_⟩, ⟨by simp, ?_, hParent, ?_⟩, ?_, hMade ?_⟩
      · intro hEq
        exact hStem (@lastDot_unique stem [] ext [] hExt List.not_mem_nil hEq).1
      · simp only [List.mem_cons, List.mem_append, not_or] at hSlash ⊢
        exact ⟨hSlash.2.1.1, hSlash.2.2⟩
      · intro hEq
        exact hStem (@lastDot_unique stem [] ext (Utf8.encode "cover") hExt (by decide) hEq).1
      · rw [nameBytes, cutName_append hStem hExt]
        rfl
  · by_cases hDot : n = [dot] ∨ dot ∈ n.tail
    · exact Or.inr (Or.inr ⟨n, hRest, hNot, hDot⟩)
    · rw [not_or] at hDot
      refine Or.inl ⟨⟨n⟩, ⟨hne, hDot.1, ?_, ?_⟩, ?_, hMade ?_⟩
      · rintro rfl
        simp at hDot
      · simp only [List.mem_cons, List.mem_append, not_or] at hSlash
        exact hSlash.2.1
      · rintro rfl
        exact hNot List.suffix_rfl
      · rw [nameBytes, cutName_of_not_mem hDot.2]
        simp

/-- No name is made with a marker at its end and a further dot before it, unless that one belongs to
a marker too. -/
theorem nameBytes_ne {name n : Bytes} (hNot : ¬ marker <:+ n) (hDot : dot ∈ n.tail) :
    nameBytes name ≠ dot :: (n ++ marker) := by
  intro hEq
  rcases nameBytes_split name with ⟨stem, ext, -, hExt, -, hMade⟩ | ⟨hDotless, hMade⟩
  · rw [hMade] at hEq
    obtain rfl := eq_of_marked hExt (List.tail_eq_of_cons_eq hEq)
    exact hNot (List.suffix_append stem marker)
  · rw [hMade] at hEq
    obtain rfl := List.append_cancel_right (List.tail_eq_of_cons_eq hEq)
    exact hDotless hDot

theorem isShadow_eq {p : Path} {name : FileName} (h : p.fileName? = some name) :
    isShadow p = (name.isText && isMarkedName name.bytes) := by
  rw [isShadow, h]

/-- **Which paths are recognised.** Only paths with a name that is UTF-8, and of these the shadows
of all paths but those with the name `.cover`, the name `...cover.`, and names with a marker at the
end and a dot before it where the name of a source without an extension has none. -/
theorem isShadow_iff {p : Path} {name : FileName} (h : p.fileName? = some name) :
    isShadow p = true ↔ name.isText = true ∧
      ((∃ q : Path, q.fileName?.isSome ∧ q.fileName? ≠ some (FileName.ofText ".cover") ∧
        (namePath q).components = p.components) ∨
      name = "...cover." ∨
      ∃ n, name.bytes = dot :: (n ++ marker) ∧ ¬ marker <:+ n ∧
        (n = [dot] ∨ dot ∈ n.tail)) := by
  have hName := isName_of_fileName? h
  obtain ⟨cs, hComponents⟩ := exists_components_of_fileName? h
  rw [isShadow_eq h, Bool.and_eq_true]
  refine and_congr_right fun _ => ?_
  constructor
  · intro hMarked
    refine (exists_of_isMarkedName hName.no_slash hMarked).imp_left ?_
    rintro ⟨n, hn, hCover, rfl⟩
    obtain ⟨parent, hParent, -⟩ := exists_parent hComponents
    obtain ⟨-, hSibling⟩ := parent?_sibling hComponents hParent hn
    have hSource := fileName?_of_components hSibling
    refine ⟨parent.join ⟨n.bytes⟩, by rw [hSource]; rfl, ?_, ?_⟩
    · rw [hSource]
      exact fun hEq => hCover (congrArg FileName.bytes (Option.some.inj hEq))
    · rw [(namePath_spec hSibling).2, hComponents]
  · rintro (⟨q, hq, hCover, hEq⟩ | rfl | ⟨n, hBytes, hNot, hDot⟩)
    · obtain ⟨n, hSource⟩ := Option.isSome_iff_exists.1 hq
      obtain ⟨cs', hComponents'⟩ := exists_components_of_fileName? hSource
      rw [(namePath_spec hComponents').2, hComponents] at hEq
      obtain ⟨-, hLast⟩ := List.append_inj' hEq rfl
      rw [← Component.name.inj (List.head_eq_of_cons_eq hLast), nameOf]
      refine isMarkedName_of_ne (isName_of_fileName? hSource).nonempty fun hMarker => hCover ?_
      rw [hSource]
      exact congrArg (fun b => some (FileName.mk b)) hMarker
    · decide
    · refine isMarkedName_iff.2 ⟨n ++ marker, hBytes, ?_⟩
      refine isMarked_iff.2 (Or.inr ⟨n, ?_, hNot, rfl⟩)
      rintro rfl
      rcases hDot with hNil | hDot
      · cases hNil
      · cases hDot

/-- The shadow of `.cover` is not recognised, nor that of a name that is not UTF-8, and a name that
no shadow has is. -/
theorem isShadow_iff_cover :
    let odd : FileName := ⟨[0xFF, dot, 0x73, 0x6F, 0x6C]⟩
    (ofText "..cover.cover").fileName? = some (FileName.ofText "..cover.cover") ∧
      isShadow "..cover.cover" = false ∧ namePath ".cover" = "..cover.cover" ∧
      isShadow (namePath ⟨odd.bytes⟩) = false ∧
      (ofText ".a.b.cover").fileName? = some (FileName.ofText ".a.b.cover") ∧
      isShadow ".a.b.cover" = true ∧
      ∀ q : Path, q.fileName?.isSome →
        (namePath q).components ≠ (ofText ".a.b.cover").components := by
  intro odd
  have hPassed : (ofText "..cover.cover").fileName? = some (FileName.ofText "..cover.cover") := by
    decide +kernel
  have hDotted : (ofText ".a.b.cover").fileName? = some (FileName.ofText ".a.b.cover") := by
    decide +kernel
  refine ⟨hPassed, by decide +kernel, by decide +kernel, by decide +kernel, hDotted, ?_, ?_⟩
  · exact (isShadow_iff hDotted).2 ⟨by decide, Or.inr (Or.inr
      ⟨Utf8.encode "a.b", by decide, by decide, by decide⟩)⟩
  · intro q hq hEq
    obtain ⟨n, hSource⟩ := Option.isSome_iff_exists.1 hq
    obtain ⟨cs, hComponents⟩ := exists_components_of_fileName? hSource
    have hName := fileName?_of_components (hEq.symm.trans (namePath_spec hComponents).2)
    have hMade : nameOf n = ".a.b.cover" := Option.some.inj (hName.symm.trans hDotted)
    exact @nameBytes_ne n.bytes (Utf8.encode "a.b") (by decide) (by decide)
      (congrArg FileName.bytes hMade)

end CoverRun.Shadow

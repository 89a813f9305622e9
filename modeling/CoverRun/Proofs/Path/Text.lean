import CoverRun.Proofs.Path
import CoverRun.Proofs.Text.Ascii

/-!
# Texts of paths

The bytes of separators and dots are characters by themselves, so a path of names is shown as its
names are (`Path.text_ofNames`), and it is UTF-8 exactly if its names are (`Path.text?_ofNames`).
The names of a path that is UTF-8 are too (`Path.isText_of_mem_components`).
-/

namespace CoverRun

/-! ## Dots -/

namespace Utf8

theorem dot_mem_encode_iff {s : String} : dot ∈ encode s ↔ '.' ∈ s.toList := by
  constructor
  · exact fun h => mem_of_mem_encode (c := '.') h (by decide)
  · exact fun h => List.mem_flatMap.2 ⟨'.', h, by decide⟩

theorem head?_encode_iff {s : String} :
    (encode s).head? = some dot ↔ s.toList.head? = some '.' := by
  rw [encode]
  cases s.toList with
  | nil => simp
  | cons d cs =>
      obtain ⟨b, bs, hBytes⟩ := List.exists_cons_of_ne_nil (encodeChar_ne_nil d)
      rw [List.flatMap_cons, hBytes, List.cons_append, List.head?_cons, List.head?_cons,
        Option.some.injEq, Option.some.injEq]
      constructor
      · rintro rfl
        exact eq_of_mem_encodeChar (c := '.') (hBytes ▸ List.mem_cons_self) (by decide)
      · rintro rfl
        exact (List.cons_eq_cons.1 hBytes).1.symm

end Utf8

namespace FileName

theorem isText_iff {name : FileName} : name.isText = true ↔ ofText name.text = name := by
  rw [isText, Option.isSome_iff_exists]
  constructor
  · rintro ⟨s, hs⟩
    rw [ofText, text, Utf8.decodeLenient_of_decode? hs, ← Utf8.decode?_eq_some_iff.1 hs]
  · intro h
    exact ⟨name.text, Utf8.decode?_eq_some_iff.2 (congrArg bytes h).symm⟩

theorem text_ne {name : FileName} (h : name.isText = true) (hne : name.bytes ≠ []) :
    name.text.toList ≠ [] := by
  intro hEq
  rw [← isText_iff.1 h, ofText, Utf8.encode, hEq] at hne
  exact hne rfl

end FileName

namespace Path

theorem text_ofText (s : String) : (ofText s).text = s :=
  Utf8.decodeLenient_of_decode? (Utf8.decode?_encode s)

theorem isSome_text?_iff {p : Path} : p.text?.isSome = true ↔ ∃ s, p = ofText s := by
  rw [text?, Option.isSome_iff_exists]
  refine exists_congr fun s => ?_
  rw [Utf8.decode?_eq_some_iff, ofText, Path.mk.injEq]

theorem ofText_text {p : Path} (h : p.text?.isSome = true) : ofText p.text = p := by
  obtain ⟨s, rfl⟩ := isSome_text?_iff.1 h
  rw [text_ofText]

/-! ## Paths of names -/

theorem text_ofNames_cons (n m : FileName) (names : List FileName) :
    (ofNames (n :: m :: names)).text.toList =
      n.text.toList ++ '/' :: (ofNames (m :: names)).text.toList := by
  rw [text, bytes_ofNames_cons]
  exact Utf8.decodeLenient_append_ascii _ _ (by decide)

theorem text_ofNames_single (n : FileName) : (ofNames [n]).text = n.text := by
  simp [ofNames, text, FileName.text]

/-- **A path of names is shown as its names are**, with separators between. -/
theorem text_ofNames (names : List FileName) :
    (ofNames names).text.toList = ['/'].intercalate (names.map fun n => n.text.toList) := by
  induction names with
  | nil => rfl
  | cons n names ih =>
      cases names with
      | nil => simp [text_ofNames_single]
      | cons m names =>
          rw [text_ofNames_cons, ih]
          simp

theorem mem_text_ofNames {c : Char} {names : List FileName} (h : c ∈ (ofNames names).text.toList) :
    c = '/' ∨ ∃ n ∈ names, c ∈ n.text.toList := by
  induction names with
  | nil => simp [text_ofNames] at h
  | cons n names ih =>
      cases names with
      | nil => exact Or.inr ⟨n, List.mem_cons_self, by rwa [text_ofNames_single] at h⟩
      | cons m names =>
          rw [text_ofNames_cons, List.mem_append, List.mem_cons] at h
          rcases h with hHere | hSlash | hLater
          · exact Or.inr ⟨n, List.mem_cons_self, hHere⟩
          · exact Or.inl hSlash
          · rcases ih hLater with hSlash | ⟨k, hk, hc⟩
            · exact Or.inl hSlash
            · exact Or.inr ⟨k, List.mem_cons_of_mem n hk, hc⟩

theorem isSome_decode?_intercalate (ps : List Bytes) :
    (Utf8.decode? ([slash].intercalate ps)).isSome =
      ps.all fun p => (Utf8.decode? p).isSome := by
  induction ps with
  | nil => rfl
  | cons p ps ih =>
      cases ps with
      | nil => simp
      | cons q ps =>
          rw [List.intercalate_cons_cons, List.append_assoc, List.singleton_append,
            Utf8.isSome_decode?_append_ascii _ _ (by decide), ih]
          rfl

/-- **A path of names is UTF-8 exactly if its names are.** -/
theorem text?_ofNames (names : List FileName) : (ofNames names).text? =
    if names.all (·.isText) then some (ofNames names).text else none := by
  have hAll : (Utf8.decode? (ofNames names).bytes).isSome = names.all (·.isText) := by
    rw [ofNames, isSome_decode?_intercalate, List.all_map]
    rfl
  rw [text?, Utf8.decode?_eq, hAll, text]

theorem slash_not_mem_text {name : FileName} (h : IsName name) : '/' ∉ name.text.toList :=
  fun hMem => h.no_slash (Utf8.mem_of_mem_decodeLenient hMem (by decide))

theorem pieces_text_ofNames {names : List FileName} (h : ∀ n ∈ names, IsName n)
    (hne : names ≠ []) :
    pieces '/' (ofNames names).text.toList = names.map fun n => n.text.toList := by
  rw [text_ofNames]
  refine pieces_intercalate (fun p hp => ?_) (by simpa using hne)
  obtain ⟨n, hn, rfl⟩ := List.mem_map.1 hp
  exact slash_not_mem_text (h n hn)

/-! ## Names of a path -/

theorem mem_of_mem_componentsOf {leading : Bool} {ps : List Bytes} {n : FileName}
    (h : Component.name n ∈ componentsOf leading ps) : n.bytes ∈ ps := by
  induction ps generalizing leading with
  | nil => cases h
  | cons p ps ih =>
      rw [componentsOf] at h
      split at h
      · exact List.mem_cons_of_mem p (ih h)
      split at h
      · split at h
        · exact List.mem_cons_of_mem p (ih ((List.mem_cons.1 h).resolve_left Component.noConfusion))
        · exact List.mem_cons_of_mem p (ih h)
      · rcases List.mem_cons.1 h with hHere | hLater
        · rw [componentOf] at hHere
          split at hHere
          · cases hHere
          · rw [Component.name.inj hHere]
            exact List.mem_cons_self
        · exact List.mem_cons_of_mem p (ih hLater)

theorem mem_pieces_of_mem_components {p : Path} {n : FileName}
    (h : Component.name n ∈ p.components) : n.bytes ∈ pieces slash p.bytes := by
  by_cases hAbsolute : p.isAbsolute = true
  · obtain ⟨cs, hBytes⟩ := List.head?_eq_some_iff.1 (beq_iff_eq.1 hAbsolute)
    rw [components_absolute hBytes] at h
    rw [hBytes, pieces, if_pos rfl]
    exact List.mem_cons_of_mem []
      (mem_of_mem_componentsOf ((List.mem_cons.1 h).resolve_left Component.noConfusion))
  · rw [components_relative (Bool.eq_false_iff.2 hAbsolute)] at h
    exact mem_of_mem_componentsOf h

/-- **The names of a path that is UTF-8 are too.** -/
theorem isText_of_mem_components {s : String} {n : FileName}
    (h : Component.name n ∈ (ofText s).components) : n.isText = true := by
  have hAll : (pieces slash (Utf8.encode s)).all (fun p => (Utf8.decode? p).isSome) = true := by
    rw [← isSome_decode?_intercalate, intercalate_pieces, Utf8.decode?_encode, Option.isSome_some]
  exact List.all_eq_true.1 hAll _ (mem_pieces_of_mem_components h)

/-- The characters below 0x80 that the names of a path are shown with are characters of it. -/
theorem mem_of_mem_name_text {s : String} {n : FileName}
    (h : Component.name n ∈ (ofText s).components) {c : Char} (hc : c ∈ n.text.toList)
    (hSmall : c.toNat < 0x80) : c ∈ s.toList := by
  have hByte := Utf8.mem_of_mem_decodeLenient hc hSmall
  have hBytes := mem_of_mem_pieces _ (mem_pieces_of_mem_components h) hByte
  exact Utf8.mem_of_mem_encode hBytes hSmall

end Path

end CoverRun

import CoverRun.Path
import Mathlib.Data.List.Induction
import Mathlib.Data.List.TakeWhile

/-!
# Components of paths

A path that is read from within another has the parts of both (`Path.exists_parts_join`), and so the
components of both (`Path.components_join`). A path that is written from components has these
(`Path.components_ofComponents`), also when names go on from it (`Path.ofComponents_join_ofNames`).
-/

namespace CoverRun.Path

/-! ## Pieces -/

section

variable {α : Type} [DecidableEq α] {sep : α}

theorem pieces_ne_nil (cs : List α) : pieces sep cs ≠ [] := by
  cases cs with
  | nil => simp [pieces]
  | cons c cs =>
      rw [pieces]
      split
      · simp
      · split <;> simp

theorem pieces_append (as bs : List α) :
    pieces sep (as ++ sep :: bs) = pieces sep as ++ pieces sep bs := by
  induction as with
  | nil => simp [pieces]
  | cons a as ih =>
      rw [List.cons_append, pieces, pieces, ih]
      split
      · rfl
      · obtain ⟨p, ps, hCons⟩ := List.exists_cons_of_ne_nil (pieces_ne_nil as)
        rw [hCons]
        rfl

theorem pieces_of_not_mem {cs : List α} (h : sep ∉ cs) : pieces sep cs = [cs] := by
  induction cs with
  | nil => rfl
  | cons c cs ih =>
      simp only [List.mem_cons, not_or] at h
      rw [pieces, if_neg (Ne.symm h.1), ih h.2]

theorem pieces_intercalate {ps : List (List α)} (h : ∀ p ∈ ps, sep ∉ p) (hne : ps ≠ []) :
    pieces sep ([sep].intercalate ps) = ps := by
  induction ps with
  | nil => exact absurd rfl hne
  | cons p ps ih =>
      have hPiece := pieces_of_not_mem (h p List.mem_cons_self)
      cases ps with
      | nil => simpa using hPiece
      | cons q ps =>
          rw [List.intercalate_cons_cons, List.append_assoc, List.singleton_append, pieces_append,
            hPiece, ih (fun r hr => h r (List.mem_cons_of_mem p hr)) (List.cons_ne_nil q ps)]
          rfl

theorem intercalate_pieces (cs : List α) : [sep].intercalate (pieces sep cs) = cs := by
  induction cs with
  | nil => rfl
  | cons c cs ih =>
      obtain ⟨p, ps, hCons⟩ := List.exists_cons_of_ne_nil (pieces_ne_nil cs)
      rw [pieces]
      split
      · next hSep =>
        rw [hCons] at ih ⊢
        rw [List.intercalate_cons_cons, ih, hSep]
        rfl
      · rw [hCons] at ih ⊢
        rw [← ih]
        cases ps <;> simp

theorem mem_of_mem_pieces {c : α} {cs : List α} :
    ∀ p ∈ pieces sep cs, c ∈ p → c ∈ cs := by
  induction cs with
  | nil => simp [pieces]
  | cons c' cs ih =>
      rw [pieces]
      split
      · intro p hp hc
        rcases List.mem_cons.1 hp with rfl | hp
        · cases hc
        · exact List.mem_cons_of_mem c' (ih p hp hc)
      · obtain ⟨q, qs, hCons⟩ := List.exists_cons_of_ne_nil (pieces_ne_nil cs)
        rw [hCons] at ih ⊢
        intro p hp hc
        rcases List.mem_cons.1 hp with rfl | hp
        · rcases List.mem_cons.1 hc with rfl | hc
          · exact List.mem_cons_self
          · exact List.mem_cons_of_mem c' (ih q List.mem_cons_self hc)
        · exact List.mem_cons_of_mem c' (ih p (List.mem_cons_of_mem q hp) hc)

theorem not_mem_pieces (cs : List α) : ∀ p ∈ pieces sep cs, sep ∉ p := by
  induction cs with
  | nil => simp [pieces]
  | cons c cs ih =>
      rw [pieces]
      split
      · simpa using ih
      · next hc =>
        obtain ⟨p, ps, hCons⟩ := List.exists_cons_of_ne_nil (pieces_ne_nil cs)
        rw [hCons] at ih ⊢
        intro q hq
        rcases List.mem_cons.1 hq with rfl | hq
        · simpa [Ne.symm hc] using ih p List.mem_cons_self
        · exact ih q (List.mem_cons_of_mem p hq)

end

/-! ## Parts -/

theorem partsFrom_cons (start : Nat) (leading : Bool) (p : Bytes) (ps : List Bytes) :
    partsFrom start leading (p :: ps) =
      partsFrom start leading [p] ++ partsFrom (start + p.length + 1) false ps := by
  by_cases hEmpty : p = []
  · simp [partsFrom, hEmpty]
  · by_cases hCurrent : p = [dot]
    · cases leading <;> simp [partsFrom, hCurrent]
    · simp [partsFrom, hEmpty, hCurrent]

theorem exists_partsFrom_append {ps : List Bytes} (h : ps ≠ []) (start : Nat)
    (leading : Bool) (qs : List Bytes) : ∃ start', partsFrom start leading (ps ++ qs) =
      partsFrom start leading ps ++ partsFrom start' false qs := by
  induction ps generalizing start leading with
  | nil => exact absurd rfl h
  | cons p ps ih =>
      rw [List.cons_append, partsFrom_cons, partsFrom_cons start leading p ps]
      cases ps with
      | nil => exact ⟨start + p.length + 1, by simp [partsFrom]⟩
      | cons p' ps =>
          obtain ⟨start', hRest⟩ := ih (List.cons_ne_nil p' ps) (start + p.length + 1) false
          exact ⟨start', by rw [hRest, List.append_assoc]⟩

theorem parts_absolute {p : Path} {cs : Bytes} (h : p.bytes = slash :: cs) :
    p.parts = ⟨.root, 0, 1⟩ :: partsFrom 1 false (pieces slash cs) := by
  simp [parts, isAbsolute, h]

theorem parts_relative {p : Path} (h : p.isAbsolute = false) :
    p.parts = partsFrom 0 true (pieces slash p.bytes) := by
  simp [parts, h]

theorem exists_parts_append_slash {p : Path} {as bs : Bytes} (hne : as ≠ [])
    (h : p.bytes = as ++ slash :: bs) : ∃ start, p.parts =
      (Path.mk as).parts ++ partsFrom start false (pieces slash bs) := by
  obtain ⟨a, as, rfl⟩ := List.exists_cons_of_ne_nil hne
  by_cases ha : a = slash
  · subst ha
    rw [List.cons_append] at h
    have hPrefix : (Path.mk (slash :: as)).bytes = slash :: as := rfl
    obtain ⟨start, hParts⟩ :=
      exists_partsFrom_append (pieces_ne_nil as) 1 false (pieces slash bs)
    refine ⟨start, ?_⟩
    rw [parts_absolute h, parts_absolute hPrefix, pieces_append, hParts]
    rfl
  · have hRelative : p.isAbsolute = false := by simp [isAbsolute, h, ha]
    have hPrefix : (Path.mk (a :: as)).isAbsolute = false := by simp [isAbsolute, ha]
    obtain ⟨start, hParts⟩ :=
      exists_partsFrom_append (pieces_ne_nil (a :: as)) 0 true (pieces slash bs)
    refine ⟨start, ?_⟩
    rw [parts_relative hRelative, parts_relative hPrefix, h, pieces_append, hParts]

theorem empty_join (q : Path) : (Path.mk []).join q = q := by
  simp [join]

/-- **A path read from within another has the parts of both**, after the bytes of the first. -/
theorem exists_parts_join {p q : Path} (hp : p.bytes ≠ []) (hq : q.isAbsolute = false) :
    ∃ start, (p.join q).parts = p.parts ++ partsFrom start false (pieces slash q.bytes) ∧
      p.bytes <+: (p.join q).bytes := by
  rw [join, hq]
  simp only [Bool.false_eq_true, if_false, hp, false_or]
  split
  · next hSlash =>
    have hPrefix : p.bytes <+: (Path.mk (p.bytes ++ q.bytes)).bytes := List.prefix_append _ _
    obtain ⟨as, hBytes⟩ := List.getLast?_eq_some_iff.1 hSlash
    cases as with
    | nil =>
        have hRoot : p.bytes = slash :: [] := hBytes
        have hJoin : (Path.mk (p.bytes ++ q.bytes)).bytes = slash :: q.bytes := by
          rw [hRoot]
          rfl
        refine ⟨1, ?_, hPrefix⟩
        rw [parts_absolute hRoot, parts_absolute hJoin]
        rfl
    | cons a as =>
        have hJoin : (Path.mk (p.bytes ++ q.bytes)).bytes = (a :: as) ++ slash :: q.bytes := by
          simp [hBytes]
        obtain ⟨start, hParts⟩ := exists_parts_append_slash (List.cons_ne_nil a as) hBytes
        obtain ⟨start', hParts'⟩ := exists_parts_append_slash (List.cons_ne_nil a as) hJoin
        refine ⟨start', ?_, hPrefix⟩
        rw [hParts, hParts', List.append_assoc]
        rfl
  · have hJoin : (Path.mk (p.bytes ++ slash :: q.bytes)).bytes = p.bytes ++ slash :: q.bytes := rfl
    obtain ⟨start, hParts⟩ := exists_parts_append_slash hp hJoin
    exact ⟨start, hParts, List.prefix_append _ _⟩

/-! ## Components -/

/-- The components of pieces. -/
def componentsOf (leading : Bool) : List Bytes → List Component
  | [] => []
  | p :: ps =>
    if p = [] then componentsOf false ps
    else if p = [dot] then
      if leading then .current :: componentsOf false ps else componentsOf false ps
    else componentOf p :: componentsOf false ps

theorem map_partsFrom (start : Nat) (leading : Bool) (ps : List Bytes) :
    (partsFrom start leading ps).map (·.component) = componentsOf leading ps := by
  induction ps generalizing start leading with
  | nil => rfl
  | cons p ps ih =>
      simp only [partsFrom, componentsOf]
      split
      · exact ih _ _
      split
      · split
        · rw [List.map_cons, ih]
        · exact ih _ _
      · rw [List.map_cons, ih]

theorem components_absolute {p : Path} {cs : Bytes} (h : p.bytes = slash :: cs) :
    p.components = .root :: componentsOf false (pieces slash cs) := by
  rw [components, parts_absolute h, List.map_cons, map_partsFrom]

theorem components_relative {p : Path} (h : p.isAbsolute = false) :
    p.components = componentsOf true (pieces slash p.bytes) := by
  rw [components, parts_relative h, map_partsFrom]

theorem map_name_injective : Function.Injective (List.map Component.name) :=
  fun _ _ h => (List.map_inj_right fun _ _ hName => Component.name.inj hName).1 h

/-- **A path read from within another has the components of both.** -/
theorem components_join {p q : Path} (hp : p.bytes ≠ []) (hq : q.isAbsolute = false) :
    (p.join q).components = p.components ++ componentsOf false (pieces slash q.bytes) := by
  obtain ⟨start, hParts, -⟩ := exists_parts_join hp hq
  rw [components, hParts, List.map_append, map_partsFrom]
  rfl

/-! ## Names -/

/-- A name that a directory can hold. -/
structure IsName (name : FileName) : Prop where
  nonempty : name.bytes ≠ []
  not_current : name.bytes ≠ [dot]
  not_parent : name.bytes ≠ [dot, dot]
  no_slash : slash ∉ name.bytes

instance (name : FileName) : Decidable (IsName name) :=
  decidable_of_iff
    (name.bytes ≠ [] ∧ name.bytes ≠ [dot] ∧ name.bytes ≠ [dot, dot] ∧ slash ∉ name.bytes)
    ⟨fun ⟨h₁, h₂, h₃, h₄⟩ => ⟨h₁, h₂, h₃, h₄⟩, fun ⟨h₁, h₂, h₃, h₄⟩ => ⟨h₁, h₂, h₃, h₄⟩⟩

theorem IsName.head? {name : FileName} (h : IsName name) : name.bytes.head? ≠ some slash :=
  fun hEq => h.no_slash (List.mem_of_mem_head? hEq)

theorem IsName.isAbsolute {name : FileName} (h : IsName name) :
    (Path.mk name.bytes).isAbsolute = false :=
  beq_eq_false_iff_ne.2 h.head?

theorem componentsOf_names {names : List FileName} (h : ∀ n ∈ names, IsName n) (leading : Bool) :
    componentsOf leading (names.map FileName.bytes) = names.map .name := by
  induction names generalizing leading with
  | nil => rfl
  | cons n names ih =>
      have hName := h n List.mem_cons_self
      rw [List.map_cons, componentsOf, if_neg hName.nonempty, if_neg hName.not_current,
        componentOf, if_neg hName.not_parent,
        ih (fun m hm => h m (List.mem_cons_of_mem n hm)) false]
      rfl

theorem bytes_ofNames_cons (n m : FileName) (names : List FileName) :
    (ofNames (n :: m :: names)).bytes = n.bytes ++ slash :: (ofNames (m :: names)).bytes := by
  simp [ofNames]

theorem pieces_ofNames {names : List FileName} (h : ∀ n ∈ names, IsName n) (hne : names ≠ []) :
    pieces slash (ofNames names).bytes = names.map FileName.bytes := by
  refine pieces_intercalate (fun p hp => ?_) (by simpa using hne)
  obtain ⟨n, hn, rfl⟩ := List.mem_map.1 hp
  exact (h n hn).no_slash

theorem mem_ofNames {b : UInt8} {names : List FileName} (h : b ∈ (ofNames names).bytes) :
    b = slash ∨ ∃ n ∈ names, b ∈ n.bytes := by
  induction names with
  | nil => simp [ofNames] at h
  | cons n names ih =>
      cases names with
      | nil => exact Or.inr ⟨n, List.mem_cons_self, by simpa [ofNames] using h⟩
      | cons m names =>
          rw [bytes_ofNames_cons, List.mem_append, List.mem_cons] at h
          rcases h with hHere | hSlash | hLater
          · exact Or.inr ⟨n, List.mem_cons_self, hHere⟩
          · exact Or.inl hSlash
          · rcases ih hLater with hSlash | ⟨k, hk, hc⟩
            · exact Or.inl hSlash
            · exact Or.inr ⟨k, List.mem_cons_of_mem n hk, hc⟩

theorem isAbsolute_ofNames {names : List FileName} (h : ∀ n ∈ names, IsName n) :
    (ofNames names).isAbsolute = false := by
  cases names with
  | nil => rfl
  | cons n names =>
      have hHead := (h n List.mem_cons_self).head?
      obtain ⟨c, cs, hCons⟩ := List.exists_cons_of_ne_nil (h n List.mem_cons_self).nonempty
      rw [hCons] at hHead
      cases names <;> simp_all [ofNames, isAbsolute]

theorem components_ofNames {names : List FileName} (h : ∀ n ∈ names, IsName n) :
    (ofNames names).components = names.map .name := by
  cases names with
  | nil => rfl
  | cons n names =>
      rw [components_relative (isAbsolute_ofNames h),
        pieces_ofNames h (List.cons_ne_nil n names), componentsOf_names h true]

/-- Names read from within a path are its last components. -/
theorem components_join_ofNames {p : Path} (hp : p.bytes ≠ []) {names : List FileName}
    (h : ∀ n ∈ names, IsName n) :
    (p.join (ofNames names)).components = p.components ++ names.map .name := by
  rw [components_join hp (isAbsolute_ofNames h)]
  congr 1
  cases names with
  | nil => rfl
  | cons n names =>
      rw [pieces_ofNames h (List.cons_ne_nil n names), componentsOf_names h false]

/-! ## Extensions -/

theorem cutName_cases (name : Bytes) :
    (∃ stem ext, cutName name = (stem, some ext) ∧ name = stem ++ dot :: ext ∧ stem ≠ [] ∧
        dot ∉ ext) ∨ cutName name = (name, none) := by
  have hSplit := List.takeWhile_append_dropWhile (p := (· != dot)) (l := name.reverse)
  rw [cutName]
  cases hRest : name.reverse.dropWhile (· != dot) with
  | nil => exact Or.inr rfl
  | cons b before =>
      have hDot : b = dot := by
        have hHead := List.head?_dropWhile_not (· != dot) name.reverse
        rw [hRest] at hHead
        simpa using hHead
      subst hDot
      by_cases hEmpty : before = []
      · exact Or.inr (if_pos hEmpty)
      · refine Or.inl ⟨before.reverse, (name.reverse.takeWhile (· != dot)).reverse,
          if_neg hEmpty, ?_, by simpa using hEmpty, ?_⟩
        · rw [hRest] at hSplit
          simpa using (congrArg List.reverse hSplit).symm
        · intro hMem
          have hNot := List.mem_takeWhile_imp (List.mem_reverse.1 hMem)
          simp at hNot

/-- A name that ends with a dot and dotless bytes is cut there, unless the dot comes first. -/
theorem cutName_append {stem ext : Bytes} (hStem : stem ≠ []) (hExt : dot ∉ ext) :
    cutName (stem ++ dot :: ext) = (stem, some ext) := by
  have hReverse : (stem ++ dot :: ext).reverse = ext.reverse ++ dot :: stem.reverse := by simp
  have hDotless : ∀ c ∈ ext.reverse, (c != dot) = true := by
    intro c hc
    rw [bne_iff_ne]
    rintro rfl
    exact hExt (List.mem_reverse.1 hc)
  rw [cutName, hReverse, List.dropWhile_append_of_pos hDotless,
    List.takeWhile_append_of_pos hDotless]
  simp [hStem]

theorem exists_lastDot {bytes : Bytes} (h : dot ∈ bytes) :
    ∃ head ext, bytes = head ++ dot :: ext ∧ dot ∉ ext := by
  obtain ⟨after, before, hReverse, hLast⟩ := List.eq_append_cons_of_mem (List.mem_reverse.2 h)
  refine ⟨before.reverse, after.reverse, ?_, fun hMem => hLast (List.mem_reverse.1 hMem)⟩
  simpa using congrArg List.reverse hReverse

theorem lastDot_unique {head head' ext ext' : Bytes} (hExt : dot ∉ ext) (hExt' : dot ∉ ext')
    (h : head ++ dot :: ext = head' ++ dot :: ext') : head = head' ∧ ext = ext' := by
  have hCut := @cutName_append (dot :: head) ext (List.cons_ne_nil _ _) hExt
  rw [List.cons_append, h, ← List.cons_append, cutName_append (List.cons_ne_nil _ _) hExt'] at hCut
  obtain ⟨hHead, hSame⟩ := Prod.mk.inj hCut
  exact ⟨(List.tail_eq_of_cons_eq hHead).symm, (Option.some.inj hSame).symm⟩

theorem cutName_of_not_mem {name : Bytes} (h : dot ∉ name.tail) :
    cutName name = (name, none) := by
  rcases cutName_cases name with ⟨stem, ext, -, hName, hStem, -⟩ | hWhole
  · obtain ⟨c, stem, rfl⟩ := List.exists_cons_of_ne_nil hStem
    rw [hName] at h
    simp at h
  · exact hWhole

/-! ## Paths written from components -/

/-- A component that can stand after others. -/
def IsStep : Component → Prop
  | .parent => True
  | .name n => IsName n
  | _ => False

/-- Components as a path has them: the root and the leading `.` come first, if at all. -/
def IsWritten : List Component → Prop
  | [] => True
  | c :: cs => (c = .root ∨ c = .current ∨ IsStep c) ∧ ∀ c' ∈ cs, IsStep c'

theorem isStep_componentOf {piece : Bytes} (hNonempty : piece ≠ []) (hCurrent : piece ≠ [dot])
    (hSlash : slash ∉ piece) : IsStep (componentOf piece) := by
  rw [componentOf]
  split
  · trivial
  · next hParent => exact ⟨hNonempty, hCurrent, hParent, hSlash⟩

theorem isStep_of_mem {ps : List Bytes} (h : ∀ p ∈ ps, slash ∉ p) :
    ∀ c ∈ componentsOf false ps, IsStep c := by
  induction ps with
  | nil => exact fun c hc => absurd hc List.not_mem_nil
  | cons p ps ih =>
      have hRest := ih fun q hq => h q (List.mem_cons_of_mem p hq)
      rw [componentsOf]
      split
      · exact hRest
      · next hNonempty =>
        split
        · exact hRest
        · next hCurrent =>
          intro c hc
          rcases List.mem_cons.1 hc with rfl | hc
          · exact isStep_componentOf hNonempty hCurrent (h p List.mem_cons_self)
          · exact hRest c hc

theorem isWritten_of_steps {cs : List Component} (h : ∀ c ∈ cs, IsStep c) : IsWritten cs := by
  cases cs with
  | nil => trivial
  | cons c cs =>
      exact ⟨Or.inr (Or.inr (h c List.mem_cons_self)),
        fun c' hc' => h c' (List.mem_cons_of_mem c hc')⟩

theorem isWritten_components (p : Path) : IsWritten p.components := by
  by_cases hAbsolute : p.isAbsolute = true
  · obtain ⟨cs, hText⟩ := List.head?_eq_some_iff.1 (beq_iff_eq.1 hAbsolute)
    rw [components_absolute hText]
    exact ⟨Or.inl rfl, isStep_of_mem (not_mem_pieces cs)⟩
  · rw [components_relative (Bool.eq_false_iff.2 hAbsolute)]
    have hPieces : ∀ piece ∈ pieces slash p.bytes, slash ∉ piece := not_mem_pieces p.bytes
    obtain ⟨piece, pieces, hCons⟩ := List.exists_cons_of_ne_nil (pieces_ne_nil p.bytes)
    rw [hCons] at hPieces ⊢
    have hRest := isStep_of_mem fun q hq => hPieces q (List.mem_cons_of_mem piece hq)
    rw [componentsOf]
    split
    · exact isWritten_of_steps hRest
    · next hNonempty =>
      split
      · exact ⟨Or.inr (Or.inl rfl), hRest⟩
      · next hCurrent =>
        exact ⟨Or.inr (Or.inr (isStep_componentOf hNonempty hCurrent
          (hPieces piece List.mem_cons_self))), hRest⟩

theorem IsStep.componentsOf {c : Component} (h : IsStep c) (leading : Bool) :
    componentsOf leading (pieces slash c.bytes) = [c] := by
  cases c with
  | root => cases h
  | current => cases h
  | parent => cases leading <;> rfl
  | name n =>
      rw [Component.bytes, pieces_of_not_mem h.no_slash, Path.componentsOf, if_neg h.nonempty,
        if_neg h.not_current, componentOf, if_neg h.not_parent]
      rfl

theorem IsStep.isAbsolute {c : Component} (h : IsStep c) :
    (Path.mk c.bytes).isAbsolute = false := by
  cases c with
  | root => cases h
  | current => cases h
  | parent => rfl
  | name n => exact IsName.isAbsolute h

theorem components_single {c : Component} (h : c = .root ∨ c = .current ∨ IsStep c) :
    (ofComponents [c]).components = [c] := by
  rcases h with rfl | rfl | h
  · rfl
  · rfl
  · have hBytes : ofComponents [c] = Path.mk c.bytes := by
      simp [ofComponents, join, h.isAbsolute]
    rw [hBytes, components_relative h.isAbsolute]
    exact h.componentsOf true

theorem ofComponents_concat (cs : List Component) (c : Component) :
    ofComponents (cs ++ [c]) = (ofComponents cs).join ⟨c.bytes⟩ := by
  rw [ofComponents, List.foldl_append]
  rfl

theorem bytes_ne_of_components {p : Path} (h : p.components ≠ []) : p.bytes ≠ [] := by
  intro hBytes
  obtain ⟨bytes⟩ := p
  subst hBytes
  exact h rfl

/-- **A path written from components has these.** -/
theorem components_ofComponents {cs : List Component} (h : IsWritten cs) :
    (ofComponents cs).components = cs := by
  induction cs using List.reverseRecOn with
  | nil => rfl
  | append_singleton cs c ih =>
      cases cs with
      | nil => exact components_single h.1
      | cons c' cs =>
          have hInit : IsWritten (c' :: cs) :=
            ⟨h.1, fun d hd => h.2 d (List.mem_append_left [c] hd)⟩
          have hLast : IsStep c := h.2 c (List.mem_append_right cs List.mem_cons_self)
          have hText : (ofComponents (c' :: cs)).bytes ≠ [] :=
            bytes_ne_of_components (by rw [ih hInit]; exact List.cons_ne_nil c' cs)
          rw [ofComponents_concat, components_join hText hLast.isAbsolute, ih hInit]
          exact congrArg _ (hLast.componentsOf false)

/-! ## Paths continued by names -/

theorem bytes_ofNames_concat {names : List FileName} (hne : names ≠ []) (n : FileName) :
    (ofNames (names ++ [n])).bytes = (ofNames names).bytes ++ slash :: n.bytes := by
  induction names with
  | nil => exact absurd rfl hne
  | cons m names ih =>
      cases names with
      | nil => simp [ofNames]
      | cons k names =>
          rw [List.cons_append, List.cons_append, bytes_ofNames_cons, bytes_ofNames_cons,
            ← List.cons_append, ih (List.cons_ne_nil k names)]
          simp

theorem getLast?_ofNames {names : List FileName} (h : ∀ n ∈ names, IsName n) (hne : names ≠ []) :
    (ofNames names).bytes ≠ [] ∧ (ofNames names).bytes.getLast? ≠ some slash := by
  obtain ⟨before, n, rfl⟩ : ∃ before n, names = before ++ [n] :=
    ⟨names.dropLast, names.getLast hne, (List.dropLast_concat_getLast hne).symm⟩
  have hName := h n (List.mem_append_right before List.mem_cons_self)
  have hLast : n.bytes.getLast? ≠ some slash :=
    fun hEq => hName.no_slash (List.mem_of_mem_getLast? hEq)
  cases before with
  | nil => simpa [ofNames] using ⟨hName.nonempty, hLast⟩
  | cons m before =>
      rw [bytes_ofNames_concat (List.cons_ne_nil m before)]
      obtain ⟨b, hb⟩ := Option.isSome_iff_exists.1 (List.getLast?_isSome.2 hName.nonempty)
      refine ⟨by simp, ?_⟩
      rw [List.getLast?_append, List.getLast?_cons, hb, Option.getD_some, Option.some_or, ← hb]
      exact hLast

theorem join_ofNames_concat {p : Path} {names : List FileName} {n : FileName}
    (h : ∀ m ∈ names ++ [n], IsName m) (hne : names ≠ []) :
    p.join (ofNames (names ++ [n])) = (p.join (ofNames names)).join ⟨n.bytes⟩ := by
  have hInit : ∀ m ∈ names, IsName m := fun m hm => h m (List.mem_append_left [n] hm)
  have hName : IsName n := h n (List.mem_append_right names List.mem_cons_self)
  obtain ⟨hNonempty, hLast⟩ := getLast?_ofNames hInit hne
  have hOpen (front : Bytes) : front ++ (ofNames names).bytes ≠ [] ∧
      (front ++ (ofNames names).bytes).getLast? ≠ some slash := by
    obtain ⟨b, hb⟩ := Option.isSome_iff_exists.1 (List.getLast?_isSome.2 hNonempty)
    refine ⟨fun hEq => hNonempty (List.append_eq_nil_iff.1 hEq).2, ?_⟩
    rw [List.getLast?_append, hb, Option.some_or, ← hb]
    exact hLast
  simp only [join, isAbsolute_ofNames h, isAbsolute_ofNames hInit, hName.isAbsolute,
    Bool.false_eq_true, if_false, bytes_ofNames_concat hne]
  split
  · rw [if_neg (not_or.2 (hOpen p.bytes)), List.append_assoc]
  · have hJoin := hOpen (p.bytes ++ [slash])
    rw [List.append_assoc, List.singleton_append] at hJoin
    rw [if_neg (not_or.2 hJoin), List.append_assoc, List.cons_append]

/-- **Names read from within a written path go on as its components.** -/
theorem ofComponents_join_ofNames {cs : List Component} (h : IsWritten cs) (hne : cs ≠ [])
    {names : List FileName} (hNames : ∀ n ∈ names, IsName n) (hSome : names ≠ []) :
    (ofComponents cs).join (ofNames names) = ofComponents (cs ++ names.map .name) := by
  have hText : (ofComponents cs).bytes ≠ [] :=
    bytes_ne_of_components (by rwa [components_ofComponents h])
  induction names using List.reverseRecOn with
  | nil => exact absurd rfl hSome
  | append_singleton names n ih =>
      have hLast : ofComponents (cs ++ (names ++ [n]).map .name) =
          (ofComponents (cs ++ names.map .name)).join ⟨n.bytes⟩ := by
        rw [List.map_append, ← List.append_assoc]
        exact ofComponents_concat _ _
      by_cases hEmpty : names = []
      · subst hEmpty
        rw [hLast]
        simp [ofNames]
      · rw [hLast, join_ofNames_concat hNames hEmpty,
          ih (fun m hm => hNames m (List.mem_append_left [n] hm)) hEmpty]

end CoverRun.Path

import CoverRun.Proofs.Plan.Checks
import CoverRun.Proofs.Selection.Discovery

/-!
# The extensions of a plan

A file is a source if what comes after the last dot of its name is one of the extensions. An
extension of the settings may have dots of its own, and no file has it then. So the extensions
select all names that end with a dot and one of them exactly if each extension with a dot has itself
one of them (`Plan.isSource_iff_extended`).
-/

namespace CoverRun

open CoverRun.Path

namespace Selection

/-- A name ends with a dot and one of several extensions, and something comes before. -/
def EndsWithExtension (extensions : List String) (name : FileName) : Prop :=
  ∃ stem ext, stem ≠ [] ∧ ext ∈ extensions ∧ name.bytes = stem ++ dot :: Utf8.encode ext

theorem HasExtension.endsWithExtension {extensions : List String} {name : FileName} {ext : String}
    (h : HasExtension name ext) (hMem : ext ∈ extensions) : EndsWithExtension extensions name := by
  obtain ⟨-, stem, hStem, hName⟩ := h
  exact ⟨stem, ext, hStem, hMem, hName⟩

/-- A longer name has the extension, too. -/
theorem HasExtension.append {name : FileName} {ext : String} (h : HasExtension name ext)
    (front : Bytes) : HasExtension ⟨front ++ dot :: name.bytes⟩ ext := by
  obtain ⟨hDotless, stem, -, hName⟩ := h
  exact ⟨hDotless, front ++ dot :: stem, by simp, by simp [hName]⟩

/-- A name with a dot, but not as its first byte, has the extension that longer names have. -/
theorem HasExtension.of_append {front : Bytes} {name : FileName} {ext : String}
    (h : HasExtension ⟨front ++ dot :: name.bytes⟩ ext) (hDot : dot ∈ name.bytes)
    (hHead : name.bytes.head? ≠ some dot) : HasExtension name ext := by
  obtain ⟨hDotless, stem, -, hEq⟩ := h
  obtain ⟨head, tail, hName, hTail⟩ := exists_lastDot hDot
  have hBytes : (front ++ dot :: head) ++ dot :: tail = stem ++ dot :: Utf8.encode ext := by
    rw [← hEq, hName]
    simp
  obtain ⟨-, hSame⟩ := lastDot_unique hTail (fun h => hDotless (Utf8.dot_mem_encode_iff.1 h)) hBytes
  refine ⟨hDotless, head, ?_, hSame ▸ hName⟩
  rintro rfl
  rw [hName] at hHead
  exact hHead rfl

theorem isSource_concat_iff {extensions : List String} {dirs : Location} {name : FileName}
    (hDirs : isVisible dirs = true) (hName : name.bytes.head? ≠ some dot) :
    isSource extensions (dirs ++ [name]) = true ↔ ∃ ext ∈ extensions, HasExtension name ext := by
  have hVisible : ∀ n ∈ dirs ++ [name], n.isText = true → n.bytes.head? ≠ some dot :=
    List.forall_mem_append.2 ⟨isVisible_iff.1 hDirs, List.forall_mem_singleton.2 fun _ => hName⟩
  rw [isSource_iff, List.getLast?_concat, and_iff_right hVisible]
  simp

end Selection

namespace Plan

open Selection

/-- A letter and an extension, as the name of a file. -/
def letterNamed (ext : String) : FileName := ⟨[0x61] ++ dot :: Utf8.encode ext⟩

theorem isName_letterNamed {ext : String} (hSlash : '/' ∉ ext.toList) :
    IsName (letterNamed ext) := by
  refine ⟨by simp [letterNamed], by simp [letterNamed], by simp [letterNamed, dot], fun h => ?_⟩
  rcases List.mem_cons.1 h with hLetter | h
  · exact absurd hLetter (by decide)
  rcases List.mem_cons.1 h with hDot | h
  · exact absurd hDot (by decide)
  · exact hSlash (Utf8.mem_of_mem_encode (c := '/') h (by decide))

variable {project : Path} {s : Settings} {o : Overrides} {plan : Plan}

/-- **A file is a source exactly if its name has one of the extensions**, where no name is hidden.
That all files are sources whose names end with a dot and one of the extensions is true exactly if
each extension with a dot has itself one of the extensions. -/
theorem isSource_iff_extended (h : ofSettings project s o = .ok plan) {dirs : Location}
    (hDirs : isVisible dirs = true) :
    (∀ name, IsName name → name.bytes.head? ≠ some dot →
      (isSource plan.extensions (dirs ++ [name]) = true ↔
        ∃ ext ∈ plan.extensions, HasExtension name ext)) ∧
    ((∀ name, IsName name → name.bytes.head? ≠ some dot →
        (isSource plan.extensions (dirs ++ [name]) = true ↔
          EndsWithExtension plan.extensions name)) ↔
      ∀ ext ∈ plan.extensions, '/' ∉ ext.toList → '.' ∈ ext.toList →
        ∃ ext' ∈ plan.extensions, HasExtension ext ext') := by
  have hBare : ∀ ext ∈ plan.extensions, (Utf8.encode ext).head? ≠ some dot := by
    intro ext hMem
    obtain ⟨text, -, -, hHead, -⟩ := ((ofSettings_eq_ok_iff.1 h).carries.extensions ext).1 hMem
    exact fun hDot => hHead (Utf8.head?_encode_iff.1 hDot)
  refine ⟨fun name _ hHead => isSource_concat_iff hDirs hHead, ?_⟩
  constructor
  · intro hAll ext hMem hSlash hDot
    have hHead : (letterNamed ext).bytes.head? ≠ some dot := by simp [letterNamed, dot]
    have hSource := (hAll (letterNamed ext) (isName_letterNamed hSlash) hHead).2
      ⟨[0x61], ext, by decide, hMem, rfl⟩
    obtain ⟨ext', hMem', hHas⟩ := (isSource_concat_iff hDirs hHead).1 hSource
    exact ⟨ext', hMem', @HasExtension.of_append [0x61] ext ext' hHas
      (Utf8.dot_mem_encode_iff.2 hDot) (hBare ext hMem)⟩
  · intro hParts name hName hHead
    rw [isSource_concat_iff hDirs hHead]
    constructor
    · rintro ⟨ext, hMem, hHas⟩
      exact hHas.endsWithExtension hMem
    · rintro ⟨stem, ext, hStem, hMem, hBytes⟩
      by_cases hDot : '.' ∈ ext.toList
      · have hSlash : '/' ∉ ext.toList := by
          intro hSlash
          refine hName.no_slash ?_
          rw [hBytes, List.mem_append, List.mem_cons]
          exact Or.inr (Or.inr (List.mem_flatMap.2 ⟨'/', hSlash, by decide⟩))
        obtain ⟨ext', hMem', hHas⟩ := hParts ext hMem hSlash hDot
        have hSame : name = ⟨stem ++ dot :: (FileName.ofText ext).bytes⟩ :=
          congrArg FileName.mk hBytes
        exact ⟨ext', hMem', hSame ▸ hHas.append stem⟩
      · exact ⟨ext, hMem, hDot, stem, hStem, hBytes⟩

/-- The settings of a standard layout but for the extensions. -/
def extended (extensions : List String) : Settings :=
  { Settings.standard with
    instrumenter := { Settings.defaultInstrumenter with extensions := extensions } }

/-- A file in two visible directories, with an extension that no file has and after that with its
last part as another extension. -/
theorem isSource_iff_extended_dotted :
    let dirs : Location := ["a", "b"]
    (∃ plan, ofSettings "/p" (extended ["..t.sol"]) Overrides.none = .ok plan ∧
      plan.extensions = ["t.sol"] ∧ EndsWithExtension plan.extensions "Foo.t.sol" ∧
      isSource plan.extensions (dirs ++ [FileName.ofText "Foo.t.sol"]) = false) ∧
    ∃ plan, ofSettings "/p" (extended ["t.sol", ".sol"]) Overrides.none = .ok plan ∧
      plan.extensions = ["t.sol", "sol"] ∧
      isSource plan.extensions (dirs ++ [FileName.ofText "Foo.t.sol"]) = true := by
  intro dirs
  have hDirs : isVisible dirs = true := by decide
  have hHead : (FileName.ofText "Foo.t.sol").bytes.head? ≠ some dot := by decide
  have hEnds (extensions : List String) (hMem : "t.sol" ∈ extensions) :
      EndsWithExtension extensions "Foo.t.sol" :=
    ⟨Utf8.encode "Foo", "t.sol", by decide, hMem, by decide⟩
  have hPlan (extensions bare : List String)
      (hAccepted : (ofSettings "/p" (extended extensions) Overrides.none).toOption.isSome)
      (hBare : extensionsOf extensions = bare) :
      ∃ plan, ofSettings "/p" (extended extensions) Overrides.none = .ok plan ∧
        plan.extensions = bare := by
    obtain ⟨plan, hPlan⟩ := Option.isSome_iff_exists.1 hAccepted
    have hOk := Outcome.eq_ok_of_toOption hPlan
    exact ⟨plan, hOk, (ofSettings_eq_ok_iff.1 hOk).extensions_eq.trans hBare⟩
  constructor
  · obtain ⟨plan, hOk, hBare⟩ := hPlan ["..t.sol"] ["t.sol"] (by decide +kernel) (by decide +kernel)
    refine ⟨plan, hOk, hBare, hEnds _ (hBare ▸ List.mem_cons_self), ?_⟩
    rw [← Bool.not_eq_true, (isSource_iff_extended hOk hDirs).1 _ (by decide) hHead, hBare]
    rintro ⟨ext, hMem, hDotless, -⟩
    obtain rfl := List.mem_singleton.1 hMem
    exact hDotless (by decide)
  · obtain ⟨plan, hOk, hBare⟩ :=
      hPlan ["t.sol", ".sol"] ["t.sol", "sol"] (by decide +kernel) (by decide +kernel)
    refine ⟨plan, hOk, hBare, ?_⟩
    have hSol : HasExtension "t.sol" "sol" :=
      ⟨by decide, Utf8.encode "t", by decide, by decide⟩
    have hSource := (isSource_iff_extended hOk hDirs).2.2 ?_ "Foo.t.sol" (by decide) hHead
    · exact hSource.2 (hEnds _ (hBare ▸ List.mem_cons_self))
    rw [hBare]
    intro ext hMem _ hDot
    rcases List.mem_cons.1 hMem with rfl | hLast
    · exact ⟨"sol", by decide, hSol⟩
    · obtain rfl := List.mem_singleton.1 hLast
      exact absurd hDot (by decide)

end Plan

end CoverRun

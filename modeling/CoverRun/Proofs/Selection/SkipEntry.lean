import CoverRun.Proofs.FileTree.Plain
import CoverRun.Proofs.Glob.Reading
import CoverRun.Proofs.Path.Ancestors
import CoverRun.Proofs.Path.Text
import CoverRun.Proofs.Selection.SkipList

/-!
# What skip entries cover

A path of names is covered exactly if the first names of it are hit, however many
(`SkipEntry.covers_ofNames_iff`), so what is below something that is skipped is skipped too
(`SourceRoot.skips_of_prefix`).

An entry whose components are patterns alone hits component by component, as far as these are UTF-8
(`SkipEntry.covers_components_iff`). A name that is not UTF-8 is hit by no pattern, but `*` hits the
empty path and so covers it. An entry with a wildcard is only a pattern and no longer names
anything, so it covers what its names lead to exactly if it matches a part of them itself
(`SkipEntry.coversNamed_iff`): this it does unless one of them has a class or a backslash.
-/

namespace CoverRun

open CoverRun.Path

/-! ## Names of an entry -/

namespace SkipEntry

theorem mem_of_namesInside? {cs : List Component} {names : List FileName}
    (h : namesInside? cs = some names) : ∀ n ∈ names, Component.name n ∈ cs := by
  rw [namesInside?_eq, Option.ite_none_right_eq_some, Option.some_inj] at h
  obtain ⟨-, rfl⟩ := h
  exact fun n hn => mem_namesOf.1 hn

theorem spec_of_ofText {text : String} {entry : SkipEntry} (h : ofText text = .ok entry) :
    namesInside? (Path.ofText text).components = some entry.names ∧ entry.names ≠ [] ∧
      (hasWildcard text = true ∧
          (∃ g, entry.glob? = some g ∧ Glob.ofText (patternText entry.names) = .ok g) ∨
        hasWildcard text = false ∧ entry.glob? = none) := by
  rw [ofText] at h
  split at h
  · cases h
  · cases h
  · next n ns hNames =>
    split at h
    · next hWildcard =>
      split at h
      · next g hGlob =>
        obtain rfl := Except.ok.inj h
        exact ⟨hNames, List.cons_ne_nil n ns, Or.inl ⟨hWildcard, g, rfl, hGlob⟩⟩
      · cases h
    · next hPlain =>
      obtain rfl := Except.ok.inj h
      exact ⟨hNames, List.cons_ne_nil n ns, Or.inr ⟨Bool.eq_false_iff.2 hPlain, rfl⟩⟩

theorem mem_components_of_mem {text : String} {entry : SkipEntry} (h : ofText text = .ok entry) :
    ∀ n ∈ entry.names, Component.name n ∈ (Path.ofText text).components :=
  mem_of_namesInside? (spec_of_ofText h).1

theorem isName_of_ofText {text : String} {entry : SkipEntry} (h : ofText text = .ok entry) :
    ∀ n ∈ entry.names, IsName n := by
  intro n hn
  have hMem := mem_components_of_mem h n hn
  have hWritten := isWritten_components (Path.ofText text)
  cases hComponents : (Path.ofText text).components with
  | nil => simp [hComponents] at hMem
  | cons c cs =>
      rw [hComponents] at hMem hWritten
      rcases List.mem_cons.1 hMem with rfl | hLater
      · rcases hWritten.1 with hRoot | hCurrent | hStep
        · cases hRoot
        · cases hCurrent
        · exact hStep
      · exact hWritten.2 _ hLater

theorem isText_of_ofText {text : String} {entry : SkipEntry} (h : ofText text = .ok entry) :
    ∀ n ∈ entry.names, n.isText = true :=
  fun n hn => isText_of_mem_components (mem_components_of_mem h n hn)

theorem patternText_eq {names : List FileName} (h : ∀ n ∈ names, '\\' ∉ n.text.toList) :
    patternText names = (ofNames names).text := by
  have hSame : ∀ c ∈ (ofNames names).text.toList, (if c = '\\' then '/' else c) = c := by
    intro c hc
    refine if_neg ?_
    rintro rfl
    rcases mem_text_ofNames hc with hSlash | ⟨n, hn, hMem⟩
    · exact absurd hSlash (by decide)
    · exact h n hn hMem
  rw [patternText, List.map_congr_left hSame, List.map_id', String.ofList_toList]

/-! ## Hits -/

/-- Names that an entry is for by themselves, whatever comes before or after them. -/
def Hits (entry : SkipEntry) (names : List FileName) : Prop :=
  match entry.glob? with
  | some g => (ofNames names).text?.any g.accepts = true
  | none => names = entry.names

theorem hits_glob {entry : SkipEntry} {g : Glob} (h : entry.glob? = some g)
    {names : List FileName} : entry.Hits names ↔
      (∀ n ∈ names, n.isText = true) ∧ g.accepts (ofNames names).text = true := by
  rw [Hits, h]
  simp only [text?_ofNames, ← List.all_eq_true]
  split <;> simp [*]

theorem hits_plain {entry : SkipEntry} (h : entry.glob? = none) {names : List FileName} :
    entry.Hits names ↔ names = entry.names := by
  rw [Hits, h]

/-- **A path of names is covered exactly if some first names of it are hit.** -/
theorem covers_ofNames_iff {entry : SkipEntry} {names : List FileName} (h : ∀ n ∈ names, IsName n) :
    entry.covers (ofNames names) = true ↔ ∃ front, front <+: names ∧ entry.Hits front := by
  cases hGlob : entry.glob? with
  | none =>
      simp only [hits_plain hGlob, covers, hGlob, components_ofNames h, List.isPrefixOf_iff_prefix,
        exists_eq_right]
      exact List.prefix_map_iff_of_injective fun _ _ => Component.name.inj
  | some g =>
      simp only [Hits, covers, hGlob, List.any_cons, Bool.or_eq_true, List.any_eq_true]
      constructor
      · rintro (hWhole | ⟨dir, hDir, hAccepts⟩)
        · exact ⟨names, List.prefix_rfl, hWhole⟩
        · obtain ⟨front, hFront, -, rfl⟩ := (mem_ancestors_ofNames h).1 hDir
          exact ⟨front, hFront, hAccepts⟩
      · rintro ⟨front, hFront, hAccepts⟩
        by_cases hWhole : front = names
        · exact Or.inl (hWhole ▸ hAccepts)
        · exact Or.inr ⟨_, (mem_ancestors_ofNames h).2 ⟨front, hFront, hWhole, rfl⟩, hAccepts⟩

theorem covers_of_prefix {entry : SkipEntry} {front names : List FileName}
    (h : ∀ n ∈ names, IsName n) (hPrefix : front <+: names)
    (hCovers : entry.covers (ofNames front) = true) : entry.covers (ofNames names) = true := by
  have hFront : ∀ n ∈ front, IsName n := fun n hn => h n (hPrefix.subset hn)
  obtain ⟨first, hFirst, hHits⟩ := (covers_ofNames_iff hFront).1 hCovers
  exact (covers_ofNames_iff h).2 ⟨first, hFirst.trans hPrefix, hHits⟩

end SkipEntry

/-! ## Below what is skipped -/

/-- **What is below something that is skipped is skipped.** -/
theorem SourceRoot.skips_of_prefix (root : SourceRoot) {front names : List FileName}
    (h : ∀ n ∈ names, IsName n) (hPrefix : front <+: names)
    (hSkips : root.skips (ofNames front) = true) : root.skips (ofNames names) = true := by
  obtain ⟨entry, hEntry, hCovers⟩ := List.any_eq_true.1 hSkips
  exact List.any_eq_true.2 ⟨entry, hEntry, SkipEntry.covers_of_prefix h hPrefix hCovers⟩

/-- Below what a glob skips, and below what `**` skips in some directory. -/
theorem SourceRoot.skips_of_prefix_mixed : ∃ root,
    SourceRoot.ofTexts "contracts" ["lib", "gen/*", "**/m[1]"] = .ok root ∧
      root.skips (ofNames ["gen", "x"]) = true ∧
      root.skips (ofNames ["gen", "x", "Y.sol"]) = true ∧
      root.skips (ofNames ["a", "b", "m1"]) = true ∧
      root.skips (ofNames ["a", "b", "m1", "c", "D.sol"]) = true := by
  let root : SourceRoot := ⟨"contracts", [⟨"lib", ["lib"], none⟩,
    ⟨"gen/*", ["gen", "*"], some ⟨[.char 'g', .char 'e', .char 'n', .char '/', .anySequence]⟩⟩,
    ⟨"**/m[1]", ["**", "m[1]"], some ⟨[.anyComponents, .char 'm', .anyOf [.single '1']]⟩⟩]⟩
  have hRead : SourceRoot.ofTexts "contracts" ["lib", "gen/*", "**/m[1]"] = .ok root := by
    decide +kernel
  have hGlob : root.skips (ofNames ["gen", "x"]) = true := by decide
  have hDeep : root.skips (ofNames ["a", "b", "m1"]) = true := by decide
  exact ⟨root, hRead, hGlob, root.skips_of_prefix (by decide) (by decide) hGlob, hDeep,
    root.skips_of_prefix (by decide) (by decide) hDeep⟩

namespace SkipEntry

/-! ## Component by component -/

section

variable {text : String} {entry : SkipEntry}

theorem glob?_eq_joined (h : ofText text = .ok entry) (hWildcard : hasWildcard text = true)
    (hBackslash : '\\' ∉ text.toList) {globs : List Glob}
    (hGlobs : List.Forall₂ (fun n g => Glob.ofText n.text = .ok g) entry.names globs)
    (hSingle : FileName.ofText "**" ∉ entry.names) :
    entry.glob? = some ⟨Glob.joined (globs.map (·.tokens))⟩ ∧
      List.Forall₂ (fun n g => Glob.Spells n.text.toList g.tokens) entry.names globs := by
  obtain ⟨hInside, hne, ⟨-, g, hGlob, hRead⟩ | ⟨hNone, -⟩⟩ := spec_of_ofText h
  · have hNames := isName_of_ofText h
    have hSpells :
        List.Forall₂ (fun n g => Glob.Spells n.text.toList g.tokens) entry.names globs := by
      refine (List.forall₂_iff_zip.2 ⟨hGlobs.length_eq, fun {n g} hMem => ?_⟩)
      have hn := (List.of_mem_zip hMem).1
      refine Glob.spells_of_ofText (List.forall₂_zip hGlobs hMem) (slash_not_mem_text (hNames n hn))
        fun hEq => hSingle ?_
      have hText : FileName.ofText n.text = n := FileName.isText_iff.1 (isText_of_ofText h n hn)
      rwa [← hEq, hText]
    have hPlain : ∀ n ∈ entry.names, '\\' ∉ n.text.toList := fun n hn hc =>
      hBackslash (mem_of_mem_name_text (mem_components_of_mem h n hn) hc (by decide))
    have hJoined := Glob.readFrom_intercalate
      (List.forall₂_map_left_iff.2 (List.forall₂_map_right_iff.2 hSpells)) (by simpa using hne) 0
      true []
    rw [patternText_eq hPlain, Glob.ofText, text_ofNames, hJoined] at hRead
    exact ⟨hGlob.trans (congrArg some (Except.ok.inj hRead).symm), hSpells⟩
  · rw [hWildcard] at hNone
    cases hNone

/-- Names are hit component by component; no names are hit as a component that can be empty. -/
theorem hits_joined_iff {globs : List Glob}
    (hGlob : entry.glob? = some ⟨Glob.joined (globs.map (·.tokens))⟩)
    (hSpells : List.Forall₂ (fun n g => Glob.Spells n.text.toList g.tokens) entry.names globs)
    (hne : globs ≠ []) {names : List FileName} : entry.Hits names ↔
      (∀ n ∈ names, n.isText = true) ∧
        List.Forall₂ (fun g piece => Glob.matchesChars g.tokens piece = true) globs
          (pieces '/' (ofNames names).text.toList) := by
  have hInner : ∀ ts ∈ globs.map (·.tokens), ∀ t ∈ ts, t.IsInner := by
    intro ts hts
    obtain ⟨g, hg, rfl⟩ := List.mem_map.1 hts
    obtain ⟨n, -, hSpelled⟩ := Outcome.exists_of_mem_forall₂ hSpells hg
    exact hSpelled.isInner
  rw [hits_glob hGlob, Glob.accepts_eq,
    Glob.matchesChars_joined_iff hInner (by simpa using hne), List.forall₂_map_left_iff]

/-- A path is covered exactly if its first names are matched by the globs of the components, or if
the glob of the only component matches the empty text. -/
theorem covers_iff_exists_front {globs : List Glob}
    (hGlob : entry.glob? = some ⟨Glob.joined (globs.map (·.tokens))⟩)
    (hSpells : List.Forall₂ (fun n g => Glob.Spells n.text.toList g.tokens) entry.names globs)
    (hne : globs ≠ []) {names : List FileName} (hNames : ∀ n ∈ names, IsName n) :
    entry.covers (ofNames names) = true ↔
      (∃ front, front <+: names ∧ (∀ n ∈ front, n.isText = true) ∧
        List.Forall₂ (fun g n => g.accepts n.text = true) globs front) ∨
      ∃ g, globs = [g] ∧ g.accepts "" = true := by
  have hPieces {front : List FileName} (hFront : front <+: names) (hSome : front ≠ []) :
      entry.Hits front ↔ (∀ n ∈ front, n.isText = true) ∧
        List.Forall₂ (fun g n => g.accepts n.text = true) globs front := by
    rw [hits_joined_iff hGlob hSpells hne,
      pieces_text_ofNames (fun n hn => hNames n (hFront.subset hn)) hSome,
      List.forall₂_map_right_iff]
    simp only [Glob.accepts_eq]
  have hEmpty : entry.Hits [] ↔ ∃ g, globs = [g] ∧ g.accepts "" = true := by
    have hOne : pieces '/' (ofNames []).text.toList = [[]] := rfl
    simp [hits_joined_iff hGlob hSpells hne, hOne, Glob.accepts_eq,
      List.forall₂_cons_right_iff, List.forall₂_nil_right_iff, and_comm]
  rw [covers_ofNames_iff hNames]
  constructor
  · rintro ⟨front, hFront, hHits⟩
    by_cases hSome : front = []
    · exact Or.inr (hEmpty.1 (hSome ▸ hHits))
    · exact Or.inl ⟨front, hFront, (hPieces hFront hSome).1 hHits⟩
  · rintro (⟨front, hFront, hAll⟩ | hAlone)
    · have hSome : front ≠ [] := by
        rintro rfl
        exact hne (List.forall₂_nil_right_iff.1 hAll.2)
      exact ⟨front, hFront, (hPieces hFront hSome).2 hAll⟩
    · exact ⟨[], List.nil_prefix, hEmpty.2 hAlone⟩

/-- **When a glob covers a path.** Let an entry have a wildcard, no backslash and only components
that are patterns alone, other than `**`. Then it covers a path exactly if the path has at least as
many names as the entry has components and the first ones are UTF-8 and match the components one by
one, or if the only component matches the empty text. So it covers a path of names that are UTF-8
exactly if the first ones match component by component. -/
theorem covers_components_iff (h : ofText text = .ok entry) (hWildcard : hasWildcard text = true)
    (hBackslash : '\\' ∉ text.toList) {globs : List Glob}
    (hGlobs : List.Forall₂ (fun n g => Glob.ofText n.text = .ok g) entry.names globs)
    (hSingle : FileName.ofText "**" ∉ entry.names) {names : List FileName}
    (hNames : ∀ n ∈ names, IsName n) :
    (entry.covers (ofNames names) = true ↔
      (entry.names.length ≤ names.length ∧
        ∀ i (hi : i < globs.length) (hi' : i < names.length),
          names[i].isText = true ∧ globs[i].accepts names[i].text = true) ∨
      ∃ g, globs = [g] ∧ g.accepts "" = true) ∧
    (names ≠ [] → (∀ n ∈ names, n.isText = true) → (entry.covers (ofNames names) = true ↔
      entry.names.length ≤ names.length ∧
        ∀ i (hi : i < globs.length) (hi' : i < names.length),
          globs[i].accepts names[i].text = true)) := by
  obtain ⟨hGlob, hSpells⟩ := glob?_eq_joined h hWildcard hBackslash hGlobs hSingle
  have hLength : entry.names.length = globs.length := hGlobs.length_eq
  have hne : globs ≠ [] := by
    rintro rfl
    exact (spec_of_ofText h).2.1 (List.length_eq_zero_iff.1 hLength)
  have hIff : entry.covers (ofNames names) = true ↔
      (entry.names.length ≤ names.length ∧
        ∀ i (hi : i < globs.length) (hi' : i < names.length),
          names[i].isText = true ∧ globs[i].accepts names[i].text = true) ∨
      ∃ g, globs = [g] ∧ g.accepts "" = true := by
    rw [covers_iff_exists_front hGlob hSpells hne hNames, hLength]
    refine or_congr ⟨?_, ?_⟩ Iff.rfl
    · rintro ⟨front, ⟨rest, rfl⟩, hText, hAll⟩
      obtain ⟨hSame, hEach⟩ := List.forall₂_iff_get.1 hAll
      refine ⟨by simp [hSame], fun i hi hi' => ?_⟩
      have hFront := hEach i hi (hSame ▸ hi)
      rw [List.getElem_append_left (hSame ▸ hi : i < front.length)]
      exact ⟨hText _ (List.getElem_mem _), hFront⟩
    · rintro ⟨hShort, hEach⟩
      refine ⟨names.take globs.length, List.take_prefix _ names, ?_,
        List.forall₂_iff_get.2 ⟨?_, ?_⟩⟩
      · intro n hn
        obtain ⟨i, hi, rfl⟩ := List.mem_iff_getElem.1 hn
        rw [List.length_take] at hi
        rw [List.getElem_take]
        exact (hEach i (by omega) (by omega)).1
      · rw [List.length_take, Nat.min_eq_left hShort]
      · intro i hi hi'
        simpa using (hEach i hi (Nat.lt_of_lt_of_le hi hShort)).2
  refine ⟨hIff, fun hSome hText => hIff.trans ⟨?_, ?_⟩⟩
  · rintro (⟨hShort, hEach⟩ | ⟨g, rfl, hEmpty⟩)
    · exact ⟨hShort, fun i hi hi' => (hEach i hi hi').2⟩
    · obtain ⟨n, hn, hSpelled⟩ := Outcome.exists_of_mem_forall₂ hSpells List.mem_cons_self
      have hTokens : g.tokens ≠ [] := hSpelled.ne_nil
        (FileName.text_ne (isText_of_ofText h n hn) (isName_of_ofText h n hn).nonempty)
      refine ⟨hLength.trans_le (List.length_pos_iff.2 hSome), fun i hi hi' => ?_⟩
      obtain rfl : i = 0 := Nat.lt_one_iff.1 hi
      rw [Glob.accepts_eq] at hEmpty
      rw [List.getElem_singleton, Glob.accepts_eq]
      exact Glob.matchesChars_of_empty hSpelled.isInner hTokens hEmpty
        (slash_not_mem_text (hNames _ (List.getElem_mem hi')))
  · rintro ⟨hShort, hEach⟩
    exact Or.inl ⟨hShort, fun i hi hi' => ⟨hText _ (List.getElem_mem hi'), hEach i hi hi'⟩⟩

/-- A glob that matches a directory covers what is below it, and no wildcard takes in a
separator. -/
theorem covers_components_iff_classes : ∃ entry, ofText "gen*/[!a]*.sol" = .ok entry ∧
    entry.covers (ofNames ["gen1", "b.sol", ⟨[0xFF]⟩]) = true ∧
    entry.covers (ofNames ["gen1", "d", "b.sol"]) = false := by
  let outer : Glob := ⟨[.char 'g', .char 'e', .char 'n', .anySequence]⟩
  let inner : Glob :=
    ⟨[.noneOf [.single 'a'], .anySequence, .char '.', .char 's', .char 'o', .char 'l']⟩
  let entry : SkipEntry := ⟨"gen*/[!a]*.sol", ["gen*", "[!a]*.sol"],
    some ⟨outer.tokens ++ .char '/' :: inner.tokens⟩⟩
  have hRead : ofText "gen*/[!a]*.sol" = .ok entry := by decide +kernel
  have hGlobs : List.Forall₂ (fun n g => Glob.ofText n.text = .ok g) entry.names [outer, inner] :=
    .cons (by decide +kernel) (.cons (by decide +kernel) .nil)
  have hIff {names : List FileName} := @covers_components_iff _ _ hRead (by decide) (by decide) _
    hGlobs (by decide) names
  refine ⟨entry, hRead, (hIff (by decide)).1.2 (Or.inl ⟨by decide, by decide⟩), ?_⟩
  refine Bool.eq_false_iff.2 fun hCovers => ?_
  have hSecond := (((hIff (by decide)).2 (by decide) (by decide)).1 hCovers).2 1 (by decide)
    (by decide)
  exact absurd hSecond (by decide)

/-- Whatever it is for a name that is not UTF-8 to match a glob, globs do not cover component by
component: `*` covers such a name, and `lib/*` does not cover it in `lib`. -/
theorem not_covers_componentwise : ¬ ∃ matchesName : Glob → FileName → Prop,
    ∀ (text : String) (entry : SkipEntry) (globs : List Glob) (names : List FileName),
      ofText text = .ok entry → hasWildcard text = true → '\\' ∉ text.toList →
      List.Forall₂ (fun n g => Glob.ofText n.text = .ok g) entry.names globs →
      FileName.ofText "**" ∉ entry.names → (∀ n ∈ names, IsName n) → names ≠ [] →
      (entry.covers (ofNames names) = true ↔ entry.names.length ≤ names.length ∧
        ∀ i (hi : i < globs.length) (hi' : i < names.length), matchesName globs[i] names[i]) := by
  rintro ⟨matchesName, hAll⟩
  let star : Glob := ⟨[.anySequence]⟩
  let lib : Glob := ⟨[.char 'l', .char 'i', .char 'b']⟩
  let short : SkipEntry := ⟨"*", ["*"], some star⟩
  let long : SkipEntry := ⟨"lib/*", ["lib", "*"], some ⟨lib.tokens ++ .char '/' :: star.tokens⟩⟩
  have hStar : Glob.ofText "*" = .ok star := by decide +kernel
  have hShort (names : List FileName) := hAll "*" short [star] names (by decide +kernel)
    (by decide) (by decide) (.cons hStar .nil) (by decide)
  have hLong (names : List FileName) := hAll "lib/*" long [lib, star] names (by decide +kernel)
    (by decide) (by decide) (.cons (by decide +kernel) (.cons hStar .nil)) (by decide)
  have hOdd : matchesName star ⟨[0xFF]⟩ :=
    ((hShort [⟨[0xFF]⟩] (by decide) (by decide)).1 (by decide)).2 0 (by decide) (by decide)
  have hLib : matchesName lib "lib" :=
    ((hLong ["lib", "a"] (by decide) (by decide)).1 (by decide)).2 0 (by decide) (by decide)
  have hCovers := (hLong ["lib", ⟨[0xFF]⟩] (by decide) (by decide)).2
    ⟨by decide, fun i hi hi' => ?_⟩
  · exact absurd hCovers (by decide)
  · match i, hi with
    | 0, _ => exact hLib
    | 1, _ => exact hOdd

end

/-! ## What an entry names -/

/-- The entry covers what its names lead to and all below that. -/
def CoversNamed (entry : SkipEntry) : Prop :=
  ∀ names, (∀ n ∈ names, IsName n) → entry.names <+: names → entry.covers (ofNames names) = true

theorem accepts_names {text : String} {entry : SkipEntry} (h : ofText text = .ok entry) {g : Glob}
    (hGlob : entry.glob? = some g)
    (hLiteral : ∀ n ∈ entry.names, '[' ∉ n.text.toList ∧ '\\' ∉ n.text.toList) :
    g.accepts (ofNames entry.names).text = true := by
  obtain ⟨-, -, ⟨-, g', hGlob', hRead⟩ | ⟨-, hNone⟩⟩ := spec_of_ofText h
  · obtain rfl := Option.some.inj (hGlob.symm.trans hGlob')
    rw [patternText_eq fun n hn => (hLiteral n hn).2] at hRead
    refine Glob.accepts_self hRead fun hMem => ?_
    rcases mem_text_ofNames hMem with hSlash | ⟨n, hn, hc⟩
    · exact absurd hSlash (by decide)
    · exact (hLiteral n hn).1 hc
  · rw [hGlob] at hNone
    cases hNone

/-- **When an entry covers what it names.** An entry without a wildcard always does. One with a
wildcard does exactly if it matches the path of its own names or one of the directories on the way
there, as it does if no name has an opening bracket or a backslash. -/
theorem coversNamed_iff {text : String} {entry : SkipEntry} (h : ofText text = .ok entry) :
    (entry.CoversNamed ↔ ∀ g, entry.glob? = some g →
      ∃ front, front <+: entry.names ∧ g.accepts (ofNames front).text = true) ∧
    ((∀ n ∈ entry.names, '[' ∉ n.text.toList ∧ '\\' ∉ n.text.toList) → entry.CoversNamed) := by
  have hNames := isName_of_ofText h
  have hOwn : entry.CoversNamed ↔ entry.covers (ofNames entry.names) = true :=
    ⟨fun hNamed => hNamed entry.names hNames List.prefix_rfl,
      fun hCovers names h hPrefix => covers_of_prefix h hPrefix hCovers⟩
  have hIff : entry.CoversNamed ↔ ∀ g, entry.glob? = some g →
      ∃ front, front <+: entry.names ∧ g.accepts (ofNames front).text = true := by
    rw [hOwn, covers_ofNames_iff hNames]
    cases hGlob : entry.glob? with
    | none => exact iff_of_true ⟨_, List.prefix_rfl, (hits_plain hGlob).2 rfl⟩ (by simp)
    | some g =>
        simp only [hits_glob hGlob, Option.some.injEq, forall_eq']
        refine exists_congr fun front => and_congr_right fun hFront => and_iff_right ?_
        exact fun n hn => isText_of_ofText h n (hFront.subset hn)
  exact ⟨hIff, fun hLiteral => hIff.2 fun g hGlob =>
    ⟨entry.names, List.prefix_rfl, accepts_names h hGlob hLiteral⟩⟩

/-- With a class in its name a file is not covered by the entry that is its name, while another
file is. -/
theorem coversNamed_iff_class : ∃ entry, ofText "Foo[1].sol" = .ok entry ∧
    entry.names = [FileName.ofText "Foo[1].sol"] ∧ entry.covers "Foo1.sol" = true ∧
    ¬ entry.CoversNamed := by
  let g : Glob := ⟨[.char 'F', .char 'o', .char 'o', .anyOf [.single '1'], .char '.', .char 's',
    .char 'o', .char 'l']⟩
  have hRead : ofText "Foo[1].sol" = .ok ⟨"Foo[1].sol", ["Foo[1].sol"], some g⟩ := by decide +kernel
  refine ⟨_, hRead, rfl, by decide, fun hNamed => ?_⟩
  obtain ⟨front, hFront, hAccepts⟩ := (coversNamed_iff hRead).1.1 hNamed g rfl
  rcases List.prefix_cons_iff.1 hFront with rfl | ⟨rest, rfl, hRest⟩
  · exact absurd hAccepts (by decide)
  · obtain rfl := List.prefix_nil.1 hRest
    exact absurd hAccepts (by decide)

end SkipEntry

end CoverRun

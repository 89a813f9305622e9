import CoverRun.Proofs.FileTree.Plain
import CoverRun.Proofs.FileTree.Slashed
import CoverRun.Proofs.Selection.Discovery
import CoverRun.Proofs.Text.Decoding

/-!
# What stops a selection

A root that is a directory contributes its sources unless something counts below it that cannot be
visited: a directory whose path is too long, or a wanted file whose path is too long or whose
content is no encoded text (`Selection.Fault`). Hidden entries and files with other extensions do
not count, those that are skipped do. The roots are taken in order, the entries below a root in the
order of their bytes, and the first fault is the failure of the whole selection
(`Selection.ofRoots_outcome`).
-/

namespace CoverRun.Selection

open Outcome CoverRun.Path FileTree

/-! ## Faults below a root -/

/-- What cannot be visited below a directory under the path of a root, and the error. -/
inductive Fault (t : FileTree) (extensions : List String) (root : Path) (loc : Location) :
    Location → SelectionError → Prop
  | unlisted {names : Location} : names ≠ [] → t.find? (loc ++ names) = some .directory →
      (∀ n ∈ names, n.isText = true → n.bytes.head? ≠ some dot) →
      isTooLong (root.join (ofNames names)) = true →
      Fault t extensions root loc names (.unlisted root (root.join (ofNames names)) .nameTooLong)
  | unread {names : Location} {content : Bytes} : Wanted t extensions loc names content →
      isTooLong (root.join (ofNames names)) = true →
      Fault t extensions root loc names (.unreadable (root.join (ofNames names)) .nameTooLong)
  | undecoded {names : Location} {content : Bytes} : Wanted t extensions loc names content →
      isTooLong (root.join (ofNames names)) = false → (∀ text, content ≠ Utf8.encode text) →
      Fault t extensions root loc names (.unreadable (root.join (ofNames names)) .invalidText)

/-- Whether all that counts below a directory can be visited under the path of a root. -/
structure Readable (t : FileTree) (extensions : List String) (root : Path) (loc : Location) :
    Prop where
  listed : ∀ names, names ≠ [] → t.find? (loc ++ names) = some .directory →
    (∀ n ∈ names, n.isText = true → n.bytes.head? ≠ some dot) →
      isTooLong (root.join (ofNames names)) = false
  read : ∀ names content, Wanted t extensions loc names content →
    isTooLong (root.join (ofNames names)) = false ∧ ∃ text, content = Utf8.encode text

section

variable {t : FileTree} {extensions : List String} {root : Path} {loc : Location}

theorem readable_iff_not_fault :
    Readable t extensions root loc ↔ ∀ names e, ¬ Fault t extensions root loc names e := by
  constructor
  · intro h names e hFault
    cases hFault with
    | unlisted hne hDirectory hVisible hLong =>
        exact Bool.false_ne_true ((h.listed names hne hDirectory hVisible).symm.trans hLong)
    | unread hWanted hLong =>
        exact Bool.false_ne_true ((h.read names _ hWanted).1.symm.trans hLong)
    | undecoded hWanted _ hText =>
        obtain ⟨text, hContent⟩ := (h.read names _ hWanted).2
        exact hText text hContent
  · intro h
    refine ⟨fun names hne hDirectory hVisible => ?_, fun names content hWanted => ?_⟩
    · exact Bool.eq_false_iff.2 fun hLong => h names _ (.unlisted hne hDirectory hVisible hLong)
    · have hShort : isTooLong (root.join (ofNames names)) = false :=
        Bool.eq_false_iff.2 fun hLong => h names _ (.unread hWanted hLong)
      refine ⟨hShort, by_contra fun hNot => h names _ (.undecoded hWanted hShort ?_)⟩
      exact fun text hContent => hNot ⟨text, hContent⟩

theorem listDirectory_eq_error_iff {names : Location} {e : SelectionError} :
    listDirectory root names = .error e ↔ isTooLong (root.join (ofNames names)) = true ∧
      e = .unlisted root (root.join (ofNames names)) .nameTooLong := by
  rw [listDirectory]
  cases isTooLong (root.join (ofNames names)) <;> simp [eq_comm]

theorem readSource_eq_error_iff {names : Location} {content : Bytes} {e : SelectionError} :
    readSource root names content = .error e ↔
      isTooLong (root.join (ofNames names)) = true ∧
          e = .unreadable (root.join (ofNames names)) .nameTooLong ∨
        isTooLong (root.join (ofNames names)) = false ∧ (∀ text, content ≠ Utf8.encode text) ∧
          e = .unreadable (root.join (ofNames names)) .invalidText := by
  rw [readSource]
  cases isTooLong (root.join (ofNames names)) with
  | true => simp [eq_comm]
  | false =>
      cases hText : Utf8.decode? content with
      | some text =>
          have hNot : ¬ ∀ text, content ≠ Utf8.encode text := fun h =>
            h text (Utf8.decode?_eq_some_iff.1 hText)
          simp only [hNot, false_and, and_false, or_false]
          simp
      | none =>
          have hNot : ∀ text, content ≠ Utf8.encode text := fun text hContent => by
            rw [Utf8.decode?_eq_some_iff.2 hContent] at hText
            cases hText
          simp [hNot, eq_comm]

theorem Fault.exists_mem_below {names : Location} {e : SelectionError}
    (h : Fault t extensions root loc names e) : ∃ entry, (names, entry) ∈ t.below loc := by
  have hMem {entry : Entry} (hne : names ≠ []) (hFind : t.find? (loc ++ names) = some entry) :
      (names, entry) ∈ t.below loc :=
    mem_below.2 ⟨hne, (find?_eq_some_iff (by simp [hne])).1 hFind⟩
  cases h with
  | unlisted hne hDirectory => exact ⟨_, hMem hne hDirectory⟩
  | unread hWanted => exact ⟨_, hMem hWanted.ne_nil hWanted.regular⟩
  | undecoded hWanted => exact ⟨_, hMem hWanted.ne_nil hWanted.regular⟩

/-- A visit fails at a fault, with its error. -/
theorem visit_eq_error_iff {e : Location × Entry} (hMem : e ∈ t.below loc)
    {error : SelectionError} :
    visit extensions root e = .error error ↔ Fault t extensions root loc e.1 error := by
  obtain ⟨names, entry⟩ := e
  obtain ⟨hne, hEntry⟩ := mem_below.1 hMem
  have hFind : t.find? (loc ++ names) = some entry := (find?_eq_some_iff (by simp [hne])).2 hEntry
  cases entry with
  | directory =>
      have hVisit : visit extensions root (names, .directory) = .error error ↔
          isVisible names = true ∧ listDirectory root names = .error error := by
        simp only [visit]
        split <;> simp_all [map_eq_error_iff]
      rw [hVisit, listDirectory_eq_error_iff, isVisible_iff]
      constructor
      · rintro ⟨hVisible, hLong, rfl⟩
        exact .unlisted hne hFind hVisible hLong
      · intro hFault
        cases hFault with
        | unlisted _ _ hVisible hLong => exact ⟨hVisible, hLong, rfl⟩
        | unread hWanted => cases hFind.symm.trans hWanted.regular
        | undecoded hWanted => cases hFind.symm.trans hWanted.regular
  | link target =>
      constructor
      · intro h
        cases h
      · intro hFault
        cases hFault with
        | unlisted _ hDirectory => cases hFind.symm.trans hDirectory
        | unread hWanted => cases hFind.symm.trans hWanted.regular
        | undecoded hWanted => cases hFind.symm.trans hWanted.regular
  | file content =>
      have hVisit : visit extensions root (names, .file content) = .error error ↔
          isSource extensions names = true ∧ readSource root names content = .error error := by
        simp only [visit]
        split <;> simp_all [map_eq_error_iff]
      have hWanted : isSource extensions names = true ↔ Wanted t extensions loc names content :=
        isSource_iff.trans ⟨fun h => ⟨hFind, h.1, h.2⟩, fun h => ⟨h.visible, h.extended⟩⟩
      rw [hVisit, hWanted, readSource_eq_error_iff]
      constructor
      · rintro ⟨hWanted, ⟨hLong, rfl⟩ | ⟨hShort, hText, rfl⟩⟩
        · exact .unread hWanted hLong
        · exact .undecoded hWanted hShort hText
      · intro hFault
        cases hFault with
        | unlisted _ hDirectory => cases hFind.symm.trans hDirectory
        | unread hWanted hLong =>
            obtain rfl := Entry.file.inj (Option.some.inj (hFind.symm.trans hWanted.regular))
            exact ⟨hWanted, Or.inl ⟨hLong, rfl⟩⟩
        | undecoded hWanted hShort hText =>
            obtain rfl := Entry.file.inj (Option.some.inj (hFind.symm.trans hWanted.regular))
            exact ⟨hWanted, Or.inr ⟨hShort, hText, rfl⟩⟩

theorem exists_visitAll_iff_readable :
    (∃ files, visitAll (visit extensions root) (t.below loc) = .ok files) ↔
      Readable t extensions root loc := by
  rw [exists_visitAll_iff, readable_iff_not_fault]
  constructor
  · intro h names e hFault
    obtain ⟨entry, hMem⟩ := hFault.exists_mem_below
    obtain ⟨result, hResult⟩ := h _ hMem
    cases hResult.symm.trans ((visit_eq_error_iff hMem).2 hFault)
  · intro h e hMem
    cases hVisit : visit extensions root e with
    | ok result => exact ⟨result, rfl⟩
    | error error => exact absurd ((visit_eq_error_iff hMem).1 hVisit) (h _ _)

theorem visitAll_eq_error_iff_fault {error : SelectionError} :
    visitAll (visit extensions root) (t.below loc) = .error error ↔
      ∃ names, Fault t extensions root loc names error ∧
        ∀ names' error', Fault t extensions root loc names' error' →
          names.map (·.bytes) ≤ names'.map (·.bytes) := by
  rw [visitAll_eq_error_iff]
  have hOrder := pairwise_below t loc
  constructor
  · rintro ⟨before, e, after, hSplit, hBefore, hError⟩
    have hMem : e ∈ t.below loc := by simp [hSplit]
    refine ⟨e.1, (visit_eq_error_iff hMem).1 hError, fun names' error' hFault => ?_⟩
    obtain ⟨entry, hMem'⟩ := hFault.exists_mem_below
    have hError' := (visit_eq_error_iff hMem').2 hFault
    rw [hSplit, List.mem_append, List.mem_cons] at hMem'
    rcases hMem' with hMem' | rfl | hMem'
    · obtain ⟨result, hResult⟩ := hBefore _ hMem'
      cases hResult.symm.trans hError'
    · exact List.le_refl _
    · rw [hSplit, List.pairwise_append, List.pairwise_cons] at hOrder
      exact List.le_of_lt (bytes_lt_of_listBefore (hOrder.2.1.1 _ hMem'))
  · rintro ⟨names, hFault, hFirst⟩
    obtain ⟨entry, hMem⟩ := hFault.exists_mem_below
    obtain ⟨before, after, hSplit⟩ := List.append_of_mem hMem
    refine ⟨before, (names, entry), after, hSplit, fun e he => ?_,
      (visit_eq_error_iff hMem).2 hFault⟩
    have hMem' : e ∈ t.below loc := by simp [hSplit, he]
    cases hVisit : visit extensions root e with
    | ok result => exact ⟨result, rfl⟩
    | error error' =>
        have hNotBefore := hFirst _ _ ((visit_eq_error_iff hMem').1 hVisit)
        rw [hSplit, List.pairwise_append] at hOrder
        have hBefore := bytes_lt_of_listBefore (hOrder.2.2 e he _ List.mem_cons_self)
        exact absurd hBefore (List.not_lt.2 hNotBefore)

end

/-! ## Roots in order -/

/-- Why a root contributes nothing: it is no directory, or there is a fault below it. Of several
faults the one counts whose names have the smallest bytes. -/
def StopsAt (t : FileTree) (cwd : Location) (extensions : List String) (root : Path)
    (e : SelectionError) : Prop :=
  t.directory? cwd root = none ∧ e = .rootMissing root ∨
    ∃ loc names, t.directory? cwd root = some loc ∧ Fault t extensions root loc names e ∧
      ∀ names' e', Fault t extensions root loc names' e' →
        names.map (·.bytes) ≤ names'.map (·.bytes)

/-- The sources that were found for roots, each with its root. -/
def owned (roots : List SourceRoot) (found : List (List SourceFile)) :
    List (SourceRoot × SourceFile) :=
  (roots.zip found).flatMap fun p => p.2.map (Prod.mk p.1)

/-- Sources with their roots, split by whether the root skips the source. -/
def ofOwned (os : List (SourceRoot × SourceFile)) : Selection :=
  ⟨(os.filter fun o => !o.1.skips o.2.relative).map (·.2),
    (os.filter fun o => o.1.skips o.2.relative).map (·.2)⟩

theorem ofOwned_append (root : SourceRoot) (files : List SourceFile)
    (os : List (SourceRoot × SourceFile)) :
    ofOwned (files.map (Prod.mk root) ++ os) = (split root files).append (ofOwned os) := by
  simp [ofOwned, split, append, List.filter_map, Function.comp_def]

theorem total_ofOwned (os : List (SourceRoot × SourceFile)) : (ofOwned os).total = os.length := by
  simp only [ofOwned, total, List.length_map]
  induction os with
  | nil => rfl
  | cons o os ih => cases hSkips : o.1.skips o.2.relative <;> simp [hSkips] <;> omega

theorem owned_snd {roots : List SourceRoot} {found : List (List SourceFile)}
    (h : roots.length = found.length) : (owned roots found).map (·.2) = found.flatten := by
  induction roots generalizing found with
  | nil =>
      obtain rfl := List.eq_nil_of_length_eq_zero h.symm
      rfl
  | cons root roots ih =>
      obtain ⟨files, found, rfl⟩ := List.exists_cons_of_length_eq_add_one h.symm
      have hRest := ih (Nat.succ.inj h)
      rw [owned] at hRest ⊢
      simp [hRest, Function.comp_def]

section

variable {t : FileTree} {cwd : Location} {extensions : List String}

theorem exists_discover_iff {root : Path} :
    (∃ files, discover t cwd extensions root = .ok files) ↔
      ∃ loc, t.directory? cwd root = some loc ∧ Readable t extensions root loc := by
  rw [discover]
  cases t.directory? cwd root with
  | none => simp
  | some loc => simp [exists_visitAll_iff_readable]

theorem discover_eq_error_iff {root : Path} {e : SelectionError} :
    discover t cwd extensions root = .error e ↔ StopsAt t cwd extensions root e := by
  rw [discover, StopsAt]
  cases t.directory? cwd root with
  | none => simp [eq_comm]
  | some loc => simp [visitAll_eq_error_iff_fault]

theorem ofRoots_eq_mapM (roots : List SourceRoot) : ofRoots t cwd extensions roots =
    (roots.mapM fun root => discover t cwd extensions root.path).map
      fun found => ofOwned (owned roots found) := by
  induction roots with
  | nil => rfl
  | cons root roots ih =>
      rw [ofRoots, ih, List.mapM_cons]
      cases discover t cwd extensions root.path with
      | error e => rfl
      | ok files =>
          cases roots.mapM fun root => discover t cwd extensions root.path with
          | error e => rfl
          | ok found => exact congrArg Except.ok (ofOwned_append root files _).symm

end

/-- **A selection holds the sources of all roots in order, split by what their roots skip, or there
is none.** It comes about exactly if each root is a directory, each directory and wanted file that
counts below it has a path that is not too long, and each wanted file, skipped or not, is encoded
text. Otherwise the first root that contributes nothing is the failure, and below it the first
fault. -/
theorem ofRoots_outcome (t : FileTree) (cwd : Location) (extensions : List String)
    (roots : List SourceRoot) :
    ((∃ sel, ofRoots t cwd extensions roots = .ok sel) ↔ ∀ root ∈ roots,
      ∃ loc, t.directory? cwd root.path = some loc ∧ Readable t extensions root.path loc) ∧
    (∀ sel, ofRoots t cwd extensions roots = .ok sel ↔ ∃ found,
      List.Forall₂ (fun root files => discover t cwd extensions root.path = .ok files) roots found ∧
        sel.instrument = ((owned roots found).filter fun o => !o.1.skips o.2.relative).map (·.2) ∧
        sel.passThrough = ((owned roots found).filter fun o => o.1.skips o.2.relative).map (·.2) ∧
        (owned roots found).map (·.2) = found.flatten ∧ sel.total = found.flatten.length) ∧
    ∀ e, ofRoots t cwd extensions roots = .error e ↔ ∃ before root after,
      roots = before ++ root :: after ∧
        (∀ root' ∈ before, ∃ loc, t.directory? cwd root'.path = some loc ∧
          Readable t extensions root'.path loc) ∧
        StopsAt t cwd extensions root.path e := by
  refine ⟨?_, fun sel => ?_, fun e => ?_⟩
  · simp only [ofRoots_eq_mapM, ← exists_discover_iff, ← exists_mapM_iff, map_eq_ok_iff]
    constructor
    · rintro ⟨_, found, hFound, -⟩
      exact ⟨found, hFound⟩
    · rintro ⟨found, hFound⟩
      exact ⟨_, found, hFound, rfl⟩
  · rw [ofRoots_eq_mapM, map_eq_ok_iff]
    refine exists_congr fun found => ?_
    rw [mapM_eq_ok_iff]
    refine and_congr_right fun hFound => ?_
    have hFiles := owned_snd hFound.length_eq
    have hTotal : (ofOwned (owned roots found)).total = found.flatten.length := by
      rw [total_ofOwned, ← hFiles, List.length_map]
    constructor
    · rintro rfl
      exact ⟨rfl, rfl, hFiles, hTotal⟩
    · rintro ⟨hInstrument, hPassThrough, -, -⟩
      cases sel
      exact congrArg₂ Selection.mk hInstrument.symm hPassThrough.symm
  · simp only [ofRoots_eq_mapM, map_eq_error_iff, mapM_eq_error_iff, exists_discover_iff,
      discover_eq_error_iff]

/-- The root is a directory and holds no file, but the path of a directory in it is too long. -/
theorem exists_directory_unlisted :
    let t : FileTree := ⟨OrderedMap.ofList [(["c"], .directory), (["c", "d"], .directory)]⟩
    let root : Path := slashed 4093
    t.WellFormed ∧ t.directory? [] root = some (["c"] : Location) ∧
      (∀ names content, ¬ Wanted t ["sol"] ["c"] names content) ∧
      ofRoots t [] ["sol"] [⟨root, []⟩] =
        .error (.unlisted root (root.join "d") .nameTooLong) := by
  intro t
  have hTree : t.WellFormed := ⟨by unfold Rooted; decide +kernel, by decide +kernel⟩
  have hBelow : t.below ["c"] = ([(["d"], .directory)] : List (Location × Entry)) := by
    decide +kernel
  -- the number is kept out of sight, so that nothing is computed with the path
  have hAll (k : Nat) (hShort : k + 2 < pathLimit) (hLong : pathLimit ≤ k + 3) :
      t.directory? [] (slashed k) = some (["c"] : Location) ∧
        (∀ names content, ¬ Wanted t ["sol"] ["c"] names content) ∧
        ofRoots t [] ["sol"] [⟨slashed k, []⟩] =
          .error (.unlisted (slashed k) ((slashed k).join "d") .nameTooLong) := by
    have hRoot : t.directory? [] (slashed k) = some (["c"] : Location) :=
      directory?_slashed (noLinks_of_entries (by decide +kernel)) (by decide +kernel) hShort
    have hName : ofNames ["d"] = "d" := by decide
    have hTooLong : isTooLong ((slashed k).join "d") = true := by
      have hLength : ((slashed k).join "d").bytes.length = k + 3 :=
        length_slashed_join k (show IsName "d" by decide)
      rw [isTooLong, decide_eq_true_iff, hLength]
      exact hLong
    refine ⟨hRoot, fun names content hWanted => ?_, ?_⟩
    · have hMem : (names, .file content) ∈ t.below ["c"] :=
        mem_below.2 ⟨hWanted.ne_nil, (find?_eq_some_iff (by simp)).1 hWanted.regular⟩
      simp [hBelow] at hMem
    · have hVisible : isVisible ["d"] = true := by decide
      have hVisit : visit ["sol"] (slashed k) (["d"], .directory) =
          .error (.unlisted (slashed k) ((slashed k).join "d") .nameTooLong) := by
        rw [visit]
        simp only [hVisible, if_true, listDirectory, hName, hTooLong, Except.map]
      rw [ofRoots, discover, hRoot]
      simp only [hBelow, visitAll, hVisit]
      rfl
  exact ⟨hTree, hAll 4093 (by decide) (by decide)⟩

end CoverRun.Selection

import CoverRun.Proofs.FileTree.Location
import CoverRun.Proofs.FileTree.Plain
import CoverRun.Proofs.FileTree.Written
import CoverRun.Proofs.Path.Text
import CoverRun.Proofs.Selection

/-!
# What a root contributes

Discovery takes the wanted files below a root, each once, and nothing else
(`Selection.discover_finds_wanted`). A tree lists what is below a directory in the order of the
bytes of names, compared one by one. Dropping the names of the directory and leaving entries out
keep this order. So the files come in the order of the bytes of their components, in which a
directory `a` with all its content stands before a file `a.sol`.
-/

namespace CoverRun

open Outcome CoverRun.Path FileTree

/-! ## Paths that are walked -/

namespace Path

/-- The path that is reached from a path by going on name by name. -/
def walked (p : Path) (names : List FileName) : Path := names.foldl (fun q n => q.join ⟨n.bytes⟩) p

theorem walked_concat (p : Path) (names : List FileName) (n : FileName) :
    p.walked (names ++ [n]) = (p.walked names).join ⟨n.bytes⟩ := by
  rw [walked, List.foldl_append]
  rfl

/-- Names that are read from within a path at once lead where they lead one by one. -/
theorem join_ofNames_eq_walked (p : Path) {names : List FileName} (h : ∀ n ∈ names, IsName n)
    (hne : names ≠ []) : p.join (ofNames names) = p.walked names := by
  induction names using List.reverseRecOn with
  | nil => exact absurd rfl hne
  | append_singleton names n ih =>
      by_cases hEmpty : names = []
      · subst hEmpty
        show p.join (ofNames [n]) = p.join ⟨n.bytes⟩
        simp [ofNames]
      · rw [join_ofNames_concat h hEmpty, walked_concat,
          ih (fun m hm => h m (List.mem_append_left [n] hm)) hEmpty]

theorem namesOf_walked {p : Path} (hp : p.bytes ≠ []) {names : List FileName}
    (h : ∀ n ∈ names, IsName n) :
    (p.walked names).bytes ≠ [] ∧ namesOf (p.walked names) = namesOf p ++ names ∧
      (p.walked names).isAbsolute = p.isAbsolute := by
  induction names using List.reverseRecOn with
  | nil => exact ⟨hp, (List.append_nil _).symm, rfl⟩
  | append_singleton names n ih =>
      obtain ⟨hBytes, hNames, hStart⟩ := ih fun m hm => h m (List.mem_append_left [n] hm)
      have hName : IsName n := h n (List.mem_append_right names List.mem_cons_self)
      rw [walked_concat]
      refine ⟨bytes_join_ne hBytes hName.isAbsolute, ?_, ?_⟩
      · rw [namesOf_join hBytes hName, hNames, List.append_assoc]
      · rw [isAbsolute_join hBytes hName.isAbsolute, hStart]

end Path

namespace FileTree

/-- **A file below a directory is read under the path that is walked to it**, whatever links lie on
the way to the directory. -/
theorem read_walked {t : FileTree} (hTree : t.WellFormed) {cwd loc names : Location} {root : Path}
    {content : Bytes} (hDirectory : t.directory? cwd root = some loc) (hne : names ≠ [])
    (hFile : t.find? (loc ++ names) = some (.file content))
    (hShort : ∀ n ∈ names, n.bytes.length ≤ nameLimit)
    (hPassable : IsPassable (root.walked names)) :
    t.read cwd (root.walked names) = .ok content := by
  have hMem : (loc ++ names, .file content) ∈ t.entries.entries :=
    (find?_eq_some_iff (by simp [hne])).1 hFile
  have hNames : ∀ n ∈ names, IsName n := fun n hn =>
    hTree.named _ hMem n (List.mem_append_right loc hn)
  have hLookup : ∀ n ∈ names, IsShort n := fun n hn =>
    ⟨(hNames n hn).not_current, (hNames n hn).not_parent, hShort n hn⟩
  obtain ⟨hBytes, hWalk⟩ := walk_of_resolve (directory?_eq_some_iff.1 hDirectory)
  obtain ⟨-, hSplit, hStart⟩ := namesOf_walked hBytes hNames
  obtain ⟨links, hOn⟩ := walk_append hWalk
  obtain ⟨front, name, rfl⟩ := (List.eq_nil_or_concat' names).resolve_left hne
  have hOpen : isSlashed (root.walked (front ++ [name])) = false := by
    rw [walked_concat]
    exact isSlashed_join _ (hNames name (by simp))
  have hParent : t.find? (loc ++ front) = some .directory := by
    rw [← List.append_assoc] at hFile
    exact hTree.rooted.find?_of_append (List.cons_ne_nil name []) hFile
  have hDown : walk t .followed false links loc (front ++ [name]) =
      walk t .followed false links (loc ++ front) [name] :=
    walk_down hTree.rooted (fun n hn => hLookup n (List.mem_append_left [name] hn))
      (Or.inl (by simp)) hParent
  have hLast : walk t .followed false links (loc ++ front) [name] =
      .ok (.present (loc ++ front ++ [name]) (.file content)) :=
    walk_file (hLookup name (by simp)) (by rwa [List.append_assoc]) links
  rw [read, resolve_of_isPassable hPassable, hOpen, origin, hStart, hSplit, hOn _ false _ (by simp),
    hDown, hLast]

end FileTree

namespace Selection

/-! ## Wanted files -/

/-- A file name has an extension: it ends with a dot and the extension, in which there is no dot,
and something comes before. -/
def HasExtension (name : FileName) (ext : String) : Prop :=
  '.' ∉ ext.toList ∧ ∃ stem, stem ≠ [] ∧ name.bytes = stem ++ dot :: Utf8.encode ext

/-- No name begins with a dot. -/
def Undotted (names : Location) : Prop := ∀ n ∈ names, n.bytes.head? ≠ some dot

/-- Names lead from a directory to a regular file that a root contributes: no name that is UTF-8
begins with a dot, and the last one has a wanted extension. -/
structure Wanted (t : FileTree) (extensions : List String) (loc names : Location)
    (content : Bytes) : Prop where
  regular : t.find? (loc ++ names) = some (.file content)
  visible : ∀ n ∈ names, n.isText = true → n.bytes.head? ≠ some dot
  extended : ∃ name, names.getLast? = some name ∧ ∃ ext ∈ extensions, HasExtension name ext

theorem isHidden_eq_false_iff {name : FileName} :
    isHidden name = false ↔ (name.isText = true → name.bytes.head? ≠ some dot) := by
  cases hText : name.isText <;> simp [isHidden, hText]

theorem isVisible_iff {names : Location} :
    isVisible names = true ↔ ∀ n ∈ names, n.isText = true → n.bytes.head? ≠ some dot := by
  simp [isVisible, isHidden_eq_false_iff]

theorem isEligible_iff {extensions : List String} {name : FileName} :
    isEligible extensions name = true ↔ ∃ ext ∈ extensions, HasExtension name ext := by
  rw [isEligible]
  constructor
  · intro h
    rcases cutName_cases name.bytes with ⟨stem, ext, hCut, hName, hStem, hExt⟩ | hCut
    · rw [hCut] at h
      split at h
      · next text hText =>
        obtain rfl : ext = Utf8.encode text := Utf8.decode?_eq_some_iff.1 hText
        exact ⟨text, by simpa using h, fun hMem => hExt (Utf8.dot_mem_encode_iff.2 hMem), stem,
          hStem, hName⟩
      · cases h
    · rw [hCut] at h
      cases h
  · rintro ⟨ext, hMem, hDotless, stem, hStem, hName⟩
    rw [hName, cutName_append hStem fun h => hDotless (Utf8.dot_mem_encode_iff.1 h),
      Option.bind_some, Utf8.decode?_encode]
    simpa using hMem

theorem isSource_iff {extensions : List String} {names : Location} :
    isSource extensions names = true ↔
      (∀ n ∈ names, n.isText = true → n.bytes.head? ≠ some dot) ∧
        ∃ name, names.getLast? = some name ∧ ∃ ext ∈ extensions, HasExtension name ext := by
  rw [isSource, Bool.and_eq_true, isVisible_iff]
  refine and_congr_right fun _ => ?_
  cases names.getLast? with
  | none => simp
  | some name => simp [isEligible_iff]

theorem Wanted.ne_nil {t : FileTree} {extensions : List String} {loc names : Location}
    {content : Bytes} (h : Wanted t extensions loc names content) : names ≠ [] := by
  rintro rfl
  obtain ⟨name, hLast, -⟩ := h.extended
  cases hLast

/-- **The sources below a directory are the wanted files.** -/
theorem mem_sourcesBelow_iff {t : FileTree} {extensions : List String} {loc names : Location}
    {content : Bytes} :
    (names, content) ∈ sourcesBelow t extensions loc ↔ Wanted t extensions loc names content := by
  rw [mem_sourcesBelow, isSource_iff]
  constructor
  · rintro ⟨hMem, hVisible, name, hLast, hExtended⟩
    have hne : loc ++ names ≠ [] := by
      intro hEmpty
      rw [(List.append_eq_nil_iff.1 hEmpty).2] at hLast
      cases hLast
    exact ⟨(find?_eq_some_iff hne).2 hMem, hVisible, name, hLast, hExtended⟩
  · intro h
    exact ⟨(find?_eq_some_iff (by simp [h.ne_nil])).1 h.regular, h.visible, h.extended⟩

/-! ## Their order -/

/-- The bytes of the components of a path, by which paths are compared. -/
def componentBytes (p : Path) : List Bytes := p.components.map Component.bytes

theorem listBefore_append_left (loc names names' : Location) :
    KeyOrder.listBefore (loc ++ names) (loc ++ names') = KeyOrder.listBefore names names' := by
  induction loc with
  | nil => rfl
  | cons n loc ih => rw [List.cons_append, List.cons_append, KeyOrder.listBefore, if_pos rfl, ih]

theorem pairwise_below (t : FileTree) (loc : Location) :
    (t.below loc).Pairwise fun e e' => KeyOrder.listBefore e.1 e'.1 = true := by
  rw [below, List.pairwise_map]
  -- all that is kept begins with `loc`, and the order of the rest is that of the whole
  refine (t.entries.ascending.filter _).imp_of_mem fun {a b} ha hb hBefore => ?_
  simp only [List.mem_filter, Bool.and_eq_true, List.isPrefixOf_iff_prefix] at ha hb
  obtain ⟨names, hNames⟩ := ha.2.1
  obtain ⟨names', hNames'⟩ := hb.2.1
  have hListed : KeyOrder.listBefore a.1 b.1 = true := hBefore
  rw [← hNames, ← hNames', listBefore_append_left] at hListed
  rwa [← hNames, ← hNames', List.drop_left, List.drop_left]

theorem pairwise_sourcesBelow (t : FileTree) (extensions : List String) (loc : Location) :
    (sourcesBelow t extensions loc).Pairwise fun e e' => KeyOrder.listBefore e.1 e'.1 = true :=
  @pairwise_sourcesBelow_of_below (fun names names' => KeyOrder.listBefore names names' = true) t
    loc (pairwise_below t loc) extensions

theorem lt_of_listBefore {κ α : Type} [KeyOrder κ] [DecidableEq κ] [LT α] [DecidableEq α]
    {f : κ → α} (hBefore : ∀ a b, KeyOrder.before a b = true → f a < f b) {as bs : List κ}
    (h : KeyOrder.listBefore as bs = true) : as.map f < bs.map f := by
  induction as generalizing bs with
  | nil =>
      cases bs with
      | nil => cases h
      | cons b bs => exact List.nil_lt_cons _ _
  | cons a as ih =>
      cases bs with
      | nil => cases h
      | cons b bs =>
          rw [List.map_cons, List.map_cons, List.cons_lt_cons_iff]
          rw [KeyOrder.listBefore] at h
          split at h
          · next hSame => exact Or.inr ⟨congrArg f hSame, ih h⟩
          · exact Or.inl (hBefore a b h)

/-- Names that come before others have smaller bytes. -/
theorem bytes_lt_of_listBefore {names names' : Location}
    (h : KeyOrder.listBefore names names' = true) :
    names.map (·.bytes) < names'.map (·.bytes) := by
  refine lt_of_listBefore (fun a b hName => ?_) h
  have hBytes : a.bytes.map id < b.bytes.map id :=
    lt_of_listBefore (fun _ _ hByte => of_decide_eq_true hByte) hName
  rwa [List.map_id, List.map_id] at hBytes

/-! ## Discovery -/

theorem map_relative {root : Path} {es : List (Location × Bytes)} {files : List SourceFile}
    (h : es.mapM (fun e => readSource root e.1 e.2) = .ok files) :
    files.map (·.relative) = es.map fun e => ofNames e.1 := by
  have hRead := mapM_eq_ok_iff.1 h
  clear h
  induction hRead with
  | nil => rfl
  | cons hHere _ ih =>
      obtain ⟨-, -, hRelative, -⟩ := readSource_eq_ok_iff.1 hHere
      rw [List.map_cons, List.map_cons, hRelative, ih]

section

variable {root : Path} {es : List (Location × Bytes)} {files : List SourceFile}

theorem map_components (hNames : ∀ e ∈ es, ∀ n ∈ e.1, IsName n)
    (h : es.mapM (fun e => readSource root e.1 e.2) = .ok files) :
    files.map (·.relative.components) = es.map fun e => e.1.map .name := by
  have hAll := congrArg (List.map components) (map_relative h)
  rw [List.map_map, List.map_map] at hAll
  exact hAll.trans (List.map_congr_left fun e he => components_ofNames (hNames e he))

theorem map_componentBytes (hNames : ∀ e ∈ es, ∀ n ∈ e.1, IsName n)
    (h : es.mapM (fun e => readSource root e.1 e.2) = .ok files) :
    files.map (fun f => componentBytes f.relative) = es.map fun e => e.1.map (·.bytes) := by
  have hAll := congrArg (List.map (List.map Component.bytes)) (map_components hNames h)
  rw [List.map_map, List.map_map] at hAll
  refine hAll.trans (List.map_congr_left fun e _ => ?_)
  exact List.map_map

end

/-- **Discovery finds the wanted files of a root, each once and in order.** The names of the root
itself do not matter. These are all files with a wanted extension without a name that begins with a
dot, and no others, exactly if none of them lies at or below a name that begins with a dot and is
not UTF-8. What is found lies under the path that is walked to it, with its own text, and can be
read there if the path and its names are not too long. -/
theorem discover_finds_wanted {t : FileTree} (hTree : t.WellFormed) {cwd : Location}
    {extensions : List String} {root : Path} {files : List SourceFile}
    (h : discover t cwd extensions root = .ok files) :
    ∃ loc, t.directory? cwd root = some loc ∧
      (∀ names, (∃ content, Wanted t extensions loc names content) ↔
        ∃ f ∈ files, f.relative.components = names.map .name) ∧
      ((∀ names, (∃ content, Wanted t extensions loc names content ∧ Undotted names) ↔
          ∃ f ∈ files, f.relative.components = names.map .name) ↔
        ∀ names content, Wanted t extensions loc names content → Undotted names) ∧
      (files.map (·.relative.components)).Nodup ∧
      (∀ f ∈ files, f.root = root ∧ ∃ names content, f.relative = ofNames names ∧
        Wanted t extensions loc names content ∧ Utf8.decode? content = some f.source ∧
        root.join f.relative = root.walked names ∧
        ((∀ n ∈ names, n.bytes.length ≤ nameLimit) → IsPassable (root.walked names) →
          t.readText cwd (root.walked names) = .ok f.source)) ∧
      files.Pairwise fun f g => componentBytes f.relative < componentBytes g.relative := by
  obtain ⟨loc, hDirectory, -, hRead⟩ := discover_eq_ok_iff.1 h
  have hNames : ∀ e ∈ sourcesBelow t extensions loc, ∀ n ∈ e.1, IsName n := fun e he n hn =>
    hTree.named _ (mem_sourcesBelow.1 he).1 n (List.mem_append_right loc hn)
  have hComponents := map_components hNames hRead
  have hExact : ∀ names, (∃ content, Wanted t extensions loc names content) ↔
      ∃ f ∈ files, f.relative.components = names.map .name := by
    intro names
    have hFound : (∃ f ∈ files, f.relative.components = names.map .name) ↔
        names.map .name ∈ files.map (·.relative.components) := by simp
    rw [hFound, hComponents, List.mem_map]
    constructor
    · rintro ⟨content, hWanted⟩
      exact ⟨(names, content), mem_sourcesBelow_iff.2 hWanted, rfl⟩
    · rintro ⟨⟨names', content⟩, hMem, hSame⟩
      obtain rfl : names' = names := map_name_injective hSame
      exact ⟨content, mem_sourcesBelow_iff.1 hMem⟩
  refine ⟨loc, hDirectory, hExact, ?_, ?_, ?_, ?_⟩
  · simp only [← hExact]
    constructor
    · intro hAll names content hWanted
      obtain ⟨-, -, hUndotted⟩ := (hAll names).2 ⟨content, hWanted⟩
      exact hUndotted
    · intro hAll names
      exact ⟨fun ⟨content, hWanted, _⟩ => ⟨content, hWanted⟩,
        fun ⟨content, hWanted⟩ => ⟨content, hWanted, hAll names content hWanted⟩⟩
  · rw [hComponents, List.Nodup, List.pairwise_map]
    have hNodup := nodup_sourcesBelow t extensions loc
    rw [List.Nodup, List.pairwise_map] at hNodup
    exact hNodup.imp fun hne hSame => hne (map_name_injective hSame)
  · intro f hf
    obtain ⟨⟨names, content⟩, hMem, hFile⟩ := exists_of_mem_mapM hRead hf
    obtain ⟨-, hRoot, hRelative, hText⟩ := readSource_eq_ok_iff.1 hFile
    have hWanted : Wanted t extensions loc names content := mem_sourcesBelow_iff.1 hMem
    refine ⟨hRoot, names, content, hRelative, hWanted, hText, ?_, ?_⟩
    · rw [hRelative]
      exact join_ofNames_eq_walked root (hNames _ hMem) hWanted.ne_nil
    · intro hShort hPassable
      rw [readText, read_walked hTree hDirectory hWanted.ne_nil hWanted.regular hShort hPassable]
      simp only [hText]
  · rw [← List.pairwise_map, map_componentBytes hNames hRead, List.pairwise_map]
    exact (pairwise_sourcesBelow t extensions loc).imp bytes_lt_of_listBefore

/-- A root under a hidden name with a directory beside a file of the same stem, a directory with a
wanted extension, a link, hidden names at the end and on the way, and a name that begins with a dot
and is not UTF-8. -/
theorem discover_finds_wanted_hidden :
    let odd : FileName := ⟨[dot, 0xFF, dot, 0x73, 0x6F, 0x6C]⟩
    let t : FileTree := ⟨OrderedMap.ofList [([".r"], .directory), ([".r", "a"], .directory),
      ([".r", "a", "é.sol"], .file []), ([".r", "a", "b.sol"], .file [0x62]),
      ([".r", "a", ".c.sol"], .file []), ([".r", "a.sol"], .file []),
      ([".r", "a-b.sol"], .link "a.sol"), ([".r", ".d"], .directory),
      ([".r", ".d", "e.sol"], .file []), ([".r", "f.sol"], .directory), ([".r", odd], .file []),
      ([".r", "f.sol", "sol"], .file []), ([".r", "f.sol", "g.t.sol"], .file [])]⟩
    let files : List SourceFile := [⟨"/.r", ⟨odd.bytes⟩, ""⟩, ⟨"/.r", "a/b.sol", "b"⟩,
      ⟨"/.r", "a/é.sol", ""⟩, ⟨"/.r", "a.sol", ""⟩, ⟨"/.r", "f.sol/g.t.sol", ""⟩]
    t.WellFormed ∧ discover t [] ["sol"] "/.r" = .ok files ∧
      (∀ names content, Wanted t ["sol"] [".r"] names content →
        names ∈ ([[odd], ["a", "b.sol"], ["a", "é.sol"], ["a.sol"],
          ["f.sol", "g.t.sol"]] : List Location)) ∧
      ¬ (∀ names content, Wanted t ["sol"] [".r"] names content → Undotted names) ∧
      files.Pairwise fun f g => componentBytes f.relative < componentBytes g.relative := by
  intro odd t files
  have hTree : t.WellFormed := ⟨by unfold Rooted; decide +kernel, by decide +kernel⟩
  have hRoot : t.directory? [] "/.r" = some ([".r"] : Location) :=
    @directory?_path t hTree.rooted [] [".r"] (by decide +kernel) (by decide +kernel)
  have hFiles : discover t [] ["sol"] "/.r" = .ok files := by
    rw [discover, hRoot]
    decide +kernel
  obtain ⟨loc, hDirectory, hExact, -, -, -, hOrder⟩ := discover_finds_wanted hTree hFiles
  obtain rfl : ([".r"] : Location) = loc := Option.some.inj (hRoot.symm.trans hDirectory)
  refine ⟨hTree, hFiles, ?_, ?_, hOrder⟩
  · intro names content hWanted
    obtain ⟨f, hf, hNames⟩ := (hExact names).1 ⟨content, hWanted⟩
    have hFound : names.map Component.name ∈ files.map (·.relative.components) := by
      rw [← hNames]
      exact List.mem_map_of_mem hf
    have hComponents : files.map (·.relative.components) =
        ([[odd], ["a", "b.sol"], ["a", "é.sol"], ["a.sol"], ["f.sol", "g.t.sol"]] :
          List Location).map (List.map .name) := by
      decide +kernel
    rw [hComponents] at hFound
    exact (List.mem_map_of_injective map_name_injective).1 hFound
  · intro hAll
    obtain ⟨content, hWanted⟩ := (hExact [odd]).2 ⟨_, List.mem_cons_self, by decide +kernel⟩
    exact hAll _ _ hWanted odd List.mem_cons_self rfl

end Selection

end CoverRun

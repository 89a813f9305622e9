import CoverRun.Instrumentation.Exchange
import CoverRun.Proofs.FileTree.Location
import CoverRun.Proofs.Selection.Target

/-!
# Every target gets its file back

A response that covers all targets gives each of them one file, in their order, exactly if no path
is asked for twice (`Exchange.take_eq_ok_iff`, `Exchange.assemble_iff_nodup`), and otherwise fails
for the first target that gets none (`Exchange.take_eq_error_iff`). Of the targets that accepted
settings select, a path comes twice only from nested roots, when the inner root does not skip it,
and two paths are asked for as one only if they are not both UTF-8
(`Exchange.assemble_iff_skips`).
-/

namespace CoverRun.Exchange

open Outcome CoverRun.Path FileTree

/-! ## Returned files by path -/

/-- The last returned file with a path. -/
def lastReturned (returned : List ReturnedFile) (path : String) : Option ReturnedFile :=
  (returned.filter (·.path = path)).getLast?

theorem lastReturned_concat (returned : List ReturnedFile) (r : ReturnedFile) (path : String) :
    lastReturned (returned ++ [r]) path =
      if path = r.path then some r else lastReturned returned path := by
  by_cases h : path = r.path
  · subst h
    simp [lastReturned]
  · simp [lastReturned, h, Ne.symm h]

theorem find?_byPath (returned : List ReturnedFile) (path : String) :
    (byPath returned).find? path = lastReturned returned path := by
  induction returned using List.reverseRecOn with
  | nil => rfl
  | append_singleton returned r ih =>
      have hLast : byPath (returned ++ [r]) = (byPath returned).insert r.path r := by
        rw [byPath, List.foldl_append]
        rfl
      rw [hLast, OrderedMap.find?_insert, ih, lastReturned_concat]

theorem lastReturned_isSome {returned : List ReturnedFile} {path : String}
    (h : ∃ r ∈ returned, r.path = path) : ∃ r, lastReturned returned path = some r := by
  obtain ⟨r, hr, hPath⟩ := h
  have hMem : r ∈ returned.filter (·.path = path) := List.mem_filter.2 ⟨hr, by simp [hPath]⟩
  exact Option.isSome_iff_exists.1 (List.getLast?_isSome.2 (List.ne_nil_of_mem hMem))

/-! ## Taking -/

/-- What a target becomes by a returned file. -/
def instrumentedBy (target : SourceFile) (r : ReturnedFile) : InstrumentedFile :=
  ⟨target, r.source, r.sites⟩

/-- A target becomes a file by what a map holds under its path. -/
def BecomesBy (find? : String → Option ReturnedFile) (target : SourceFile)
    (f : InstrumentedFile) : Prop :=
  ∃ r, find? (requestPath target) = some r ∧ f = instrumentedBy target r

theorem forall₂_becomesBy_erase {m : OrderedMap String ReturnedFile} {path : String}
    {targets : List SourceFile} {files : List InstrumentedFile}
    (h : path ∉ targets.map requestPath) :
    List.Forall₂ (BecomesBy (m.erase path).find?) targets files ↔
      List.Forall₂ (BecomesBy m.find?) targets files := by
  induction targets generalizing files with
  | nil => simp only [List.forall₂_nil_left_iff]
  | cons target targets ih =>
      rw [List.map_cons, List.mem_cons, not_or] at h
      have hHere (f : InstrumentedFile) :
          BecomesBy (m.erase path).find? target f ↔ BecomesBy m.find? target f := by
        rw [BecomesBy, BecomesBy, OrderedMap.find?_erase, if_neg (Ne.symm h.1)]
      rw [List.forall₂_cons_left_iff, List.forall₂_cons_left_iff]
      simp only [hHere, ih h.2]

/-- **Taking succeeds exactly if no path comes twice and each one is there.** Each target then
becomes what the map holds under its path. -/
theorem take_eq_ok_iff {m : OrderedMap String ReturnedFile} {targets : List SourceFile}
    {files : List InstrumentedFile} :
    take m targets = .ok files ↔
      (targets.map requestPath).Nodup ∧ List.Forall₂ (BecomesBy m.find?) targets files := by
  induction targets generalizing m files with
  | nil =>
      rw [take, List.forall₂_nil_left_iff]
      simp [eq_comm]
  | cons target targets ih =>
      rw [take, List.map_cons, List.nodup_cons, List.forall₂_cons_left_iff]
      constructor
      · intro h
        split at h
        · cases h
        · next r hFind =>
          obtain ⟨rest, hRest, hEq⟩ := bind_eq_ok_iff.1 h
          obtain ⟨hNodup, hBecome⟩ := ih.1 hRest
          have hNew : requestPath target ∉ targets.map requestPath := by
            intro hMem
            obtain ⟨again, hAgain, hPath⟩ := List.mem_map.1 hMem
            obtain ⟨i, hi, rfl⟩ := List.mem_iff_getElem.1 hAgain
            have hi' : i < rest.length := hBecome.length_eq ▸ hi
            obtain ⟨r', hFind', -⟩ := hBecome.get hi hi'
            have hGone := m.find?_erase (requestPath target) (requestPath targets[i])
            rw [if_pos hPath] at hGone
            simp [hGone] at hFind'
          refine ⟨⟨hNew, hNodup⟩, _, rest, ⟨r, hFind, rfl⟩,
            (forall₂_becomesBy_erase hNew).1 hBecome, ?_⟩
          exact (Except.ok.inj hEq).symm
      · rintro ⟨⟨hNew, hNodup⟩, _, rest, ⟨r, hFind, rfl⟩, hBecome, rfl⟩
        have hRest : take (m.erase (requestPath target)) targets = .ok rest :=
          ih.2 ⟨hNodup, (forall₂_becomesBy_erase hNew).2 hBecome⟩
        rw [hFind]
        exact bind_eq_ok_iff.2 ⟨rest, hRest, rfl⟩

/-- A target that gets no file after others: the map holds nothing under its path, or one of the
others has taken it away. -/
def Unserved (find? : String → Option ReturnedFile) (before : List SourceFile)
    (target : SourceFile) : Prop :=
  find? (requestPath target) = none ∨ requestPath target ∈ before.map requestPath

/-- The first of the targets that gets no file. -/
def FirstUnserved (find? : String → Option ReturnedFile) (targets : List SourceFile)
    (target : SourceFile) : Prop :=
  ∃ before after, targets = before ++ target :: after ∧ Unserved find? before target ∧
    ∀ earlier t later, before = earlier ++ t :: later → ¬ Unserved find? earlier t

theorem unserved_erase {m : OrderedMap String ReturnedFile} {first target : SourceFile}
    {before : List SourceFile} :
    Unserved (m.erase (requestPath first)).find? before target ↔
      Unserved m.find? (first :: before) target := by
  rw [Unserved, Unserved, OrderedMap.find?_erase, List.map_cons, List.mem_cons]
  by_cases h : requestPath target = requestPath first <;> simp [h]

/-- The first of the targets is the one that gets no file, or it is served and takes its file away
from the others. -/
theorem firstUnserved_cons {m : OrderedMap String ReturnedFile} {first target : SourceFile}
    {targets : List SourceFile} :
    FirstUnserved m.find? (first :: targets) target ↔
      (m.find? (requestPath first) = none ∧ target = first) ∨
        (m.find? (requestPath first) ≠ none ∧
          FirstUnserved (m.erase (requestPath first)).find? targets target) := by
  have hFirst : Unserved m.find? [] first ↔ m.find? (requestPath first) = none := by
    simp [Unserved]
  simp only [FirstUnserved, unserved_erase]
  constructor
  · rintro ⟨before, after, hSplit, hUnserved, hEarlier⟩
    cases before with
    | nil =>
        obtain ⟨rfl, rfl⟩ := List.cons_eq_cons.1 hSplit
        exact Or.inl ⟨hFirst.1 hUnserved, rfl⟩
    | cons first' before =>
        obtain ⟨rfl, rfl⟩ := List.cons_eq_cons.1 hSplit
        refine Or.inr ⟨fun hNone => hEarlier [] first before rfl (hFirst.2 hNone),
          before, after, rfl, hUnserved, ?_⟩
        rintro earlier t later rfl
        exact hEarlier (first :: earlier) t later rfl
  · rintro (⟨hNone, rfl⟩ | ⟨hSome, before, after, rfl, hUnserved, hEarlier⟩)
    · exact ⟨[], targets, rfl, hFirst.2 hNone, by simp⟩
    · refine ⟨first :: before, after, rfl, hUnserved, ?_⟩
      intro earlier t later hSplit
      cases earlier with
      | nil =>
          obtain ⟨rfl, rfl⟩ := List.cons_eq_cons.1 hSplit
          exact fun hHere => hSome (hFirst.1 hHere)
      | cons first' earlier =>
          obtain ⟨rfl, rfl⟩ := List.cons_eq_cons.1 hSplit
          exact hEarlier earlier t later rfl

/-- **Taking fails at the first target that gets no file.** -/
theorem take_eq_error_iff {m : OrderedMap String ReturnedFile} {targets : List SourceFile}
    {path : Path} :
    take m targets = .error path ↔
      ∃ target, FirstUnserved m.find? targets target ∧ path = target.path := by
  induction targets generalizing m with
  | nil => simp [take, FirstUnserved]
  | cons first targets ih =>
      rw [take]
      cases hFind : m.find? (requestPath first) with
      | none => simp [firstUnserved_cons, hFind, eq_comm]
      | some r =>
          rw [bind_eq_error_iff, ih]
          simp [firstUnserved_cons, hFind, pure, Except.pure]

/-! ## Assembling -/

/-- A response has a file for each target. -/
def Covers (returned : List ReturnedFile) (targets : List SourceFile) : Prop :=
  ∀ target ∈ targets, ∃ r ∈ returned, r.path = requestPath target

theorem assemble_eq_ok_iff {targets : List SourceFile} {returned : List ReturnedFile}
    {i : Instrumentation} :
    assemble targets returned = .ok i ↔ ∃ files,
      (targets.map requestPath).Nodup ∧
        List.Forall₂ (BecomesBy (lastReturned returned)) targets files ∧
          i = Instrumentation.ofFiles files := by
  have hFind : (byPath returned).find? = lastReturned returned := funext (find?_byPath returned)
  rw [assemble, bind_eq_ok_iff]
  simp only [take_eq_ok_iff, hFind, and_assoc]
  constructor
  · rintro ⟨files, hNodup, hBecome, hEq⟩
    exact ⟨files, hNodup, hBecome, (Except.ok.inj hEq).symm⟩
  · rintro ⟨files, hNodup, hBecome, rfl⟩
    exact ⟨files, hNodup, hBecome, rfl⟩

theorem map_file_of_becomesBy {find? : String → Option ReturnedFile} {targets : List SourceFile}
    {files : List InstrumentedFile} (h : List.Forall₂ (BecomesBy find?) targets files) :
    files.map (·.file) = targets := by
  induction h with
  | nil => rfl
  | cons hHere _ ih =>
      obtain ⟨r, -, rfl⟩ := hHere
      rw [List.map_cons, ih]
      rfl

theorem exists_becomesBy {find? : String → Option ReturnedFile} {targets : List SourceFile}
    (h : ∀ target ∈ targets, ∃ r, find? (requestPath target) = some r) :
    ∃ files, List.Forall₂ (BecomesBy find?) targets files := by
  induction targets with
  | nil => exact ⟨[], .nil⟩
  | cons target targets ih =>
      obtain ⟨r, hr⟩ := h target List.mem_cons_self
      obtain ⟨files, hFiles⟩ := ih fun t ht => h t (List.mem_cons_of_mem target ht)
      exact ⟨instrumentedBy target r :: files, .cons ⟨r, hr, rfl⟩ hFiles⟩

/-- **A response that covers the targets gives each one file exactly if no path comes twice.** -/
theorem assemble_iff_nodup {targets : List SourceFile} {returned : List ReturnedFile}
    (h : Covers returned targets) :
    (∃ i, assemble targets returned = .ok i ∧ i.files.map (·.file) = targets) ↔
      (targets.map requestPath).Nodup := by
  constructor
  · rintro ⟨i, hAssemble, -⟩
    obtain ⟨-, hNodup, -⟩ := assemble_eq_ok_iff.1 hAssemble
    exact hNodup
  · intro hNodup
    obtain ⟨files, hFiles⟩ := exists_becomesBy fun t ht => lastReturned_isSome (h t ht)
    exact ⟨_, assemble_eq_ok_iff.2 ⟨files, hNodup, hFiles, rfl⟩, map_file_of_becomesBy hFiles⟩

/-- If a response covers the targets, what it asks for the one that it is said to lack is asked for
twice. -/
theorem two_le_count_of_assemble {targets : List SourceFile} {returned : List ReturnedFile}
    (h : Covers returned targets) {path : Path}
    (hAssemble : assemble targets returned = .error path) :
    ∃ target ∈ targets, target.path = path ∧
      2 ≤ (targets.map requestPath).count (requestPath target) := by
  have hTake : take (byPath returned) targets = .error path := by
    rw [assemble] at hAssemble
    cases hTaken : take (byPath returned) targets with
    | ok files =>
        rw [hTaken] at hAssemble
        cases hAssemble
    | error path' =>
        rw [hTaken] at hAssemble
        exact congrArg Except.error (Except.error.inj hAssemble)
  obtain ⟨target, ⟨before, after, rfl, hUnserved, -⟩, rfl⟩ := take_eq_error_iff.1 hTake
  have hThere : (byPath returned).find? (requestPath target) ≠ none := by
    obtain ⟨r, hr⟩ := lastReturned_isSome (h target (by simp))
    rw [find?_byPath, hr]
    simp
  have hCount := List.count_pos_iff.2 (hUnserved.resolve_left hThere)
  refine ⟨target, by simp, rfl, ?_⟩
  rw [List.map_append, List.map_cons, List.count_append, List.count_cons_self]
  omega

/-- No path is asked for twice exactly if no two targets have one path and paths that look the same
are the same. -/
theorem nodup_requestPath_iff {targets : List SourceFile} :
    (targets.map requestPath).Nodup ↔ (targets.map (·.path)).Nodup ∧
      ∀ f ∈ targets, ∀ g ∈ targets, f.path.text = g.path.text → f.path = g.path := by
  have hPaths : targets.map requestPath = (targets.map (·.path)).map Path.text := by
    rw [List.map_map]
    rfl
  rw [hPaths]
  constructor
  · intro h
    have hNodup := List.Nodup.of_map _ h
    have hInjective := (List.nodup_map_iff_inj_on hNodup).1 h
    exact ⟨hNodup, fun f hf g hg =>
      hInjective _ (List.mem_map_of_mem hf) _ (List.mem_map_of_mem hg)⟩
  · rintro ⟨hNodup, hSame⟩
    refine (List.nodup_map_iff_inj_on hNodup).2 fun p hp q hq => ?_
    obtain ⟨f, hf, rfl⟩ := List.mem_map.1 hp
    obtain ⟨g, hg, rfl⟩ := List.mem_map.1 hq
    exact hSame f hf g hg

/-- **A covering response serves every target exactly if nested roots skip and no two paths look the
same.** Of the targets that accepted settings select, each gets one file of its own, in the order of
the targets, exactly if every root that lies between another root and one of its targets skips that
target, and targets whose paths are shown as one text have one path. Otherwise the target that is
said to be missing is one whose path, as it is shown, comes twice. -/
theorem assemble_iff_skips {project : Path} {s : Settings} {o : Overrides} {plan : Plan}
    (hPlan : Plan.ofSettings project s o = .ok plan) {t : FileTree} (hTree : t.WellFormed)
    {cwd : Location} {sel : Selection}
    (hSelected : Selection.ofRoots t cwd plan.extensions plan.roots = .ok sel)
    {returned : List ReturnedFile} (hCovers : Covers returned sel.instrument) :
    ((∃ i, assemble sel.instrument returned = .ok i ∧ i.files.map (·.file) = sel.instrument) ↔
      (∀ outer ∈ plan.roots, ∀ inner ∈ plan.roots, ∀ f ∈ sel.instrument,
        Selection.Between outer inner f → Selection.Skips inner f.path) ∧
      ∀ f ∈ sel.instrument, ∀ g ∈ sel.instrument, f.path.text = g.path.text → f.path = g.path) ∧
    ∀ path, assemble sel.instrument returned = .error path →
      ∃ target ∈ sel.instrument, target.path = path ∧
        2 ≤ (sel.instrument.map requestPath).count (requestPath target) := by
  refine ⟨?_, fun path hError => two_le_count_of_assemble hCovers hError⟩
  rw [← Selection.nodup_paths_iff_skips hPlan hTree hSelected, ← nodup_requestPath_iff]
  exact assemble_iff_nodup hCovers

/-- With one root inside another and nothing skipped, a source is a target twice. A response with
two files for its path serves the first target alone. -/
theorem assemble_iff_skips_nested :
    let t : FileTree := ⟨OrderedMap.ofList [(["p"], .directory), (["p", "contracts"], .directory),
      (["p", "contracts", "lib"], .directory), (["p", "contracts", "lib", "L.sol"], .file [])]⟩
    let s : Settings :=
      { Settings.standard with roots := [⟨"contracts", []⟩, ⟨"contracts/lib", []⟩] }
    let sel : Selection :=
      ⟨[⟨"/p/contracts", "lib/L.sol", ""⟩, ⟨"/p/contracts/lib", "L.sol", ""⟩], []⟩
    let returned : List ReturnedFile := [⟨"/p/contracts/lib/L.sol", "first", OrderedMap.empty⟩,
      ⟨"/p/contracts/lib/L.sol", "second", OrderedMap.empty⟩]
    ∃ plan, Plan.ofSettings "/p" s .none = .ok plan ∧ t.WellFormed ∧
      Selection.ofRoots t [] plan.extensions plan.roots = .ok sel ∧
      returned.map (·.path) = sel.instrument.map requestPath ∧
      ¬ ∃ i, assemble sel.instrument returned = .ok i ∧ i.files.map (·.file) = sel.instrument := by
  intro t s sel returned
  have hTree : t.WellFormed := ⟨by unfold Rooted; decide +kernel, by decide +kernel⟩
  let outer : SourceRoot := ⟨Location.path ["p", "contracts"], []⟩
  let inner : SourceRoot := ⟨Location.path ["p", "contracts", "lib"], []⟩
  have hOuter : t.directory? [] outer.path = some (["p", "contracts"] : Location) :=
    directory?_path hTree.rooted [] (by decide +kernel) (by decide +kernel)
  have hInner : t.directory? [] inner.path = some (["p", "contracts", "lib"] : Location) :=
    directory?_path hTree.rooted [] (by decide +kernel) (by decide +kernel)
  have hOk : ((Plan.ofSettings "/p" s .none).toOption.map fun plan =>
      (plan.extensions, plan.roots)) = some (["sol"], [outer, inner]) := by decide +kernel
  have hSelected : Selection.ofRoots t [] ["sol"] [outer, inner] = .ok sel := by
    rw [Selection.ofRoots, Selection.ofRoots, Selection.ofRoots, Selection.discover, hOuter,
      Selection.discover, hInner]
    decide +kernel
  cases hPlan : Plan.ofSettings "/p" s .none with
  | error e =>
      rw [hPlan] at hOk
      cases hOk
  | ok plan =>
      rw [hPlan] at hOk
      obtain ⟨hExtensions, hRoots⟩ := Prod.mk.inj (Option.some.inj hOk)
      have hPlanned : Selection.ofRoots t [] plan.extensions plan.roots = .ok sel := by
        rw [hExtensions, hRoots, hSelected]
      have hCovers : Covers returned sel.instrument := by
        unfold Covers
        decide +kernel
      refine ⟨plan, rfl, hTree, hPlanned, by decide +kernel, ?_⟩
      rw [(assemble_iff_skips hPlan hTree hPlanned hCovers).1, hRoots]
      rintro ⟨hSkips, -⟩
      obtain ⟨names, -, hSkipped⟩ := hSkips outer (by simp) inner (by simp)
        ⟨"/p/contracts", "lib/L.sol", ""⟩ (by simp [sel])
        ⟨by decide +kernel, by decide +kernel, by decide +kernel, by decide +kernel,
          by decide +kernel⟩
      cases hSkipped

/-- Two paths that are not UTF-8 and are asked for as one. -/
example : requestPath ⟨"/p", ⟨[0xFE]⟩, ""⟩ = requestPath ⟨"/p", ⟨[0xFF]⟩, ""⟩ := by decide

end CoverRun.Exchange

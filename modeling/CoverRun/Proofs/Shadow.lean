import CoverRun.Proofs.FileTree.Location
import CoverRun.Proofs.FileTree.WellFormed
import CoverRun.Proofs.Outcome
import CoverRun.Shadow.Files

/-!
# Writing shadows

Shadows are written one after another up to the first write that fails (`Shadow.writeAll_stops`).
Where nothing but files is in their way, all of them are written (`Shadow.failure_writeAll`).
-/

namespace CoverRun.Shadow

open FileTree

/-- The tree after the shadows of texts were written in order, if none of the writes failed. -/
def writeEach (t : FileTree) (cwd : Location) (texts : List ShadowText) :
    Except FileError FileTree :=
  texts.foldlM (fun u s => u.write cwd (namePath s.source) (Utf8.encode s.text)) t

theorem writeEach_cons_eq_ok_iff {t u : FileTree} {cwd : Location} {s : ShadowText}
    {texts : List ShadowText} : writeEach t cwd (s :: texts) = .ok u ↔
      ∃ t', t.write cwd (namePath s.source) (Utf8.encode s.text) = .ok t' ∧
        writeEach t' cwd texts = .ok u := by
  rw [writeEach, List.foldlM_cons, Outcome.bind_eq_ok_iff]
  rfl

/-- **Writing stops at the first write that fails.** The shadows before it stay, and it is the
failure. -/
theorem writeAll_stops (t : FileTree) (cwd : Location) (texts : List ShadowText) :
    ∃ done, writeEach t cwd done = .ok (writeAll t cwd texts).tree ∧
      (writeAll t cwd texts).written = done.map (fun s => namePath s.source) ∧
      (texts = done ∧ (writeAll t cwd texts).failure = none ∨ ∃ s rest cause,
        texts = done ++ s :: rest ∧
        (writeAll t cwd texts).tree.write cwd (namePath s.source) (Utf8.encode s.text) =
          .error cause ∧
        (writeAll t cwd texts).failure = some ⟨namePath s.source, cause⟩) := by
  induction texts generalizing t with
  | nil => exact ⟨[], rfl, rfl, Or.inl ⟨rfl, rfl⟩⟩
  | cons s texts ih =>
      rw [writeAll]
      cases hWrite : t.write cwd (namePath s.source) (Utf8.encode s.text) with
      | error cause => exact ⟨[], rfl, rfl, Or.inr ⟨s, texts, cause, rfl, hWrite, rfl⟩⟩
      | ok t' =>
          obtain ⟨done, hDone, hWritten, hEnd⟩ := ih t'
          refine ⟨s :: done, writeEach_cons_eq_ok_iff.2 ⟨t', hWrite, hDone⟩,
            congrArg (namePath s.source :: ·) hWritten, ?_⟩
          rcases hEnd with ⟨rfl, hNone⟩ | ⟨s', rest, cause, rfl, hError, hSome⟩
          · exact Or.inl ⟨rfl, hNone⟩
          · exact Or.inr ⟨s', rest, cause, rfl, hError, hSome⟩

theorem written_writeAll {t : FileTree} {cwd : Location} {texts : List ShadowText} :
    (writeAll t cwd texts).written <+: texts.map (fun s => namePath s.source) ∧
      ((writeAll t cwd texts).failure = none →
        (writeAll t cwd texts).written = texts.map fun s => namePath s.source) := by
  obtain ⟨done, -, hWritten, ⟨rfl, -⟩ | ⟨s, rest, cause, rfl, -, hFailure⟩⟩ :=
    writeAll_stops t cwd texts
  · exact ⟨hWritten ▸ List.prefix_rfl, fun _ => hWritten⟩
  · rw [hWritten, hFailure, List.map_append]
    exact ⟨List.prefix_append _ _, fun hNone => by cases hNone⟩

/-- The shadow of a source has its place in a directory, where there is nothing or a file. -/
def HasPlace (t : FileTree) (directory : Location) (source : Path) : Prop :=
  ∃ name, namePath source = (directory ++ [name]).path ∧ IsSpelled (directory ++ [name]) ∧
    (t.find? (directory ++ [name]) = none ∨
      ∃ content, t.find? (directory ++ [name]) = some (.file content))

theorem HasPlace.place {t : FileTree} {directory : Location} {source : Path}
    (h : HasPlace t directory source) {loc : Location} (hne : loc ≠ []) (content : Bytes) :
    HasPlace (t.place loc (.file content)) directory source := by
  obtain ⟨name, hPath, hSpelled, hFree⟩ := h
  refine ⟨name, hPath, hSpelled, ?_⟩
  rw [find?_place hne]
  split
  · exact Or.inr ⟨content, rfl⟩
  · exact hFree

/-- **Shadows that have their places are all written.** -/
theorem failure_writeAll {t : FileTree} (hTree : t.WellFormed) (cwd : Location)
    {directory : Location} (hDirectory : t.find? directory = some .directory)
    {texts : List ShadowText} (h : ∀ s ∈ texts, HasPlace t directory s.source) :
    (writeAll t cwd texts).failure = none := by
  induction texts generalizing t with
  | nil => rfl
  | cons s texts ih =>
      obtain ⟨name, hPath, hSpelled, hFree⟩ := h s List.mem_cons_self
      have hWrite := write_path hTree.rooted cwd hSpelled hDirectory hFree (Utf8.encode s.text)
      have hne : directory ++ [name] ≠ [] := by simp
      have hPlaced : (t.place (directory ++ [name]) (.file (Utf8.encode s.text))).WellFormed := by
        refine hTree.place hne (by simpa using hDirectory) hSpelled.named fun hOld => ?_
        rcases hFree with hFree | ⟨content, hFile⟩
        · rw [hFree] at hOld
          cases hOld
        · rw [hFile] at hOld
          cases hOld
      have hKept : (t.place (directory ++ [name]) (.file (Utf8.encode s.text))).find? directory =
          some .directory := by
        rw [find?_place hne, if_neg (by simp), hDirectory]
      have hLater := ih hPlaced hKept fun s' hs' =>
        (h s' (List.mem_cons_of_mem s hs')).place hne (Utf8.encode s.text)
      rw [writeAll, hPath, hWrite]
      exact hLater

end CoverRun.Shadow

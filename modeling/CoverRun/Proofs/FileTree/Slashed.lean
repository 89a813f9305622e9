import CoverRun.Proofs.FileTree.Linkless

/-!
# A path of any length

Separators at the end of a path do not change where it leads, and names that are read from within
it come after all of them. So a path to a directory can be so long that nothing below is reached
under it, or only what has a short name.
-/

namespace CoverRun.FileTree

open CoverRun.Path

/-- A path with separators after its name. -/
def slashed (k : Nat) : Path := ⟨Utf8.encode "c" ++ slash :: List.replicate k slash⟩

theorem bytes_slashed (k : Nat) :
    (slashed k).bytes = [0x63] ++ slash :: List.replicate k slash := by
  rw [slashed, show Utf8.encode "c" = [0x63] by decide +kernel]

theorem parts_slashed (k : Nat) : (slashed k).parts = [⟨.name "c", 0, 1⟩] := by
  have hSlashes (n start : Nat) :
      partsFrom start false (pieces slash (List.replicate n slash)) = [] := by
    induction n generalizing start with
    | zero => rfl
    | succ n ih => simpa [List.replicate_succ, pieces, partsFrom] using ih (start + 1)
  obtain ⟨start, hParts⟩ := exists_parts_append_slash (List.cons_ne_nil 0x63 []) (bytes_slashed k)
  rw [hParts, hSlashes, List.append_nil]
  decide +kernel

theorem components_slashed (k : Nat) : (slashed k).components = [.name "c"] :=
  congrArg (List.map Part.component) (parts_slashed k)

theorem bytes_slashed_join (k : Nat) {name : FileName} (h : IsName name) :
    ((slashed k).join ⟨name.bytes⟩).bytes =
      [0x63] ++ slash :: (List.replicate k slash ++ name.bytes) := by
  have hLast : (slashed k).bytes.getLast? = some slash := by
    rw [bytes_slashed, ← List.replicate_succ, List.replicate_succ', ← List.append_assoc,
      List.getLast?_concat]
  rw [join, h.isAbsolute]
  simp only [Bool.false_eq_true, if_false]
  rw [if_pos (Or.inr hLast), bytes_slashed, List.append_assoc]
  rfl

/-- The separators are gone from the parent of a name in the directory. -/
theorem parent?_slashed_join (k : Nat) {name : FileName} (h : IsName name) :
    ((slashed k).join ⟨name.bytes⟩).parent? = some (Path.ofText "c") ∧
      ((slashed k).join ⟨name.bytes⟩).components = [.name "c"] ++ [.name name] := by
  have hBytes : (slashed k).bytes ≠ [] := bytes_ne_of_components (by simp [components_slashed])
  obtain ⟨start, hParts, -⟩ := exists_parts_join_name hBytes h
  rw [parts_slashed] at hParts
  refine ⟨?_, congrArg (List.map Part.component) hParts⟩
  rw [parent?_of_parts hParts Component.noConfusion, slice, bytes_slashed_join k h]
  rfl

theorem length_slashed_join (k : Nat) {name : FileName} (h : IsName name) :
    ((slashed k).join ⟨name.bytes⟩).bytes.length = k + 2 + name.bytes.length := by
  simp only [bytes_slashed_join k h, List.length_append, List.length_cons, List.length_nil,
    List.length_replicate]
  omega

theorem isPassable_slashed {k : Nat} (hk : k + 2 < pathLimit) : IsPassable (slashed k) := by
  refine ⟨bytes_ne_of_components (by rw [components_slashed]; decide), ?_, ?_⟩
  · rw [bytes_slashed]
    simp [slash]
  · rw [bytes_slashed]
    simpa using hk

theorem directory?_slashed {u : FileTree} (hLinks : u.NoLinks)
    (hFind : u.find? ["c"] = some .directory) {k : Nat} (hk : k + 2 < pathLimit) :
    u.directory? [] (slashed k) = some (["c"] : Location) := by
  have hSame : (slashed k).components = (Path.ofText "c").components ++ [].map .name := by
    rw [components_slashed]
    decide +kernel
  have hNames : namesOf "c" = (["c"] : Location) := by decide +kernel
  have hDown : descend u [] ["c"] = some (["c"] : Location) := by
    rw [descend, if_neg (by decide), if_neg (by decide), if_pos ⟨by decide, hFind⟩]
    rfl
  rw [directory?_iff_descend hLinks, descend_continued u [] (by decide +kernel) hSame, hNames]
  exact ⟨isPassable_slashed hk, congrArg (Option.bind · fun dir => descend u dir []) hDown⟩

end CoverRun.FileTree

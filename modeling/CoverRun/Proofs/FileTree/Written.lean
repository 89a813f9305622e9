import CoverRun.Proofs.FileTree.Linkless
import CoverRun.Proofs.FileTree.WellFormed
import CoverRun.Proofs.Text.Utf8

/-!
# Reading what was written

A walk for a file that is to be created ends at a place where a file or nothing stands, so writing
there changes nothing that the walk has passed. The same walk therefore leads to the new file
(`walk_place`), and what was written is read back (`read_write`), whatever links lie on the way.
-/

namespace CoverRun.FileTree

/-- The place of the file that is created when a walk led to a target. -/
def Target.createdAt? : Target → Option Location
  | .present loc (.file _) => some loc
  | .present _ _ => none
  | .absent parent name => some (parent ++ [name])

/-- Nothing but a file stands at a location. -/
def Replaceable (t : FileTree) (loc : Location) : Prop :=
  ∀ e, t.find? loc = some e → ∃ content, e = .file content

variable {t : FileTree} {loc place : Location}

theorem Replaceable.ne_nil (h : t.Replaceable place) : place ≠ [] := by
  rintro rfl
  obtain ⟨content, hFile⟩ := h .directory rfl
  cases hFile

/-- A file at a replaceable place leaves directories and links where they are. -/
theorem Replaceable.find?_place (h : t.Replaceable place) (content : Bytes) {e : Entry}
    (hFind : t.find? loc = some e) (hNoFile : ∀ content', e ≠ .file content') :
    (t.place place (.file content)).find? loc = some e := by
  rw [FileTree.find?_place h.ne_nil]
  split
  · next hEq =>
    subst hEq
    obtain ⟨content', hFile⟩ := h e hFind
    exact absurd hFile (hNoFile content')
  · exact hFind

theorem replaceable_of_walk {last : LastName} {slashed : Bool} {links : Nat} {names : List FileName}
    {target : Target} (h : walk t last slashed links loc names = .ok target)
    (hPlace : target.createdAt? = some place) : t.Replaceable place := by
  fun_induction walk t last slashed links loc names with
  | case1 =>
      obtain rfl := Except.ok.inj h
      cases hPlace
  | case2 _ _ _ _ _ _ ih => exact ih h
  | case3 _ _ _ _ _ _ _ ih => exact ih h
  | case6 slashed links loc name _ _ _ child hFind _ =>
      obtain rfl := Except.ok.inj h
      have hChild : child = place := Option.some.inj hPlace
      intro e he
      rw [← hChild, hFind] at he
      cases he
  | case8 _ _ _ _ _ _ _ _ _ _ _ ih => exact ih h
  | case9 slashed links loc name names _ _ _ _ child content hFind _ =>
      obtain rfl := Except.ok.inj h
      have hChild : child = place := Option.some.inj hPlace
      intro e he
      rw [← hChild, hFind] at he
      exact ⟨content, (Option.some.inj he).symm⟩
  | case11 =>
      obtain rfl := Except.ok.inj h
      cases hPlace
  | case13 _ _ _ _ _ _ _ _ _ _ _ _ _ ih => exact ih (by simpa using h)
  | _ => cases h

theorem walk_file {name : FileName} (hName : IsShort name) {content : Bytes}
    (hFind : t.find? (loc ++ [name]) = some (.file content)) (links : Nat) :
    walk t .followed false links loc [name] = .ok (.present (loc ++ [name]) (.file content)) := by
  rw [walk_last hName (by simp [hFind]), lookUp_of_some hFind]

/-- **A walk for a file to be created leads to the file once it is there.** -/
theorem walk_place {slashed : Bool} {links : Nat} {names : List FileName} {target : Target}
    (content : Bytes) (h : walk t .created slashed links loc names = .ok target)
    (hPlace : target.createdAt? = some place) :
    walk (t.place place (.file content)) .followed slashed links loc names =
      .ok (.present place (.file content)) := by
  have hReplaceable := replaceable_of_walk h hPlace
  have hThere : (t.place place (.file content)).find? place = some (.file content) := by
    rw [find?_place hReplaceable.ne_nil, if_pos rfl]
  fun_induction walk t .created slashed links loc names with
  | case1 =>
      obtain rfl := Except.ok.inj h
      cases hPlace
  | case2 slashed links loc name names hCurrent ih => rw [walk, if_pos hCurrent, ih h]
  | case3 slashed links loc name names hCurrent hParent ih =>
      rw [walk, if_neg hCurrent, if_pos hParent, ih h]
  | case6 slashed links loc name hCurrent hParent hLong child hFind hOpen =>
      obtain rfl := Except.ok.inj h
      obtain rfl : child = place := Option.some.inj hPlace
      obtain rfl : slashed = false := by simpa using hOpen
      exact walk_file ⟨hCurrent, hParent, Nat.not_lt.1 hLong⟩ hThere links
  | case8 slashed links loc name names hCurrent hParent _ hLong child hFind ih =>
      rw [walk_directory ⟨hCurrent, hParent, Nat.not_lt.1 hLong⟩
        (hReplaceable.find?_place content hFind (by rintro _ ⟨⟩)), ih h]
  | case9 slashed links loc name names hCurrent hParent _ hLong child content' hFind hLast =>
      obtain rfl := Except.ok.inj h
      obtain rfl : child = place := Option.some.inj hPlace
      obtain ⟨rfl, hNamed | rfl⟩ := hLast
      · cases hNamed
      · exact walk_file ⟨hCurrent, hParent, Nat.not_lt.1 hLong⟩ hThere links
  | case11 =>
      obtain rfl := Except.ok.inj h
      cases hPlace
  | case13 slashed loc name names hCurrent hParent _ hLong child target' hFind _ links ih =>
      rw [walk_link ⟨hCurrent, hParent, Nat.not_lt.1 hLong⟩ (Or.inr rfl)
        (hReplaceable.find?_place content hFind (by rintro _ ⟨⟩))]
      simpa using ih (by simpa using h)
  | _ => cases h

variable {t' : FileTree} {cwd : Location} {p : Path}

theorem exists_place_of_write {content : Bytes} (h : t.write cwd p content = .ok t') :
    ∃ target place, t.resolve cwd p .created = .ok target ∧ target.createdAt? = some place ∧
      t' = t.place place (.file content) := by
  rw [write] at h
  split at h
  · next loc _ hResolve => exact ⟨_, loc, hResolve, rfl, (Except.ok.inj h).symm⟩
  · cases h
  · cases h
  · next parent name hResolve =>
    exact ⟨_, parent ++ [name], hResolve, rfl, (Except.ok.inj h).symm⟩
  · cases h

/-- **What was written is read back.** -/
theorem read_write {content : Bytes} (h : t.write cwd p content = .ok t') :
    t'.read cwd p = .ok content := by
  obtain ⟨target, place, hResolve, hPlace, rfl⟩ := exists_place_of_write h
  have hPassable := isPassable_of_resolve hResolve
  rw [resolve_of_isPassable hPassable] at hResolve
  rw [read, resolve_of_isPassable hPassable, walk_place content hResolve hPlace]

theorem readText_of_read {text : String} (h : t.read cwd p = .ok (Utf8.encode text)) :
    t.readText cwd p = .ok text := by
  rw [readText, h]
  simp only [Utf8.decode?_encode]

theorem readText_write {text : String} (h : t.write cwd p (Utf8.encode text) = .ok t') :
    t'.readText cwd p = .ok text := readText_of_read (read_write h)

end CoverRun.FileTree

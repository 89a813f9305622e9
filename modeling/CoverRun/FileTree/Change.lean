import CoverRun.FileTree

/-!
# Changes between file trees

`FileTree.changes` lists what turns one file tree into another: removals first, the content of a
directory before the directory, then all that is new, a directory before its content.
-/

namespace CoverRun.FileTree

/-- One change to a file tree. -/
inductive Change where
  | remove (loc : Location) (entry : Entry)
  | place (loc : Location) (entry : Entry)
deriving DecidableEq, Repr

/-- Where a change is. -/
def Change.location : Change → Location
  | .remove loc _ => loc
  | .place loc _ => loc

/-- The tree after a change. -/
def Change.applied (t : FileTree) : Change → FileTree
  | .remove loc _ => t.drop loc
  | .place loc e => t.place loc e

/-- Whether a file replaces a file, which needs no removal before it. -/
def isRewrite : Entry → Option Entry → Bool
  | .file _, some (.file _) => true
  | _, _ => false

/-- The entries of a tree that must go, the last one first. -/
def removals (before after : FileTree) : List Change :=
  (before.entries.entries.filter fun e =>
    after.find? e.1 != some e.2 && !isRewrite e.2 (after.find? e.1)).reverse.map fun e =>
      .remove e.1 e.2

/-- The entries of a tree that are new. -/
def additions (before after : FileTree) : List Change :=
  (after.entries.entries.filter fun e => before.find? e.1 != some e.2).map fun e =>
    .place e.1 e.2

/-- What turns one tree into another. -/
def changes (before after : FileTree) : List Change :=
  removals before after ++ additions before after

end CoverRun.FileTree

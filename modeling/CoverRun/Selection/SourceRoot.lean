import CoverRun.Selection.SkipEntry

/-!
# Source roots

A source root is a directory with the skip entries for the files below it.
-/

namespace CoverRun

/-- A directory with sources and what to skip in it. -/
structure SourceRoot where
  path : Path
  skip : List SkipEntry
deriving DecidableEq, Repr

/-- A text in a skip list that is no entry. -/
structure SkipError where
  root : Path
  entry : String
  fault : SkipFault
deriving DecidableEq, Repr

/-- The wording of a fault in a skip list. -/
def SkipError.message (e : SkipError) : String :=
  let subject := "Skip entry '" ++ e.entry ++ "' for root '" ++ e.root.text ++ "' "
  match e.fault with
  | .notInside => subject ++ "must be a relative path inside the root"
  | .badGlob error => subject ++ "is not a valid glob: " ++ error.message

namespace SourceRoot

/-- A root in which nothing is skipped. -/
def whole (path : Path) : SourceRoot := ⟨path, []⟩

/-- Reads the skip list of a root; the first fault counts. -/
def ofTexts (path : Path) (texts : List String) : Except SkipError SourceRoot := do
  let skip ← texts.mapM fun text =>
    match SkipEntry.ofText text with
    | .ok entry => .ok entry
    | .error fault => .error ⟨path, text, fault⟩
  return ⟨path, skip⟩

/-- Whether a path inside the root is skipped. -/
def skips (root : SourceRoot) (relative : Path) : Bool :=
  root.skip.any (·.covers relative)

end SourceRoot

end CoverRun

import CoverRun.Glob
import CoverRun.Path

/-!
# Skip entries

An entry of a skip list names a file or a directory inside a source root, or is a glob. It must be
relative and stay inside the root. A plain entry covers the paths that begin with its components; a
glob covers the paths that match, and all below a directory that matches. A path that is not UTF-8
matches no glob.
-/

namespace CoverRun

/-- Why a text is no skip entry. -/
inductive SkipFault where
  | notInside
  | badGlob (error : GlobError)
deriving DecidableEq, Repr

/-- An entry of a skip list: as it was written, the names of its path and, if it has a wildcard,
its glob. -/
structure SkipEntry where
  text : String
  names : List FileName
  glob? : Option Glob
deriving DecidableEq, Repr

namespace SkipEntry

/-- The names among components, unless one leads out of the root or begins elsewhere. -/
def namesInside? : List Path.Component → Option (List FileName)
  | [] => some []
  | .current :: cs => namesInside? cs
  | .name n :: cs => (namesInside? cs).map (n :: ·)
  | .parent :: _ => none
  | .root :: _ => none

/-- Whether a text is to be read as a glob. -/
def hasWildcard (text : String) : Bool :=
  text.toList.any fun c => c == '*' || c == '?' || c == '['

/-- The pattern of names: joined by separators, with a backslash for one too. -/
def patternText (names : List FileName) : String :=
  String.ofList ((Path.ofNames names).text.toList.map fun c => if c = '\\' then '/' else c)

/-- Reads an entry. -/
def ofText (text : String) : Except SkipFault SkipEntry :=
  match namesInside? (Path.ofText text).components with
  | none => .error .notInside
  | some [] => .error .notInside
  | some (n :: ns) =>
    if hasWildcard text then
      match Glob.ofText (patternText (n :: ns)) with
      | .ok g => .ok ⟨text, n :: ns, some g⟩
      | .error e => .error (.badGlob e)
    else .ok ⟨text, n :: ns, none⟩

/-- Whether the entry covers a path inside its root. -/
def covers (entry : SkipEntry) (relative : Path) : Bool :=
  match entry.glob? with
  | some g => (relative :: relative.ancestors).any fun p => p.text?.any g.accepts
  | none => (entry.names.map Path.Component.name).isPrefixOf relative.components

end SkipEntry

end CoverRun

import CoverRun.Process

/-!
# The world of a run

A run reads and writes a file tree, starts processes and prints. The journal holds what it did, the
earliest first; what was printed on a stream is read off the journal.
-/

namespace CoverRun

/-- Something that a run did. -/
inductive Effect where
  | instrumenterStarted
  | stageStarted (stage : String)
  | stageEnded (stage : String) (ending : Ending)
  | fileWritten (path : Path)
  | printed (stream : OutputStream) (text : String)
deriving DecidableEq, Repr

/-- The file tree, the directory that relative paths start from, and the journal. -/
structure World where
  tree : FileTree
  cwd : Location
  journal : List Effect

namespace World

/-- A world in which nothing was done yet. -/
def start (tree : FileTree) (cwd : Location) : World := ⟨tree, cwd, []⟩

/-- Adds effects to the journal. -/
def record (w : World) (effects : List Effect) : World := { w with journal := w.journal ++ effects }

/-- Prints a text. -/
def print (w : World) (stream : OutputStream) (text : String) : World :=
  w.record [.printed stream text]

/-- The texts of effects that were printed on a stream. -/
def printedOn (stream : OutputStream) (effects : List Effect) : String :=
  String.join (effects.filterMap fun
    | .printed s text => if s = stream then some text else none
    | _ => none)

/-- What was printed on a stream. -/
def printed (w : World) (stream : OutputStream) : String := printedOn stream w.journal

end World

end CoverRun

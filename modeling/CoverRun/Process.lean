import CoverRun.FileTree

/-!
# Processes

A launch says what to start, and a machine is any function that carries launches out on a file
tree. Nothing else is known of the programs that a run starts.
-/

namespace CoverRun

/-- The two streams that a process writes to. -/
inductive OutputStream where
  | output
  | errors
deriving DecidableEq, Repr

/-- A program with its arguments, the directory it runs in, variables over the inherited ones, what
it can read, and a time limit in milliseconds. -/
structure Launch where
  program : String
  arguments : List String
  directory : Path
  environment : OrderedMap String String
  input : Bytes
  limit : Option Nat

/-- How a process ended: by itself with a code, by a signal, or at its time limit. -/
inductive Ending where
  | exited (code : Nat)
  | signalled
  | expired
deriving DecidableEq, Repr

/-- What a process left behind. -/
structure Execution where
  tree : FileTree
  output : Bytes
  errors : Bytes
  ending : Ending

/-- Carries out launches. A program that cannot be started changes nothing. -/
abbrev Machine := Launch → FileTree → Except FileError Execution

end CoverRun

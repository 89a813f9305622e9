/-!
# Phases of a run

A run goes from one phase to the next or, once it has begun, to failure. Nothing follows the two
phases at the end. `Progress` holds the phase that a run is in and all those it has been in.
-/

namespace CoverRun

/-- Where a run stands. -/
inductive Phase where
  | idle
  | selecting
  | instrumenting
  | generating
  | testing
  | done
  | failed
deriving DecidableEq, Repr

namespace Phase

/-- All phases. -/
def all : List Phase :=
  [.idle, .selecting, .instrumenting, .generating, .testing, .done, .failed]

/-- The name of a phase. -/
def name : Phase → String
  | .idle => "idle"
  | .selecting => "selecting"
  | .instrumenting => "instrumenting"
  | .generating => "generating"
  | .testing => "testing"
  | .done => "done"
  | .failed => "failed"

/-- The phase with a name. -/
def ofName? (s : String) : Option Phase := all.find? fun p => p.name == s

/-- Whether a run ends in a phase. -/
def isTerminal : Phase → Bool
  | .done => true
  | .failed => true
  | _ => false

/-- Whether one phase may follow another. -/
def canMoveTo : Phase → Phase → Bool
  | .idle, .selecting => true
  | .selecting, .instrumenting => true
  | .instrumenting, .generating => true
  | .generating, .testing => true
  | .testing, .done => true
  | p, .failed => !p.isTerminal && p != .idle
  | _, _ => false

end Phase

/-- The phase of a run and all its phases so far, the earliest first. -/
structure Progress where
  phase : Phase
  history : List Phase
deriving DecidableEq, Repr

namespace Progress

/-- A run that has not begun. -/
def idle : Progress := ⟨.idle, [.idle]⟩

/-- Moves on to a phase. -/
def enter (p : Progress) (next : Phase) : Progress := ⟨next, p.history ++ [next]⟩

/-- What a new run starts from, whatever the last one came to. -/
def restart (p : Progress) : Progress := if p.phase = .idle then p else idle

end Progress

end CoverRun

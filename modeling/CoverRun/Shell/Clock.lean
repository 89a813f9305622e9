import CoverRun.FileTree.Change
import CoverRun.Shell.State

/-!
# Time and jobs

Time passes only while something sleeps. A job in the background is carried out before its shell
goes on, on a clock of its own, so two things are noted of it. Who reads what is written to an open
file waits until nothing holds the file any more; so each sleep of a job notes what is held
meanwhile. And what a job does to the file tree after it slept is put off until the clock of the
shell comes to it.
-/

namespace CoverRun.Shell

namespace State

/-! ## Late work -/

/-- What a file has at its end more than another one. -/
def grownBy? (before after : Option FileTree.Entry) : Option Bytes :=
  match before, after with
  | some (.file old), some (.file new) =>
    if old.isPrefixOf new then some (new.drop old.length) else none
  | none, some (.file new) => if new = [] then none else some new
  | _, _ => none

/-- Writes at the end of a file. Who stood there goes along. -/
def extend (s : State) (loc : Location) (old suffix : Bytes) : State :=
  let length := old.length + suffix.length
  { s with
    tree := s.tree.place loc (.file (old ++ suffix))
    files := s.files.mapValues fun _ f =>
      match f with
      | .file loc' offset appending readable writable =>
        .file loc' (if loc' = loc ∧ offset = old.length then length else offset) appending readable
          writable
      | f => f }

/-- Makes a change of late work. A file that the work lets grow grows also if there is more in it by
now. -/
def applyChange (w : LateWork) (s : State) (c : FileTree.Change) : State :=
  let loc := c.location
  match grownBy? (w.before.find? loc) (w.after.find? loc), s.tree.find? loc with
  | some suffix, some (.file old) => s.extend loc old suffix
  | _, _ => { s with tree := c.applied s.tree }

/-- Does late work. -/
def applyWork (s : State) (w : LateWork) : State :=
  (FileTree.changes w.before w.after).foldl (applyChange w) s

/-- Does the work that is due. -/
def catchUp (s : State) : State :=
  let due := (s.lateWork.filter (·.time ≤ s.clock)).mergeSort fun a b => a.time ≤ b.time
  due.foldl applyWork { s with lateWork := s.lateWork.filter (s.clock < ·.time) }

/-! ## Sleeping -/

/-- The open files behind descriptors. -/
def openFiles (s : State) : List Nat := s.descriptors.values

/-- The state in which a process is carried out for which this one waits. -/
def asWaiter (s : State) : State :=
  { s with waiting := (s.openFiles.filter fun i => !s.waiting.contains i) ++ s.waiting }

/-- Notes that open files are held from one time to another. -/
def hold (s : State) (own : Bool) (files : List Nat) (start finish : Nat) : State :=
  if s.job = 0 then s
  else { s with holds := (files.map fun i => ⟨s.job, own, i, start, finish⟩) ++ s.holds }

/-- Notes what a job has done so far. -/
def noteWork (s : State) : State :=
  if s.job = 0 then s else { s with past := ⟨s.clock, s.tree, s.files⟩ :: s.past }

/-- A time, or the time limit if that comes first. -/
def within (s : State) (time : Nat) : Nat := (s.limit.map (min time)).getD time

/-- Lets the processes that wait for this one hold their open files while time passes up to a time,
unless it has come. -/
def waitUntil (s : State) (time : Nat) : State :=
  let clock := max s.clock (s.within time)
  let s := (s.hold true s.waiting s.clock clock).noteWork
  { s with
    clock := clock
    flow := if s.limit.any (· ≤ clock) then .expired else s.flow }.catchUp

/-- Sleeps up to a time. -/
def sleepUntil (s : State) (time : Nat) : State :=
  (s.hold s.waiting.isEmpty s.openFiles s.clock (s.within time)).waitUntil time

/-- Sleeps. -/
def sleep (s : State) (milliseconds : Nat) : State := s.sleepUntil (s.clock + milliseconds)

/-- The state with an earlier clock, at which something else goes on beside a process. -/
def rewound (s : State) (clock : Nat) : State := { s.noteWork with clock := clock }

/-- The time at which the last job is done that holds one of some open files. -/
def heldUntil (s : State) (files : List Nat) : Nat :=
  s.holds.foldl (fun t h => if files.contains h.file then max t h.finish else t) 0

/-! ## Jobs -/

/-- The state in which a job starts. Nothing waits for it. -/
def forJob (s : State) (job : Nat) : State :=
  { s with job := job, waiting := [], past := [], lateWork := [] }

/-- The work of a job, each piece with the file tree before it. -/
def worksOf (job : Nat) (before : FileTree) : List Snapshot → List LateWork
  | [] => []
  | p :: ps => ⟨job, p.time, before, p.tree⟩ :: worksOf job p.tree ps

/-- The open files after a job has begun: the files of the tree are read and written where they were
by then, and the others as they will be. -/
def filesBeside (begun : OrderedMap Nat OpenFile) (inner : State) : OrderedMap Nat OpenFile :=
  inner.files.mapValues fun i f =>
    match f, begun.find? i with
    | .file .., some f => f
    | f, _ => f

/-- What a job holds that goes on until the time limit. -/
def withEndlessHolds (inner : State) : State :=
  match inner.flow, inner.limit with
  | .expired, some limit => inner.hold true inner.openFiles inner.clock limit
  | _, _ => inner

/-- What is known of a job that was carried out. -/
def childOf (inner : State) : Child :=
  match inner.flow with
  | .killed n => ⟨inner.clock, 128 + n, true⟩
  | _ => ⟨inner.clock, inner.status, false⟩

/-- Goes on beside a job that was carried out, at the time of its start. -/
def besideJob (s inner : State) : State :=
  let done := inner.noteWork.past.reverse
  let begun := ((done.takeWhile (·.time ≤ s.clock)).getLast?).getD ⟨s.clock, s.tree, s.files⟩
  let later := worksOf inner.job begun.tree (done.dropWhile (·.time ≤ s.clock))
  { s with
    tree := begun.tree
    files := filesBeside begun.files inner
    nextFile := inner.nextFile
    holds := inner.withEndlessHolds.holds
    lateWork := later ++ inner.lateWork ++ s.lateWork
    children := s.children.insert inner.job (childOf inner)
    lastProcessId := inner.job
    status := 0 }.catchUp

/-- What is held from now on, if a job ends. A program that it started goes on by itself. -/
def holdAfter? (s : State) (job : Nat) (h : Hold) : Option Hold :=
  if h.job != job || h.finish ≤ s.clock then some h
  else if s.clock ≤ h.start then none
  else if h.own then some { h with finish := s.clock }
  else some h

/-- Ends a job now. What it would have done and written later is not done. -/
def endJob (s : State) (job : Nat) : State :=
  let isUndone (time other : Nat) : Bool := other == job && decide (s.clock < time)
  { s with
    holds := s.holds.filterMap (s.holdAfter? job)
    lateWork := s.lateWork.filter fun w => !isUndone w.time w.job
    files := s.files.mapValues fun _ f =>
      match f with
      | .sink writings => .sink (writings.filter fun w => !isUndone w.time w.job)
      | f => f }

end State

end CoverRun.Shell

import CoverRun.FileTree
import CoverRun.Shell.Script

/-!
# The state of a shell

A shell has variables, functions and parameters, works on a file tree, and holds open files behind
numbered descriptors, of which several may share one open file. When its clock reaches the time
limit, all that is left to do is skipped.
-/

namespace CoverRun.Shell

/-- What a job writes at a time. -/
structure Writing where
  job : Nat
  time : Nat
  bytes : Bytes

/-- What an open descriptor reads from or writes to. What is endless repeats its unit; a sink keeps
what was written, the last writing first. -/
inductive OpenFile where
  | nothing
  | endless (unit : Bytes)
  | source (rest : Bytes)
  | sink (writings : List Writing)
  | file (loc : Location) (offset : Nat) (appending readable writable : Bool)

/-- How a command leaves off: in order, out of so many loops or back to their conditions, out of a
function, out of the shell, by a signal, or at the time limit. -/
inductive Flow where
  | onward
  | breaking (loops : Nat)
  | continuing (loops : Nat)
  | returning
  | exiting
  | killed (signal : Nat)
  | expired
deriving DecidableEq, Repr

/-- A variable, whether programs that are started get it, and whether it is to stay as it is. -/
structure Variable where
  value : Text
  exported : Bool
  constant : Bool

/-- A command in the background: the time at which it ends, its status, and whether a signal is to
blame. -/
structure Child where
  finish : Nat
  status : Nat
  signalled : Bool

/-- A job, or a program that it started, holds an open file from one time to another. -/
structure Hold where
  job : Nat
  own : Bool
  file : Nat
  start : Nat
  finish : Nat

/-- The file tree and the open files at a time. -/
structure Snapshot where
  time : Nat
  tree : FileTree
  files : OrderedMap Nat OpenFile

/-- The file tree before and after what a job does at a time that has not yet come. -/
structure LateWork where
  job : Nat
  time : Nat
  before : FileTree
  after : FileTree

/-- The state of a shell. Its options are letters. A trap is what to carry out at a signal, or at
the end of the shell under the number zero; signals that came and have one are `pending`. Each
function that is being carried out has a frame of the variables it made local, with what they were
before. The `source` is the builtin that reads commands, `loops` how many loops go on. The `job` is
the command in the background that is carried out, or zero; `waiting` are the open files of the
processes that wait for this one; `past` is what the job has done by the times at which it slept,
the last first. -/
structure State where
  tree : FileTree
  cwd : Location
  bindings : OrderedMap String Variable
  functions : OrderedMap String Command
  name : Text
  parameters : List Text
  status : Nat
  processId : Nat
  lastProcessId : Nat
  descriptors : OrderedMap Nat Nat
  files : OrderedMap Nat OpenFile
  nextFile : Nat
  clock : Nat
  job : Nat
  waiting : List Nat
  holds : List Hold
  past : List Snapshot
  lateWork : List LateWork
  children : OrderedMap Nat Child
  limit : Option Nat
  line : Nat
  source : Text
  loops : Nat
  options : List Char
  traps : OrderedMap Nat Text
  pending : List Nat
  frames : List (List (String × Option Variable))
  flow : Flow

namespace State

/-- The state with a status. -/
def withStatus (s : State) (n : Nat) : State := { s with status := n }

/-- Whether commands are still carried out in order. -/
def isOnward (s : State) : Bool := s.flow == .onward

/-- Whether an option is set. -/
def has (s : State) (option : Char) : Bool := s.options.contains option

/-! ## Variables -/

/-- The value of a variable. -/
def lookUp? (s : State) (name : Text) : Option Text :=
  (s.bindings.find? (String.ofList name)).map (·.value)

/-- Whether a variable is to stay as it is. -/
def isConstant (s : State) (name : Text) : Bool :=
  (s.bindings.find? (String.ofList name)).any (·.constant)

/-- Sets a variable. -/
def setVariable (s : State) (name value : Text) : State :=
  let key := String.ofList name
  let before := (s.bindings.find? key).getD ⟨[], s.has 'a', false⟩
  { s with bindings := s.bindings.insert key { before with value := value } }

/-- Gives a variable back what it was before. -/
def restoreVariable (s : State) (key : String) (before : Option Variable) : State :=
  match before with
  | some v => { s with bindings := s.bindings.insert key v }
  | none => { s with bindings := s.bindings.erase key }

/-- Lets the programs that are started get a variable. -/
def exportVariable (s : State) (name : Text) : State :=
  let key := String.ofList name
  match s.bindings.find? key with
  | some v => { s with bindings := s.bindings.insert key { v with exported := true } }
  | none => s

/-- Drops a variable. -/
def unsetVariable (s : State) (name : Text) : State :=
  { s with bindings := s.bindings.erase (String.ofList name) }

/-- The variables that programs get. -/
def exported (s : State) : OrderedMap String Variable := s.bindings.filter fun _ v => v.exported

/-! ## Descriptors -/

/-- The open file behind a descriptor. -/
def openFile? (s : State) (descriptor : Nat) : Option (Nat × OpenFile) :=
  (s.descriptors.find? descriptor).bind fun i => (s.files.find? i).map fun f => (i, f)

/-- Opens a file behind a descriptor. -/
def openAt (s : State) (descriptor : Nat) (f : OpenFile) : State :=
  { s with
    descriptors := s.descriptors.insert descriptor s.nextFile
    files := s.files.insert s.nextFile f
    nextFile := s.nextFile + 1 }

/-- Replaces an open file. -/
def setFile (s : State) (i : Nat) (f : OpenFile) : State :=
  { s with files := s.files.insert i f }

/-- Lets a descriptor share the open file of another one. -/
def shareDescriptor (s : State) (descriptor other : Nat) : Option State :=
  (s.descriptors.find? other).map fun i =>
    { s with descriptors := s.descriptors.insert descriptor i }

/-- Closes a descriptor. -/
def closeDescriptor (s : State) (descriptor : Nat) : State :=
  { s with descriptors := s.descriptors.erase descriptor }

/-- The content of a file with bytes written at an offset. -/
def overwrite (content : Bytes) (offset : Nat) (bytes : Bytes) : Bytes :=
  content.take offset ++ List.replicate (offset - content.length) 0 ++ bytes ++
    content.drop (offset + bytes.length)

/-- The content of the file at a location. -/
def contentAt (s : State) (loc : Location) : Bytes :=
  match s.tree.find? loc with
  | some (.file content) => content
  | _ => []

/-- Writes bytes to a descriptor. What goes to a closed one is lost. -/
def emit (s : State) (descriptor : Nat) (bytes : Bytes) : State :=
  match s.openFile? descriptor with
  | some (i, .sink writings) => s.setFile i (.sink (⟨s.job, s.clock, bytes⟩ :: writings))
  | some (i, .file loc offset appending readable true) =>
    match s.tree.find? loc with
    | some (.file content) =>
      let start := if appending then content.length else offset
      let s := { s with tree := s.tree.place loc (.file (overwrite content start bytes)) }
      s.setFile i (.file loc (start + bytes.length) appending readable true)
    | _ => s
  | _ => s

/-- Writes a text to the standard output. -/
def put (s : State) (t : Text) : State := s.emit 1 t.bytes

/-- Writes a line to the standard error output. -/
def complain (s : State) (t : Text) : State := s.emit 2 (t ++ ['\n']).bytes

/-- How a shell begins its messages; a builtin that speaks is named. -/
def messageStart (s : State) (builtin : Text) : Text :=
  s.name ++ ": ".toList ++ Text.ofNat s.line ++ ": ".toList ++
    if builtin = [] then [] else builtin ++ ": ".toList

/-- Writes a message of the shell itself. -/
def report (s : State) (t : String) : State :=
  s.complain (s.messageStart s.source ++ Text.ofString t)

/-- Writes a message of a builtin. -/
def reportAs (s : State) (builtin t : String) : State :=
  s.complain (s.messageStart builtin.toList ++ Text.ofString t)

/-- Ends the shell with a status after a message. -/
def abandon (s : State) (message : String) (status : Nat) : State :=
  { s.report message with status := status, flow := .exiting }

/-- Ends the shell after a message of a builtin. -/
def abandonAs (s : State) (builtin message : String) : State :=
  { s.reportAs builtin message with status := 2, flow := .exiting }

/-- Takes up to so many bytes from a descriptor. -/
def take (s : State) (descriptor count : Nat) : Bytes × State :=
  match s.openFile? descriptor with
  | some (i, .source rest) => (rest.take count, s.setFile i (.source (rest.drop count)))
  | some (_, .endless unit) => ((List.replicate count unit).flatten.take count, s)
  | some (i, .file loc offset appending true writable) =>
    let bytes := ((s.contentAt loc).drop offset).take count
    (bytes, s.setFile i (.file loc (offset + bytes.length) appending true writable))
  | _ => ([], s)

/-- Takes all bytes from a descriptor, but none from one that is endless. -/
def takeAll (s : State) (descriptor : Nat) : Bytes × State :=
  match s.openFile? descriptor with
  | some (_, .source rest) => s.take descriptor rest.length
  | some (_, .file loc ..) => s.take descriptor (s.contentAt loc).length
  | _ => ([], s)

/-! ## Files -/

/-- The path of a text. -/
def pathOf (t : Text) : Path := ⟨t.bytes⟩

/-- The files that are there without standing in the tree. -/
def deviceOf? (p : Path) : Option OpenFile :=
  match p.text with
  | "/dev/null" => some .nothing
  | "/dev/zero" => some (.endless [0])
  | _ => none

/-- The descriptor that a name of a device stands for. -/
def descriptorOf? (t : Text) : Option Nat :=
  match String.ofList t with
  | "/dev/stdin" => some 0
  | "/dev/stdout" => some 1
  | "/dev/stderr" => some 2
  | _ => none

/-- Opens a file for reading. -/
def openInput (s : State) (p : Path) : Except FileError OpenFile :=
  match deviceOf? p with
  | some f => .ok f
  | none =>
    match s.tree.resolve s.cwd p .followed with
    | .ok (.present loc _) => .ok (.file loc 0 false true false)
    | .ok (.absent ..) => .error .notFound
    | .error e => .error e

/-- Opens a file for writing, empty or at its end. -/
def openOutput (s : State) (p : Path) (appending readable : Bool) :
    Except FileError (OpenFile × FileTree) :=
  match deviceOf? p with
  | some f => .ok (f, s.tree)
  | none =>
    let kept := (s.tree.read s.cwd p).toOption.getD []
    match s.tree.write s.cwd p (if appending || readable then kept else []) with
    | .error e => .error e
    | .ok tree =>
      match tree.locate s.cwd p with
      | .error e => .error e
      | .ok loc => .ok (.file loc 0 appending readable true, tree)

end State

/-- The wording of a failure without its number. -/
def errorText (e : FileError) : String :=
  match e with
  | .notFound => "No such file or directory"
  | .permissionDenied => "Permission denied"
  | .alreadyExists => "File exists"
  | .notDirectory => "Not a directory"
  | .isDirectory => "Is a directory"
  | .nameTooLong => "File name too long"
  | .tooManyLinks => "Too many levels of symbolic links"
  | e => e.message

end CoverRun.Shell

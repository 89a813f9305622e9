import CoverRun.Process
import CoverRun.Shell.Interpreter

/-!
# The shell as a machine

Launches are carried out by the interpreter of scripts and its utilities on the file tree alone.
Programs are found by their names; files of the tree are no programs.
-/

namespace CoverRun.Shell

/-- The number of the process that is started. -/
def firstProcessId : Nat := 4100

/-- The steps after which a process counts as endless. -/
def stepLimit : Nat := 1000000

/-- The variables that every process has. -/
def standardVariables : OrderedMap String String :=
  OrderedMap.ofList [("HOME", "/root"), ("LANG", "C.UTF-8"),
    ("PATH", "/usr/local/sbin:/usr/local/bin:/usr/sbin:/usr/bin:/sbin:/bin")]

/-- The directories in which programs stand. -/
def programDirectories : List String := ["/bin", "/usr/bin", "/bin/", "/usr/bin/"]

/-- Variables with further ones over them. -/
def layered (below above : OrderedMap String String) : OrderedMap String String :=
  above.entries.foldl (fun m e => m.insert e.1 e.2) below

/-- The variables that a shell takes from its process: those whose names are names. -/
def taken (bindings : OrderedMap String String) : OrderedMap String Variable :=
  (bindings.entries.map fun e => Text.ofString (e.1 ++ "=" ++ e.2)).foldl
    (fun (m : OrderedMap String Variable) t =>
      let name := t.takeWhile (· != '=')
      if Text.isName name then
        m.insert (String.ofList name) ⟨(t.dropWhile (· != '=')).drop 1, true, false⟩
      else m) OrderedMap.empty

/-- Whether a launch has a NUL character where none may be. -/
def hasNul (launch : Launch) (bindings : OrderedMap String String) : Bool :=
  (launch.program :: launch.arguments ++ bindings.entries.flatMap fun e => [e.1, e.2]).any fun s =>
    s.toList.contains '\x00'

/-- Why a program cannot be started. -/
def obstacle? (launch : Launch) (cwd : Location) (bindings : OrderedMap String String)
    (t : FileTree) : Option FileError :=
  let program := Text.ofString launch.program
  let name := Interpreter.programName program
  if program.contains '/' then
    if name != launch.program && Interpreter.isProgram name then none
    else
      match t.resolve cwd launch.program .followed with
      | .ok (.present ..) => some .permissionDenied
      | .ok (.absent ..) => some .notFound
      | .error e => some e
  else
    let path := ((bindings.find? "PATH").getD "").splitOn ":"
    if Interpreter.isProgram launch.program && path.any programDirectories.contains then none
    else some .notFound

/-- The state in which a process starts. -/
def startState (launch : Launch) (cwd : Location) (bindings : OrderedMap String String)
    (t : FileTree) : State :=
  let s : State := {
    tree := t
    cwd := cwd
    bindings := taken bindings
    functions := OrderedMap.empty
    name := Text.ofString launch.program
    parameters := []
    status := 0
    processId := firstProcessId
    lastProcessId := 0
    descriptors := OrderedMap.empty
    files := OrderedMap.empty
    nextFile := 0
    clock := 0
    job := 0
    waiting := []
    holds := []
    past := []
    lateWork := []
    children := OrderedMap.empty
    limit := launch.limit
    line := 1
    source := []
    loops := 0
    options := []
    traps := OrderedMap.empty
    pending := []
    frames := []
    flow := .onward }
  let s := ((s.openAt 0 (.source launch.input)).openAt 1 (.sink [])).openAt 2 (.sink [])
  (s.setVariable "PWD".toList (Text.ofBytes cwd.path.bytes)).exportVariable "PWD".toList

/-- The time at which a process has ended and no job holds its standard output or its standard error
output any more. -/
def finishOf (s : State) : Nat := max s.clock (s.heldUntil [1, 2])

/-- Whether that does not come before the time limit. -/
def outlasts (s : State) : Bool := s.flow == .expired || s.limit.any (· ≤ finishOf s)

/-- How a process ended. -/
def endingOf (s : State) : Ending :=
  if outlasts s then .expired
  else
    match s.flow with
    | .killed _ => .signalled
    | _ => .exited (s.status % 256)

/-- What a process left behind, once its jobs have done what they do up to the end. -/
def executionOf (s : State) : Execution :=
  let ending := endingOf s
  let finish := finishOf s
  let isLate (time : Nat) : Bool := !outlasts s && finish < time
  let s := { s with clock := finish }.catchUp
  ⟨s.tree, s.writtenUnless isLate 1, s.writtenUnless isLate 2, ending⟩

/-- Carries out a program from its start. -/
def carryOut (launch : Launch) (s : State) : State :=
  let program := Text.ofString launch.program
  let arguments := launch.arguments.map Text.ofString
  let name := Interpreter.programName program
  if name = "sh" ∨ name = "dash" then
    Interpreter.runShell stepLimit program arguments { s with processId := firstProcessId - 1 }
  else Interpreter.runProgram stepLimit program arguments s

/-- Carries out launches by the interpreter, with variables that processes inherit. -/
def machine (inherited : OrderedMap String String) : Machine := fun launch t =>
  let bindings := layered (layered standardVariables inherited) launch.environment
  match t.directory? [] launch.directory with
  | none => .error .notFound
  | some cwd =>
    if hasNul launch bindings then .error .nulInCommand
    else
      match obstacle? launch cwd bindings t with
      | some e => .error e
      | none =>
        if launch.limit = some 0 then .ok ⟨t, [], [], .expired⟩
        else
          .ok (executionOf (carryOut launch (startState launch cwd bindings t)))

end CoverRun.Shell

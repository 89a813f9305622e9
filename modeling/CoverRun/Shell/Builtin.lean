import CoverRun.Shell.Expansion
import CoverRun.Shell.Utility

/-!
# Builtins

What a shell does itself, because it changes the shell: its variables, options, parameters, traps
and loops, its working directory and its children.
-/

namespace CoverRun.Shell.Builtin

/-! ## Options -/

/-- The letters that options can have. -/
def letters : Text := "abCefIimnsuvVxE".toList

/-- The letter of an option by its name. -/
def letter? (name : Text) : Option Char :=
  match String.ofList name with
  | "allexport" => some 'a'
  | "notify" => some 'b'
  | "noclobber" => some 'C'
  | "errexit" => some 'e'
  | "noglob" => some 'f'
  | "ignoreeof" => some 'I'
  | "monitor" => some 'm'
  | "noexec" => some 'n'
  | "nounset" => some 'u'
  | "verbose" => some 'v'
  | "xtrace" => some 'x'
  | _ => none

/-- Options, what is left of the arguments, and whether a double dash came before that. -/
structure Options where
  set : List Char
  rest : List Text
  ended : Bool

/-- Sets options by the first arguments; the failure is the one that is no option. -/
def readOptions (allowed : Text) (set : List Char) : List Text → Except Text Options
  | ['-', '-'] :: rest => .ok ⟨set, rest, true⟩
  | ['-', 'o'] :: name :: rest =>
    match letter? name with
    | some c => readOptions allowed (c :: set) rest
    | none => .error ("-o ".toList ++ name)
  | ['+', 'o'] :: name :: rest =>
    match letter? name with
    | some c => readOptions allowed (set.filter (· != c)) rest
    | none => .error ("+o ".toList ++ name)
  | ('-' :: c :: cs) :: rest =>
    match (c :: cs).find? fun d => !allowed.contains d with
    | some d => .error ['-', d]
    | none => readOptions allowed (c :: cs ++ set) rest
  | ('+' :: c :: cs) :: rest =>
    match (c :: cs).find? fun d => !allowed.contains d with
    | some d => .error ['+', d]
    | none => readOptions allowed (set.filter fun d => !(c :: cs).contains d) rest
  | rest => .ok ⟨set, rest, false⟩

/-- Sets options and parameters. -/
def set (arguments : List Text) (s : State) : State :=
  match readOptions letters s.options arguments with
  | .error t => s.abandonAs "set" ("Illegal option " ++ Text.string t)
  | .ok o =>
    { s with
      options := o.set
      parameters := if o.ended || !o.rest.isEmpty then o.rest else s.parameters
      status := 0 }

/-! ## Variables -/

/-- A name with the value that an argument gives it, if it gives one. -/
def assignmentOf (t : Text) : Text × Option Text :=
  (t.takeWhile (· != '='), (t.dropWhile (· != '=')).tail?)

/-- Applies a function to the names in arguments and their values; a name that cannot be changed
ends the shell. -/
def eachAssignment (builtin : String) (f : State → Text → Option Text → State)
    (arguments : List Text) (s : State) : State :=
  arguments.foldl (fun s t =>
    let (name, value) := assignmentOf t
    if !s.isOnward then s
    else if !Text.isName name then
      s.abandonAs builtin (Text.string name ++ ": bad variable name")
    else if value.isSome && s.isConstant name then
      s.abandonAs builtin (Text.string name ++ ": is read only")
    else f s name value) (s.withStatus 0)

/-- A variable with the value that is given, if one is. -/
def setGiven (s : State) (name : Text) (value : Option Text) : State :=
  match value with
  | some t => s.setVariable name t
  | none => s

/-- Lets programs get variables, which may be set before. -/
def exportAll : List Text → State → State :=
  eachAssignment "export" fun s name value => (setGiven s name value).exportVariable name

/-- Keeps variables as they are, after they were set if they are to be. -/
def fixAll : List Text → State → State :=
  eachAssignment "readonly" fun s name value =>
    let s := setGiven s name value
    let key := String.ofList name
    let v := (s.bindings.find? key).getD ⟨[], false, false⟩
    { s with bindings := s.bindings.insert key { v with constant := true } }

/-- Gives a function variables of its own. -/
def makeLocal (arguments : List Text) (s : State) : State :=
  match s.frames with
  | [] => s.abandonAs "local" "not in a function"
  | _ =>
    eachAssignment "local" (fun s name value =>
      let key := String.ofList name
      let frames :=
        match s.frames with
        | frame :: frames => ((key, s.bindings.find? key) :: frame) :: frames
        | [] => []
      setGiven { s with frames := frames } name value) arguments s

/-- Drops variables or functions. -/
def unset (arguments : List Text) (s : State) : State :=
  let (options, names) := Utility.cutOptions arguments
  names.foldl (fun s name =>
    if !s.isOnward then s
    else if Utility.hasLetter 'f' options then
      { s with functions := s.functions.erase (String.ofList name) }
    else if s.isConstant name then s.abandonAs "unset" (Text.string name ++ ": is read only")
    else s.unsetVariable name) (s.withStatus 0)

/-! ## Reading -/

/-- Bytes up to a line feed, whether there is one, and what follows it. -/
def cutLine (bytes : Bytes) : Bytes × Bool × Bytes :=
  let line := bytes.takeWhile (· != 0x0A)
  (line, line.length < bytes.length, bytes.drop (line.length + 1))

/-- Takes a line from a descriptor, and says whether it was finished. -/
def takeLine (s : State) (descriptor : Nat) : Bytes × Bool × State :=
  match s.openFile? descriptor with
  | some (i, .source rest) =>
    let (line, finished, rest) := cutLine rest
    (line, finished, s.setFile i (.source rest))
  | some (i, .file loc offset appending true writable) =>
    let bytes := (s.contentAt loc).drop offset
    let (line, finished, rest) := cutLine bytes
    (line, finished,
      s.setFile i (.file loc (offset + (bytes.length - rest.length)) appending true writable))
  | some (_, .endless unit) => ((cutLine unit).1, true, s)
  | _ => ([], false, s)

/-- The parts of a word, cut at separators, for reading into variables. The last part keeps what
is left. -/
def cutForNames (separators : Text) : Nat → Text → List Text
  | 0, _ => []
  | n + 1, t =>
    let blank := Atom.isBlankSeparator separators
    let t := t.dropWhile blank
    if n = 0 then [(t.reverse.dropWhile blank).reverse]
    else
      let part := t.takeWhile fun c => !separators.contains c
      let rest := (t.drop part.length).dropWhile blank
      let rest :=
        match rest with
        | c :: cs => if separators.contains c && !blank c then cs else c :: cs
        | [] => []
      part :: cutForNames separators n rest

/-- A line without the backslashes that quote in it. -/
def dropBackslashes : Text → Text
  | '\\' :: c :: cs => c :: dropBackslashes cs
  | c :: cs => c :: dropBackslashes cs
  | [] => []

/-- Reads a line into variables. -/
def read (arguments : List Text) (s : State) : State :=
  let (options, names) := Utility.cutOptions arguments
  match names.find? fun name => !Text.isName name || s.isConstant name with
  | some name =>
    let why := if Text.isName name then ": is read only" else ": bad variable name"
    (s.reportAs "read" (Text.string name ++ why)).withStatus 2
  | none =>
    if names.isEmpty then (s.reportAs "read" "arg count").withStatus 2
    else
      let (line, finished, s) := takeLine s 0
      let t := Text.ofBytes line
      let t := if Utility.hasLetter 'r' options then t else dropBackslashes t
      let parts := cutForNames s.separators names.length t
      let s := (names.zip parts).foldl (fun s p => s.setVariable p.1 p.2) s
      s.withStatus (if finished then 0 else 1)

/-! ## Signals -/

/-- The names of signals in the order of their numbers, from one on. -/
def signalNames : List String :=
  ["HUP", "INT", "QUIT", "ILL", "TRAP", "ABRT", "BUS", "FPE", "KILL", "USR1", "SEGV", "USR2",
    "PIPE", "ALRM", "TERM", "STKFLT", "CHLD", "CONT", "STOP", "TSTP", "TTIN", "TTOU", "URG",
    "XCPU", "XFSZ", "VTALRM", "PROF", "WINCH", "POLL", "PWR", "SYS"]

/-- The number of a signal by its name or number; the end of a shell has zero. -/
def signal? (t : Text) : Option Nat :=
  let name := String.ofList (t.map Char.toUpper)
  if name = "EXIT" then some 0
  else
    match signalNames.idxOf? name with
    | some i => some (i + 1)
    | none => (Text.natural? t).filter (· < 65)

/-- The name of a signal. -/
def signalName (n : Nat) : String :=
  if n = 0 then "EXIT" else (signalNames[n - 1]?).getD (toString n)

/-- Whether a process goes on after a signal that it does nothing about. -/
def isHarmless (signal : Nat) : Bool := [0, 17, 18, 23, 28].contains signal

/-- Whether a signal works whatever a process does about it. -/
def isCertain (signal : Nat) : Bool := signal == 9 || signal == 19

/-- What a shell shows of a process that a signal ended. -/
def signalText (n : Nat) : String :=
  match n with
  | 1 => "Hangup"
  | 3 => "Quit"
  | 4 => "Illegal instruction"
  | 5 => "Trace/breakpoint trap"
  | 6 => "Aborted"
  | 7 => "Bus error"
  | 8 => "Floating point exception"
  | 9 => "Killed"
  | 10 => "User defined signal 1"
  | 11 => "Segmentation fault"
  | 12 => "User defined signal 2"
  | 14 => "Alarm clock"
  | 15 => "Terminated"
  | n => "Signal " ++ toString n

/-- A shell that gets a signal. -/
def receive (signal : Nat) (s : State) : State :=
  match s.traps.find? signal with
  | some action =>
    if isCertain signal then { s with flow := .killed signal }
    else if action = [] then s
    else { s with pending := s.pending ++ [signal] }
  | none => if isHarmless signal then s else { s with flow := .killed signal }

/-- A child gets a signal, and ends now unless it has just ended. -/
def strike (signal id : Nat) (c : Child) (s : State) : State :=
  if c.finish = s.clock || isHarmless signal then s
  else { s.endJob id with children := s.children.insert id ⟨s.clock, 128 + signal, true⟩ }

/-- Sends a signal to processes: the shell itself, its group or its children. -/
def send (signal : Nat) (targets : List Text) (s : State) : State :=
  targets.foldl (fun s t =>
    let own := Text.ofNat s.processId
    let child := (Text.natural? t).bind fun id =>
      ((s.children.find? id).filter (s.clock ≤ ·.finish)).map fun c => (id, c)
    if t = own ∨ t = ['0'] ∨ t = '-' :: own then receive signal s
    else
      match child with
      | some (id, c) => strike signal id c s
      | none =>
        if (Text.integer? t).isSome then
          ((s.reportAs "kill" "No such process").complain []).withStatus 1
        else (s.reportAs "kill" ("Illegal number: " ++ Text.string t)).withStatus 2)
    (s.withStatus 0)

/-- Sends a signal that its arguments name. -/
def kill (arguments : List Text) (s : State) : State :=
  let named (name : Text) (targets : List Text) : State :=
    match signal? name with
    | some n => send n targets s
    | none =>
      (s.reportAs "kill" ("Illegal option -" ++ String.ofList (name.take 1))).withStatus 2
  match arguments with
  | ['-', 's'] :: name :: targets =>
    match signal? name with
    | some n => send n targets s
    | none =>
      (s.reportAs "kill" ("invalid signal number or name: " ++ Text.string name)).withStatus 2
  | ['-', '-'] :: targets => send 15 targets s
  | ('-' :: name) :: targets => named name targets
  | targets => send 15 targets s

/-- The traps as commands that would set them. -/
def trapLines (s : State) : Text :=
  s.traps.entries.flatMap fun e =>
    "trap -- '".toList ++ e.2 ++ "' ".toList ++ (signalName e.1).toList ++ ['\n']

/-- Sets what is carried out at signals, or lets them work as usual. -/
def trap (arguments : List Text) (s : State) : State :=
  let arguments := if arguments.head? = some ['-', '-'] then arguments.drop 1 else arguments
  match arguments with
  | [] => s.put (trapLines s)
  | first :: rest =>
    let resets := rest.isEmpty || (signal? first).isSome || first == ['-']
    let names := if rest.isEmpty || (signal? first).isSome then first :: rest else rest
    names.foldl (fun s name =>
      if s.status != 0 then s
      else
        match signal? name with
        | none => (s.complain ("trap: ".toList ++ name ++ ": bad trap".toList)).withStatus 1
        | some n =>
          { s with traps := if resets then s.traps.erase n else s.traps.insert n first })
      (s.withStatus 0)

/-- A shell that waited for a child. -/
def await (s : State) (c : Child) : State :=
  let s := (s.sleepUntil c.finish).withStatus c.status
  if c.signalled then s.complain (signalText (c.status - 128)).toList else s

/-- Waits until children have ended: all of them, or those that are named. -/
def wait (arguments : List Text) (s : State) : State :=
  match arguments with
  | [] =>
    let finish := s.children.entries.foldl (fun t e => max t e.2.finish) s.clock
    { s.sleepUntil finish with children := OrderedMap.empty, status := 0 }
  | ids =>
    ids.foldl (fun s t =>
      match (Text.natural? t).bind s.children.find? with
      | some c => await s c
      | none => s.withStatus 127) s

/-! ## Going on elsewhere -/

/-- Applies a function to the number that an argument writes, or to a usual one; what is no number
ends the shell. -/
def withCount (builtin : String) (usual : Nat) (f : Nat → State → State) (arguments : List Text)
    (s : State) : State :=
  match arguments with
  | [] => f usual s
  | t :: _ =>
    match (Text.natural? t).filter (· ≤ 0x7fffffff) with
    | some n => f n s
    | none => s.abandonAs builtin ("Illegal number: " ++ Text.string t)

/-- Leaves loops by a flow, if there are any. -/
def leaveLoops (builtin : String) (flow : Nat → Flow) (arguments : List Text) (s : State) : State :=
  withCount builtin 1 (fun n s =>
    if n = 0 then s.abandonAs builtin "Illegal number: 0"
    else if s.loops = 0 then s.withStatus 0
    else { s with status := 0, flow := flow (min n s.loops) }) arguments s

/-- Drops the first parameters. -/
def shift : List Text → State → State :=
  withCount "shift" 1 fun n s =>
    if s.parameters.length < n then s.abandonAs "shift" "can't shift that many"
    else { s with parameters := s.parameters.drop n, status := 0 }

/-- Changes the working directory. -/
def changeDirectory (arguments : List Text) (s : State) : State :=
  let arguments := if arguments.head? = some ['-', '-'] then arguments.drop 1 else arguments
  let back := arguments.head? = some ['-']
  let t :=
    match arguments with
    | [] => (s.lookUp? "HOME".toList).getD ['/']
    | [] :: _ => ['.']
    | t :: _ => if back then (s.lookUp? "OLDPWD".toList).getD ['.'] else t
  match s.tree.directory? s.cwd (State.pathOf t) with
  | some loc =>
    let before := Text.ofBytes s.cwd.path.bytes
    let after := Text.ofBytes loc.path.bytes
    let s := { s with cwd := loc }
    let s := (s.setVariable "OLDPWD".toList before).setVariable "PWD".toList after
    (if back then s.put (after ++ ['\n']) else s).withStatus 0
  | none => (s.reportAs "cd" ("can't cd to " ++ Text.string t)).withStatus 2

/-- What a builtin does that changes the shell itself. -/
def ofName? (name : String) : Option (List Text → State → State) :=
  match name with
  | "exit" => some fun ts s =>
    withCount "exit" s.status (fun n s => { s with status := n % 256, flow := .exiting }) ts s
  | "return" => some fun ts s =>
    withCount "return" s.status (fun n s => { s with status := n % 256, flow := .returning }) ts s
  | "break" => some (leaveLoops name .breaking)
  | "continue" => some (leaveLoops name .continuing)
  | "shift" => some shift
  | "set" => some set
  | "unset" => some unset
  | "export" => some exportAll
  | "readonly" => some fixAll
  | "local" => some makeLocal
  | "cd" => some changeDirectory
  | "read" => some read
  | "kill" => some kill
  | "wait" => some wait
  | "trap" => some trap
  | "umask" => some fun ts s => (if ts.isEmpty then s.put "0022\n".toList else s).withStatus 0
  | "alias" => some fun _ s => s.withStatus 0
  | _ => none

end CoverRun.Shell.Builtin

import CoverRun.Shell.Builtin
import CoverRun.Shell.Search

/-!
# Carrying out scripts

Commands change the state of a shell one after another. A pipeline carries out its commands from
left to right, each with all that the one before wrote; a job in the background is carried out at
once, on a clock of its own. Fuel bounds the steps; when it is used up, the time limit is
reached.
-/

namespace CoverRun.Shell

namespace State

/-- The state in which a subshell starts: signals with a trap work as usual, unless they are
ignored. -/
def forSubshell (s : State) : State :=
  { s with
    traps := s.traps.filter fun _ action => action == []
    pending := []
    children := OrderedMap.empty }

/-- Goes on after a subshell: the files and the clock are shared, the status is the subshell's. -/
def afterSubshell (s inner : State) : State :=
  { s with
    tree := inner.tree
    files := inner.files
    nextFile := inner.nextFile
    clock := inner.clock
    holds := inner.holds
    past := inner.past
    lateWork := inner.lateWork
    status := inner.status
    flow :=
      match inner.flow with
      | .expired => .expired
      | .killed n => .killed n
      | _ => .onward }

/-- The state after a process that reads until a time what is written to it meanwhile. -/
def readUntil (inner : State) (start : Nat) (input : Option (OpenFile × Nat)) : State :=
  match input with
  | some (_, finish) => inner.hold inner.waiting.isEmpty inner.openFiles start finish
  | none => inner

/-- What was written to the open file with a number, in the order of time, unless it was too
late. -/
def writtenUnless (s : State) (isLate : Nat → Bool) (i : Nat) : Bytes :=
  match s.files.find? i with
  | some (.sink writings) =>
    let kept := writings.filter fun w => !isLate w.time
    (kept.reverse.mergeSort fun a b => a.time ≤ b.time).flatMap (·.bytes)
  | _ => []

/-- What was written to the open file with a number, in the order of time. -/
def written (s : State) (i : Nat) : Bytes := s.writtenUnless (fun _ => false) i

/-- Ends the shell if it stops at failures and a command that was not tested failed. -/
def stopAtFailure (s : State) (tested : Bool) : State :=
  if s.has 'e' && !tested && s.isOnward && s.status != 0 then { s with flow := .exiting }
  else s

end State

namespace Interpreter

/-- The name of a program without the directory where programs stand. -/
def programName (t : Text) : String :=
  match t with
  | '/' :: 'b' :: 'i' :: 'n' :: '/' :: name => Text.string name
  | '/' :: 'u' :: 's' :: 'r' :: '/' :: 'b' :: 'i' :: 'n' :: '/' :: name => Text.string name
  | _ => Text.string t

/-- The programs that carry out other programs or scripts. -/
def isLauncher (name : String) : Bool :=
  ["sh", "dash", "env", "kill", "nohup", "setsid", "timeout"].contains name

/-- What a program does that can be found by its name, unless it carries out other programs. -/
def program? (name : String) : Option (List Text → State → State) :=
  (Utility.program? name).or (Search.program? name)

/-- Whether a program can be found by its name. -/
def isProgram (name : String) : Bool := isLauncher name || (program? name).isSome

/-- Whether a name is that of a builtin. -/
def isBuiltin (name : String) : Bool :=
  Script.special.contains name || name == "command" || (Builtin.ofName? name).isSome ||
    (Utility.builtin? name).isSome

/-- The variables with assignments that programs get. -/
def withAssignments (s : State) (assignments : List (Text × Text)) : State :=
  assignments.foldl (fun s a => (s.setVariable a.1 a.2).exportVariable a.1) s

/-- Gives the variables of assignments back what they were before. -/
def withoutAssignments (before s : State) (assignments : List (Text × Text)) : State :=
  assignments.foldl (fun s a =>
    let key := String.ofList a.1
    s.restoreVariable key (before.bindings.find? key)) s

/-- The state of a new shell with a name, parameters and the variables that programs get. -/
def newShell (s : State) (name : Text) (parameters : List Text) (options : List Char) : State :=
  { s.forSubshell with
    bindings := s.exported
    functions := OrderedMap.empty
    name := name
    parameters := parameters
    status := 0
    processId := s.processId + 1
    lastProcessId := 0
    line := 1
    source := []
    loops := 0
    options := options
    frames := []
    flow := .onward }

/-- Opens the file of a redirection behind its descriptor. -/
def redirect (r : Redirection) (target : Text) (s : State) : Except String State :=
  let p := State.pathOf target
  let write := fun (appending readable : Bool) =>
    match s.openOutput p appending readable with
    | .ok (f, tree) =>
      let s := { s with tree := tree }.openAt r.descriptor f
      .ok (if appending || readable then s else s.noteWork)
    | .error .notFound => .error ("cannot create " ++ p.text ++ ": Directory nonexistent")
    | .error e => .error ("cannot create " ++ p.text ++ ": " ++ errorText e)
  let share := fun (i : Option Nat) =>
    match i.bind (s.shareDescriptor r.descriptor) with
    | some s => .ok s
    | none => .error (p.text ++ ": Bad file descriptor")
  let standsThere := match s.tree.resolve s.cwd p .followed with
    | .ok (.present _ (.file _)) => true
    | _ => false
  match r.kind, State.descriptorOf? target with
  | .document, _ => .ok (s.openAt r.descriptor (.source target.bytes))
  | .duplicate, _ =>
    if target = ['-'] then .ok (s.closeDescriptor r.descriptor) else share (Text.natural? target)
  | _, some i => share (some i)
  | .input, none =>
    match s.openInput p with
    | .ok f => .ok (s.openAt r.descriptor f)
    | .error .notFound => .error ("cannot open " ++ p.text ++ ": No such file")
    | .error e => .error ("cannot open " ++ p.text ++ ": " ++ errorText e)
  | .output, none =>
    if s.has 'C' && standsThere then .error ("cannot create " ++ p.text ++ ": File exists")
    else write false false
  | .overwrite, none => write false false
  | .append, none => write true false
  | .both, none => write false true

/-- Goes on after a loop's body: whether the loop goes on, and the state. -/
def afterBody (s : State) : Bool × State :=
  match s.flow with
  | .onward => (true, s)
  | .breaking n => (false, { s with flow := if n ≤ 1 then .onward else .breaking (n - 1) })
  | .continuing n =>
    if n ≤ 1 then (true, { s with flow := .onward })
    else (false, { s with flow := .continuing (n - 1) })
  | _ => (false, s)

/-- Goes on after another shell: its end by a signal shows in the status. -/
def afterShell (s inner : State) : State :=
  let s' := s.afterSubshell inner
  match inner.flow with
  | .killed n =>
    ({ s' with flow := .onward }.complain (Builtin.signalText n).toList).withStatus (128 + n)
  | _ => s'

/-- What a shell shows of a command before it is carried out. -/
def showCommand (assignments : List (Text × Text)) (texts : List Text) (s : State) : State :=
  if s.has 'x' then
    s.complain ("+ ".toList ++
      Utility.spaced (assignments.map (fun a => a.1 ++ '=' :: a.2) ++ texts))
  else s

/-- Whether a command by this name is a program that can take the place of a shell. -/
def takesPlace (s : State) (t : Text) : Bool :=
  (s.functions.find? (Text.string t)).isNone && !isBuiltin (Text.string t) && !s.traps.contains 0

/-- The complaint about a program that cannot be started, and its status. -/
def notStarted (t : Text) (s : State) : State :=
  if t.contains '/' && s.tree.exists? s.cwd (State.pathOf t) then
    (s.report (Text.string t ++ ": Permission denied")).withStatus 126
  else if t = [] then (s.report ": Permission denied").withStatus 127
  else (s.report (Text.string t ++ ": not found")).withStatus 127

mutual

/-- The atoms of a word. -/
def expand : Nat → Word → State → List Atom × State
  | 0, _, s => ([], { s with flow := .expired })
  | _ + 1, [], s => ([], s)
  | fuel + 1, p :: ps, s =>
    let (atoms, s) := expandPiece fuel p s
    let (rest, s) := expand fuel ps s
    (atoms ++ rest, s)

/-- The atoms of a piece. -/
def expandPiece : Nat → Piece → State → List Atom × State
  | 0, _, s => ([], { s with flow := .expired })
  | fuel + 1, p, s =>
    match p with
    | .text quoted t => (Atom.ofText quoted t, s)
    | .arithmetic quoted source =>
      let (atoms, s) := expandBraced fuel true source s
      if !s.isOnward then ([], s)
      else
        let expression := Atom.text atoms
        match Arithmetic.evaluate (fun name => (s.lookUp? name).getD []) expression with
        | .ok (n, assigned) =>
          (Atom.ofValue quoted (Text.ofInt n),
            assigned.reverse.foldl (fun s a => s.setVariable a.1 (Text.ofInt a.2)) s)
        | .error e => ([], s.abandon (e.message expression) 2)
    | .command quoted source =>
      let i := s.nextFile
      let start := s.asWaiter.forSubshell.openAt 1 (.sink [])
      let inner := leave fuel (runLines fuel (Script.read s.line source) start)
      let s := (s.afterSubshell inner).sleepUntil (inner.heldUntil [i])
      let t := Text.ofBytes ((inner.written i).filter (· != 0))
      (Atom.ofValue quoted (t.reverse.dropWhile (· == '\n')).reverse, s)
    | .parameter quoted name use => expandParameter fuel quoted name use s

/-- The atoms of a text that is kept unread. -/
def expandBraced : Nat → Bool → Text → State → List Atom × State
  | 0, _, _, s => ([], { s with flow := .expired })
  | fuel + 1, quoted, t, s =>
    match Word.ofBraced quoted t with
    | .ok w => expand fuel w s
    | .error f => ([], s.abandon ("Syntax error: " ++ f.message) 2)

/-- The atoms of a parameter. -/
def expandParameter : Nat → Bool → Text → ParameterUse → State → List Atom × State
  | 0, _, _, _, s => ([], { s with flow := .expired })
  | fuel + 1, quoted, name, use, s =>
    let value := s.parameter? name
    let unset := value.isNone && s.has 'u' && name != ['@'] && name != ['*']
    let refused := ([], s.abandon (Text.string name ++ ": parameter not set") 2)
    let all : List Atom :=
      if name = ['@'] ∨ (name = ['*'] ∧ quoted = false) then Atom.ofParameters quoted s.parameters
      else Atom.ofValue quoted (value.getD [])
    match use with
    | .unknown => ([], s.abandon "Bad substitution" 2)
    | .plain => if unset then refused else (all, s)
    | .length =>
      if unset then refused
      else (Atom.ofValue quoted (Text.ofNat (Utf8.units (value.getD []).bytes).length), s)
    | .cut atEnd longest pattern =>
      if unset then refused
      else
        let (atoms, s) := expandBraced fuel false pattern s
        (Atom.ofValue quoted (Pattern.cut atEnd longest (Atom.marks atoms) (value.getD [])), s)
    | .other kind ifEmpty word =>
      let missing := value.isNone || (ifEmpty && value == some [])
      if kind = '+' then if missing then ([], s) else expandBraced fuel quoted word s
      else if !missing then (all, s)
      else if kind = '-' then expandBraced fuel quoted word s
      else
        let (atoms, s) := expandBraced fuel quoted word s
        let t := Atom.text atoms
        if kind = '=' then (Atom.ofValue quoted t, s.setVariable name t)
        else
          let message := if t = [] then "parameter not set" else Text.string t
          ([], s.abandon (Text.string name ++ ": " ++ message) 2)

/-- The text of a word that is not cut into fields. -/
def expandText : Nat → Word → State → Text × State
  | 0, _, s => ([], { s with flow := .expired })
  | fuel + 1, w, s =>
    let (atoms, s) := expand fuel (s.homed w) s
    (Atom.text atoms, s)

/-- The texts that words stand for. -/
def expandAll : Nat → List Word → State → List Text × State
  | 0, _, s => ([], { s with flow := .expired })
  | _ + 1, [], s => ([], s)
  | fuel + 1, w :: ws, s =>
    let (atoms, s) := expand fuel (s.homed w) s
    let texts := (Atom.fields s.separators atoms).flatMap s.textsOf
    let (rest, s) := expandAll fuel ws s
    (texts ++ rest, s)

/-- Carries out assignments in order, and gives their values. -/
def expandAssignments : Nat → List (Text × Word) → State → List (Text × Text) × State
  | 0, _, s => ([], { s with flow := .expired })
  | _ + 1, [], s => ([], s)
  | fuel + 1, (name, w) :: rest, s =>
    let (t, s) := expandText fuel w s
    let (values, s) := expandAssignments fuel rest (s.setVariable name t)
    ((name, t) :: values, s)

/-- Carries out redirections in order; after one that fails comes a complaint. -/
def redirectAll : Nat → List Redirection → State → Bool × State
  | 0, _, s => (false, { s with flow := .expired })
  | _ + 1, [], s => (true, s)
  | fuel + 1, r :: rs, s =>
    let (target, s) := expandText fuel r.target s
    match redirect r target s with
    | .ok s => redirectAll fuel rs s
    | .error message => (false, (s.report message).withStatus 2)

/-- Carries out a program with arguments. -/
def runProgram : Nat → Text → List Text → State → State
  | 0, _, _, s => { s with flow := .expired }
  | fuel + 1, t, arguments, s =>
    let name := programName t
    if name = "sh" ∨ name = "dash" then afterShell s (runShell fuel t arguments s)
    else if name = "env" then runEnvironment fuel arguments s
    else if name = "timeout" then runLimited fuel arguments s
    else if name = "kill" then Builtin.kill arguments s
    else if name = "nohup" ∨ name = "setsid" then
      match arguments with
      | [] => Utility.failHelped s name.toList "missing operand" 125
      | program :: rest => runProgram fuel program rest s
    else
      match program? name with
      | some f => f arguments s
      | none => notStarted t s

/-- Carries out a program with further variables, or writes the variables. -/
def runEnvironment : Nat → List Text → State → State
  | 0, _, s => { s with flow := .expired }
  | _ + 1, [], s => Utility.printenv [] s
  | fuel + 1, t :: ts, s =>
    if t = ['-', 'i'] then
      s.afterSubshell (runEnvironment fuel ts { s with bindings := OrderedMap.empty })
    else if t.contains '=' then
      let name := t.takeWhile (· != '=')
      let value := (t.dropWhile (· != '=')).drop 1
      s.afterSubshell (runEnvironment fuel ts (withAssignments s [(name, value)]))
    else s.afterSubshell (runProgram fuel t ts s)

/-- Carries out a program that is ended after a time. -/
def runLimited : Nat → List Text → State → State
  | 0, _, s => { s with flow := .expired }
  | fuel + 1, arguments, s =>
    match (Utility.cutOptions arguments).2 with
    | time :: program :: ts =>
      match Utility.milliseconds? time with
      | none =>
        Utility.failHelped s "timeout".toList
          ("invalid time interval '" ++ Text.string time ++ "'") 125
      | some n =>
        let finish := s.clock + n
        let isFirst := s.limit.all (finish < ·)
        let limit := if isFirst && n != 0 then some finish else s.limit
        let inner := runProgram fuel program ts { s.forSubshell with limit := limit }
        let after := s.afterSubshell inner
        if inner.flow = .expired && isFirst && n != 0 then
          { after with clock := finish, status := 124, flow := .onward }
        else after
    | _ => Utility.failHelped s "timeout".toList "missing operand" 125

/-- Carries out a shell with its arguments in a state of its own. -/
def runShell : Nat → Text → List Text → State → State
  | 0, _, _, s => { s with flow := .expired }
  | fuel + 1, name, arguments, s =>
    match Builtin.readOptions ('c' :: 's' :: Builtin.letters) [] arguments with
    | .error t =>
      { newShell s name [] [] with line := 0 }.abandon ("Illegal option " ++ Text.string t) 2
    | .ok o =>
      if o.set.contains 'c' then
        match o.rest with
        | [] => { newShell s name [] [] with line := 0 }.abandon "-c requires an argument" 2
        | source :: rest =>
          leave fuel (runLines fuel (Script.read 1 source)
            (newShell s (rest.headD name) (rest.drop 1) o.set))
      else
        match o.rest with
        | [] => runInput fuel (newShell s name [] o.set)
        | script :: parameters =>
          if o.set.contains 's' then runInput fuel (newShell s name o.rest o.set)
          else runFile fuel script (newShell s name parameters o.set)

/-- Carries out the script that the standard input is. -/
def runInput : Nat → State → State
  | 0, s => { s with flow := .expired }
  | fuel + 1, s =>
    let (script, s) := s.takeAll 0
    leave fuel (runLines fuel (Script.read 1 (Text.ofBytes script)) s)

/-- Carries out the script in a file. -/
def runFile : Nat → Text → State → State
  | 0, _, s => { s with flow := .expired }
  | fuel + 1, script, s =>
    match s.tree.read s.cwd (State.pathOf script) with
    | .ok content =>
      leave fuel (runLines fuel (Script.read 1 (Text.ofBytes content)) { s with name := script })
    | .error e =>
      let what := if e = .notFound then "No such file" else errorText e
      { s with line := 0 }.abandon ("cannot open " ++ Text.string script ++ ": " ++ what) 2

/-- Carries out what the shell is to do at its end, which may change its status. -/
def leave : Nat → State → State
  | 0, s => { s with flow := .expired }
  | fuel + 1, s =>
    let isLast := match s.flow with
      | .killed _ => false
      | .expired => false
      | _ => true
    match s.traps.find? 0 with
    | some action =>
      if isLast then
        let start := { s with traps := s.traps.erase 0, flow := .onward }
        let inner := runLines fuel (Script.read 1 action) start
        match inner.flow with
        | .onward => { inner with status := s.status, flow := s.flow }
        | _ => inner
      else s
    | none => s

/-- Carries out the traps of signals that came, and then goes on with the status so far. -/
def settle : Nat → State → State
  | 0, s => { s with flow := .expired }
  | fuel + 1, s =>
    match s.pending with
    | [] => s
    | signal :: later =>
      if !s.isOnward then s
      else
        let action := (s.traps.find? signal).getD []
        let inner := runLines fuel (Script.read 1 action) { s with pending := later }
        settle fuel (if inner.isOnward then inner.withStatus s.status else inner)

/-- Carries out commands that a builtin reads. -/
def runSource : Nat → Text → Text → State → State
  | 0, _, _, s => { s with flow := .expired }
  | fuel + 1, builtin, script, s =>
    let inner := runLines fuel (Script.read 1 script) { s with source := builtin }
    { inner with source := s.source }

/-- Carries out a function with arguments. -/
def runFunction : Nat → Bool → Command → List Text → State → State
  | 0, _, _, _, s => { s with flow := .expired }
  | fuel + 1, tested, body, arguments, s =>
    let inner :=
      run fuel tested body { s with parameters := arguments, loops := 0, frames := [] :: s.frames }
    let restored :=
      (inner.frames.headD []).foldl (fun s e => s.restoreVariable e.1 e.2) inner
    { restored with
      parameters := s.parameters
      loops := s.loops
      frames := s.frames
      flow := if inner.flow = .returning then .onward else inner.flow }

/-- Carries out a command by its words. -/
def runWords : Nat → Bool → List Text → State → State
  | 0, _, _, s => { s with flow := .expired }
  | _ + 1, _, [], s => s
  | fuel + 1, tested, t :: arguments, s =>
    let name := Text.string t
    match s.functions.find? name, Builtin.ofName? name, Utility.builtin? name with
    | some body, _, _ => runFunction fuel tested body arguments s
    | none, some f, _ => f arguments s
    | none, none, some f => f arguments s
    | none, none, none =>
      match name with
      | "eval" => runSource fuel t ([' '].intercalate arguments) (s.withStatus 0)
      | "." => runDot fuel arguments s
      | "command" => runCommand fuel tested arguments s
      | "exec" =>
        match arguments with
        | [] => s.withStatus 0
        | program :: rest => runInstead fuel program rest s
      | _ => runProgram fuel t arguments s

/-- Carries out the script in a file as a part of this one. -/
def runDot : Nat → List Text → State → State
  | 0, _, s => { s with flow := .expired }
  | _ + 1, [], s => s.withStatus 0
  | fuel + 1, file :: _, s =>
    if !file.contains '/' then s.abandonAs "." (Text.string file ++ ": not found")
    else
      match s.tree.read s.cwd (State.pathOf file) with
      | .ok content =>
        let inner := runSource fuel file (Text.ofBytes content) (s.withStatus 0)
        { inner with flow := if inner.flow = .returning then .onward else inner.flow }
      | .error e =>
        let what := if e = .notFound then "No such file" else errorText e
        s.abandonAs "." ("cannot open " ++ Text.string file ++ ": " ++ what)

/-- Carries out a command that is no function, or tells whether there is one. -/
def runCommand : Nat → Bool → List Text → State → State
  | 0, _, _, s => { s with flow := .expired }
  | fuel + 1, tested, arguments, s =>
    match arguments with
    | ['-', 'v'] :: t :: _ =>
      let name := Text.string t
      let there := (s.functions.find? name).isSome || Script.reserved.contains name ||
        isBuiltin name
      if there then (s.put (t ++ ['\n'])).withStatus 0
      else if isProgram name then (s.put ("/usr/bin/".toList ++ t ++ ['\n'])).withStatus 0
      else s.withStatus 127
    | ts =>
      let inner := runWords fuel tested ts { s with functions := OrderedMap.empty }
      { inner with functions := s.functions }

/-- Carries out a program instead of the shell. -/
def runInstead : Nat → Text → List Text → State → State
  | 0, _, _, s => { s with flow := .expired }
  | fuel + 1, program, arguments, s =>
    let name := programName program
    let after :=
      if name = "sh" ∨ name = "dash" then s.afterSubshell (runShell fuel program arguments s)
      else if isProgram name then runProgram fuel program arguments s
      else notStarted program { s with source := "exec".toList }
    { after with
      traps := OrderedMap.empty
      flow := if after.isOnward then .exiting else after.flow }

/-- Carries out a simple command. If it is the last one of its process, a program takes the place of
the process, which then has no descriptors but those of the program. -/
def runSimple : Nat → Bool → Bool → Nat → List (Text × Word) → List Word → List Redirection →
    State → State
  | 0, _, _, _, _, _, _, s => { s with flow := .expired }
  | fuel + 1, tested, isLast, line, assignments, words, redirections, s =>
    let s := { s with line := line }
    let waiting := s.waiting
    let waiter := s.asWaiter
    let (texts, s) := expandAll fuel words s
    if !s.isOnward then s
    else
      let isSpecial := Script.special.contains (Text.string (texts.headD []))
      let descriptors := s.descriptors
      let (opened, s) := redirectAll fuel redirections s
      if !s.isOnward then s
      else if !opened then
        { s with descriptors := descriptors, flow := if isSpecial then .exiting else .onward }
      else
        let before := s
        let (values, s) := expandAssignments fuel assignments s
        if !s.isOnward then s
        else
          match values.find? fun a => before.isConstant a.1 with
          | some a => s.abandon (Text.string a.1 ++ ": is read only") 2
          | none =>
            let s := { showCommand values texts { s with descriptors := descriptors } with
              descriptors := s.descriptors }
            match texts with
            | [] =>
              let substitutes := assignments.any fun a => a.2.any fun
                | .command .. => true
                | _ => false
              { (if substitutes then s else s.withStatus 0) with descriptors := descriptors }
            | t :: ts =>
              if isSpecial then
                let s' := runWords fuel tested (t :: ts) s
                if t == "exec".toList then s' else { s' with descriptors := descriptors }
              else if isLast && takesPlace s t then
                runWords fuel tested (t :: ts) (withAssignments s values)
              else
                let s := { withAssignments s values with waiting := waiter.waiting }
                let s' := runWords fuel tested (t :: ts) s
                { withoutAssignments before s' values with
                  descriptors := descriptors
                  waiting := waiting }

/-- Carries out a command in a subshell, and gives the subshell's state. -/
def runApart : Nat → Bool → Command → State → State
  | 0, _, _, s => { s with flow := .expired }
  | fuel + 1, tested, c, s => leave fuel (runLast fuel tested c s.forSubshell)

/-- Carries out a command as the last one of its process. -/
def runLast : Nat → Bool → Command → State → State
  | 0, _, _, s => { s with flow := .expired }
  | fuel + 1, tested, c, s =>
    if !s.isOnward then s
    else
      match c with
      | .simple line assignments words redirections =>
        let s := runSimple fuel tested true line assignments words redirections s
        settle fuel (s.stopAtFailure tested)
      | .subshell body => runLast fuel tested body s
      | .redirected (.subshell body) redirections =>
        let (opened, s) := redirectAll fuel redirections s
        if opened then runLast fuel tested body s else s
      | .next first .nothing => runLast fuel tested first s
      | .next first second => runLast fuel tested second (run fuel tested first s)
      | .bothOf first second =>
        let s := run fuel true first s
        if s.isOnward && s.status == 0 then runLast fuel tested second s else s
      | .eitherOf first second =>
        let s := run fuel true first s
        if s.isOnward && s.status != 0 then runLast fuel tested second s else s
      | .branch condition yes no =>
        let s := run fuel true condition s
        if !s.isOnward then s
        else if s.status = 0 then runLast fuel tested yes s
        else
          match no with
          | .nothing => s.withStatus 0
          | c => runLast fuel tested c s
      | c => run fuel tested c s

/-- Carries out a job. The descriptors of the job are those of its command; the commands of a
pipeline are all that there is of it. -/
def runJob : Nat → Bool → Command → State → State
  | 0, _, _, s => { s with flow := .expired }
  | fuel + 1, tested, c, s =>
    match c with
    | .pipe commands => runPipe fuel commands none s
    | .redirected body redirections =>
      let (opened, s) := redirectAll fuel redirections s
      if opened then runApart fuel tested body s else s
    | c => runApart fuel tested c s

/-- Carries out the commands of a pipeline, the first with a standard input that is given and the
time until which it is written. -/
def runPipe : Nat → List Command → Option (OpenFile × Nat) → State → State
  | 0, _, _, s => { s with flow := .expired }
  | _ + 1, [], _, s => s
  | fuel + 1, [c], input, s =>
    let start := match input with
      | some (f, _) => s.openAt 0 f
      | none => s
    s.afterSubshell ((runApart fuel false c start).readUntil s.clock input)
  | fuel + 1, c :: cs, input, s =>
    let start := match input with
      | some (f, _) => s.openAt 0 f
      | none => s
    let i := start.nextFile
    let inner := runApart fuel false c (start.openAt 1 (.sink []))
    let inner := inner.readUntil s.clock input
    let f : OpenFile :=
      match inner.files.find? i with
      | some (.endless unit) => .endless unit
      | _ => .source (inner.written i)
    let after := (s.afterSubshell inner).rewound s.clock
    let finish := max inner.clock (inner.heldUntil [i])
    let next := runPipe fuel cs (some (f, finish))
      { after with flow := if inner.flow = .expired then .onward else after.flow }
    let next := next.waitUntil finish
    if inner.flow = .expired then { next with flow := .expired } else next

/-- Carries out a loop. -/
def runLoop : Nat → Bool → Bool → Command → Command → Nat → State → State
  | 0, _, _, _, _, _, s => { s with flow := .expired }
  | fuel + 1, tested, untilTrue, condition, body, status, s =>
    let s := run fuel true condition s
    if !s.isOnward then (afterBody s).2
    else if (s.status = 0) = untilTrue then s.withStatus status
    else
      let (goesOn, s) := afterBody (run fuel tested body s)
      if goesOn then runLoop fuel tested untilTrue condition body s.status s else s

/-- Carries out a loop over texts. -/
def runEach : Nat → Bool → Text → List Text → Command → State → State
  | 0, _, _, _, _, s => { s with flow := .expired }
  | _ + 1, _, _, [], _, s => s
  | fuel + 1, tested, name, t :: ts, body, s =>
    if s.isConstant name then s.abandon (Text.string name ++ ": is read only") 2
    else
      let (goesOn, s) := afterBody (run fuel tested body (s.setVariable name t))
      if goesOn then runEach fuel tested name ts body s else s

/-- Whether one of several patterns stands for a text. -/
def matchesAny : Nat → List Word → Text → State → Bool × State
  | 0, _, _, s => (false, { s with flow := .expired })
  | _ + 1, [], _, s => (false, s)
  | fuel + 1, w :: ws, t, s =>
    let (atoms, s) := expand fuel w s
    if Pattern.matchesText (Atom.marks atoms) t then (true, s) else matchesAny fuel ws t s

/-- Carries out the first branch with a pattern for a text. -/
def runBranches : Nat → Bool → Text → List (List Word × Command) → State → State
  | 0, _, _, _, s => { s with flow := .expired }
  | _ + 1, _, _, [], s => s.withStatus 0
  | fuel + 1, tested, t, (patterns, body) :: branches, s =>
    let (found, s) := matchesAny fuel patterns t s
    if found then run fuel tested body (s.withStatus 0) else runBranches fuel tested t branches s

/-- Carries out a command. One that is `tested` may fail without ending the shell. -/
def run : Nat → Bool → Command → State → State
  | 0, _, _, s => { s with flow := .expired }
  | fuel + 1, tested, c, s =>
    if !s.isOnward then s
    else
      match c with
      | .nothing => s
      | .simple line assignments words redirections =>
        let s := runSimple fuel tested false line assignments words redirections s
        settle fuel (s.stopAtFailure tested)
      | .redirected body redirections =>
        let before := s
        let (opened, s) := redirectAll fuel redirections s
        let s' :=
          if opened then run fuel tested body { s with waiting := before.asWaiter.waiting } else s
        { s' with descriptors := before.descriptors, waiting := before.waiting }
      | .pipe commands =>
        let s' := runPipe fuel commands none s.asWaiter
        { s' with waiting := s.waiting }.stopAtFailure tested
      | .negated body =>
        let s := run fuel true body s
        if s.isOnward then s.withStatus (if s.status = 0 then 1 else 0) else s
      | .bothOf first second =>
        let s := run fuel true first s
        if s.isOnward && s.status == 0 then run fuel tested second s else s
      | .eitherOf first second =>
        let s := run fuel true first s
        if s.isOnward && s.status != 0 then run fuel tested second s else s
      | .next first second => run fuel tested second (run fuel tested first s)
      | .background body =>
        let job := max s.processId s.lastProcessId + 1
        s.besideJob (runJob fuel tested body (s.forJob job))
      | .subshell body =>
        (s.afterSubshell (runApart fuel tested body s.asWaiter)).stopAtFailure tested
      | .branch condition yes no =>
        let s := run fuel true condition s
        if !s.isOnward then s
        else if s.status = 0 then run fuel tested yes s
        else
          match no with
          | .nothing => s.withStatus 0
          | c => run fuel tested c s
      | .loop untilTrue condition body =>
        let s' := runLoop fuel tested untilTrue condition body 0 { s with loops := s.loops + 1 }
        { s' with loops := s.loops }
      | .each name words body =>
        let (texts, s) :=
          match words with
          | some ws => expandAll fuel ws s
          | none => (s.parameters, s)
        if !s.isOnward then s
        else
          let s' := runEach fuel tested name texts body
            { s with status := 0, loops := s.loops + 1 }
          { s' with loops := s.loops }
      | .choice subject branches =>
        let (t, s) := expandText fuel subject s
        if s.isOnward then runBranches fuel tested t branches s else s
      | .define name body =>
        { s with functions := s.functions.insert (String.ofList name) body, status := 0 }
      | .fault line f => { s with line := line }.abandon ("Syntax error: " ++ f.message) 2

/-- Carries out commands line by line. -/
def runLines : Nat → List Command → State → State
  | 0, _, s => { s with flow := .expired }
  | _ + 1, [], s => s
  | fuel + 1, c :: cs, s => runLines fuel cs (run fuel false c s)

end

end Interpreter

end CoverRun.Shell

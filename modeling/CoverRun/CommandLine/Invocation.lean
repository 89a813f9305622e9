import CoverRun.Plan

/-!
# Invocations

The arguments of the program name a command, with options before and after it. An option has one
value or none, written after an equals sign or as the next argument, and may be given once before
the command and once after it, where the later one counts. Two options of the command that runs
coverage can also be given as variables.
-/

namespace CoverRun

/-- A command with what was given for it. -/
inductive Command where
  | init
  | run (o : Overrides)
  | select
  | clean (force : Bool)
deriving DecidableEq

/-- A command with the project and the settings file that were given. -/
structure Invocation where
  project : Option Path
  settings : Option Path
  command : Command
deriving DecidableEq

/-- Why arguments make no invocation: they are wrong, or ask for something else. -/
inductive Usage where
  | wrong
  | help
  | version
deriving DecidableEq, Repr

namespace Invocation

/-- The names of commands. -/
inductive CommandName where
  | init
  | run
  | select
  | clean
deriving DecidableEq, Repr

/-- The command with a name. -/
def CommandName.ofText? : String → Option CommandName
  | "init" => some .init
  | "run" => some .run
  | "select" => some .select
  | "clean" => some .clean
  | _ => none

/-- The options of the program and its commands. -/
inductive Opt where
  | verbose
  | help
  | version
  | force
  | project
  | settings
  | timeout
  | output
  | instrumenter
deriving DecidableEq, Repr

/-- Whether an option has a value. -/
def Opt.hasValue : Opt → Bool
  | .verbose => false
  | .help => false
  | .version => false
  | .force => false
  | _ => true

/-- The option with a long name, before a command or among those of a command. -/
def Opt.ofLong? (command : Option CommandName) (name : String) : Option Opt :=
  match command, name with
  | _, "verbose" => some .verbose
  | _, "help" => some .help
  | _, "project-dir" => some .project
  | _, "config" => some .settings
  | none, "version" => some .version
  | some .run, "timeout" => some .timeout
  | some .run, "output" => some .output
  | some .run, "instrumenter" => some .instrumenter
  | some .clean, "force" => some .force
  | _, _ => none

/-- The option with a letter. -/
def Opt.ofLetter? (command : Option CommandName) (letter : Char) : Option Opt :=
  match command, letter with
  | _, 'v' => some .verbose
  | _, 'h' => some .help
  | none, 'V' => some .version
  | some .run, 'o' => some .output
  | _, _ => none

/-- Reads a natural number of up to 64 bits, which a plus may precede. -/
def word? (s : String) : Option UInt64 :=
  let digits :=
    match s.toList with
    | '+' :: cs => cs
    | cs => cs
  if digits != [] && digits.all (fun c => '0' ≤ c && c ≤ '9') then
    let n := Json.digitsValue digits
    if n ≤ Json.wordLimit then some (UInt64.ofNat n) else none
  else none

/-- Whether a text can be the value of an option. -/
def Opt.accepts (o : Opt) (value : String) : Bool :=
  match o with
  | .project => value != ""
  | .settings => value != ""
  | .output => value != ""
  | .timeout => (word? value).isSome
  | _ => true

/-- The options given so far, at one side of the command. -/
abbrev Given := List (Opt × String)

/-- Adds an option, which must not have been given at that side. -/
def give (given : Given) (o : Opt) (value : String) : Except Usage Given :=
  if o = .help then .error .help
  else if o = .version then .error .version
  else if (given.lookup o).isSome || !o.accepts value then .error .wrong
  else .ok ((o, value) :: given)

/-- A long option cut at its equals sign. -/
def cutLong (text : List Char) : String × Option String :=
  match text.dropWhile (· != '=') with
  | _ :: value => (String.ofList (text.takeWhile (· != '=')), some (String.ofList value))
  | [] => (String.ofList text, none)

/-- What letters after one dash give, and the option among them that still wants a value. -/
def letters (command : Option CommandName) (given : Given) :
    List Char → Except Usage (Given × Option Opt)
  | [] => .ok (given, none)
  | c :: cs =>
    match Opt.ofLetter? command c with
    | none => .error .wrong
    | some o =>
      if o.hasValue then
        match cs with
        | [] => .ok (given, some o)
        | '=' :: value => do return (← give given o (String.ofList value), none)
        | value => do return (← give given o (String.ofList value), none)
      else
        match give given o "" with
        | .error e => .error e
        | .ok given => letters command given cs

/-- What an argument is. -/
inductive Argument where
  | endOfOptions
  | long (name : String) (value : Option String)
  | letters (cs : List Char)
  | word (text : String)

/-- Tells what an argument is. -/
def Argument.ofText (text : String) : Argument :=
  match text.toList with
  | ['-', '-'] => .endOfOptions
  | '-' :: '-' :: cs => .long (cutLong cs).1 (cutLong cs).2
  | ['-'] => .word text
  | '-' :: cs => .letters cs
  | _ => .word text

/-- What the arguments at one side of the command come to: the options, and the first word with the
arguments after it. -/
structure Side where
  given : Given
  rest : Option (String × List String)

/-- Reads options up to a word. An option that wants a value takes the next argument if that is a
word. -/
def side (command : Option CommandName) (given : Given) (wanting : Option Opt) :
    List String → Except Usage Side
  | [] => if wanting.isSome then .error .wrong else .ok ⟨given, none⟩
  | text :: texts =>
    match Argument.ofText text, wanting with
    | .word value, some o => do side command (← give given o value) none texts
    | .word word, none => .ok ⟨given, some (word, texts)⟩
    | _, some _ => .error .wrong
    | .endOfOptions, none => if texts.isEmpty then .ok ⟨given, none⟩ else .error .wrong
    | .letters cs, none => do
      let (given, wanting) ← letters command given cs
      side command given wanting texts
    | .long name value, none =>
      match Opt.ofLong? command name, value with
      | none, _ => .error .wrong
      | some o, some value =>
        if o.hasValue then do side command (← give given o value) none texts else .error .wrong
      | some o, none =>
        if o.hasValue then side command given (some o) texts
        else do side command (← give given o "") none texts

/-- The variable for the time limit. -/
def timeoutVariable : String := "SOLCOVER_STAGE_TIMEOUT"

/-- The variable for the instrumenter. -/
def instrumenterVariable : String := "SOLCOVER_INSTRUMENTER"

/-- The value of an option after the command or else before it. -/
def value? (before after : Given) (o : Opt) : Option String :=
  Plan.either (after.lookup o) (before.lookup o)

/-- What was given for a run, by options or else by variables. -/
def overridesOf (environment : OrderedMap String String) (after : Given) :
    Except Usage Overrides := do
  let instrumenter :=
    Plan.either (after.lookup .instrumenter) (environment.find? instrumenterVariable)
  let output := (after.lookup .output).map Path.ofText
  match Plan.either (after.lookup .timeout) (environment.find? timeoutVariable) with
  | none => return ⟨none, output, instrumenter⟩
  | some text =>
    match word? text with
    | some n => return ⟨some n, output, instrumenter⟩
    | none => .error .wrong

/-- The command with a name and its options. -/
def commandOf (environment : OrderedMap String String) (after : Given) :
    CommandName → Except Usage Command
  | .init => .ok .init
  | .select => .ok .select
  | .clean => .ok (.clean (after.lookup .force).isSome)
  | .run => do return .run (← overridesOf environment after)

/-- What words that are no command come to: `help`, alone or before a command or itself, asks for
help. -/
def helpOf (word : String) (texts : List String) : Usage :=
  match word, texts with
  | "help", [] => .help
  | "help", ["help"] => .help
  | "help", [name] => if (CommandName.ofText? name).isSome then .help else .wrong
  | _, _ => .wrong

/-- Reads the arguments of the program. -/
def ofArguments (environment : OrderedMap String String) (arguments : List String) :
    Except Usage Invocation := do
  let before ← side none [] none arguments
  match before.rest with
  | none => .error .wrong
  | some (word, texts) =>
    match CommandName.ofText? word with
    | none => .error (helpOf word texts)
    | some name =>
      let after ← side (some name) [] none texts
      if after.rest.isSome then .error .wrong
      let command ← commandOf environment after.given name
      return ⟨(value? before.given after.given .project).map Path.ofText,
        (value? before.given after.given .settings).map Path.ofText, command⟩

end Invocation

end CoverRun

import CoverRun.Shell.Token

/-!
# Scripts

A script is a list of commands, one for each of its lines or for several lines that belong
together. A line that cannot be read ends it with a fault.
-/

namespace CoverRun.Shell

/-- What a redirection does with its descriptor. -/
inductive RedirectionKind where
  | input
  | output
  | overwrite
  | append
  | both
  | duplicate
  | document
deriving DecidableEq, Repr

/-- A redirection of a descriptor. -/
structure Redirection where
  descriptor : Nat
  kind : RedirectionKind
  target : Word
deriving DecidableEq, Repr

/-- A command of a script. -/
inductive Command where
  | nothing
  | simple (line : Nat) (assignments : List (Text × Word)) (words : List Word)
      (redirections : List Redirection)
  | redirected (body : Command) (redirections : List Redirection)
  | pipe (commands : List Command)
  | negated (body : Command)
  | bothOf (first second : Command)
  | eitherOf (first second : Command)
  | next (first second : Command)
  | background (body : Command)
  | subshell (body : Command)
  | branch (condition yes no : Command)
  | loop (untilTrue : Bool) (condition body : Command)
  | each (name : Text) (words : Option (List Word)) (body : Command)
  | choice (subject : Word) (branches : List (List Word × Command))
  | define (name : Text) (body : Command)
  | fault (line : Nat) (f : Fault)
deriving Inhabited

/-- Tokens that are left to read. -/
abbrev Tokens := List (Token × Nat)

/-- What is read, or the fault and its line. -/
abbrev Attempt := Except (Fault × Nat)

namespace Script

/-! ## Single tokens -/

/-- The words that begin or end commands of several lines. -/
def reserved : List String :=
  ["if", "then", "else", "elif", "fi", "do", "done", "case", "esac", "while", "until", "for",
    "\x7b", "\x7d", "!", "in"]

/-- The reserved word at the start of tokens. -/
def keyword? : Tokens → Option String
  | (.word w, _) :: _ =>
    match Word.bare? w with
    | some t =>
      let s := String.ofList t
      if reserved.contains s then some s else none
    | none => none
  | _ => none

/-- The operator at the start of tokens. -/
def operator? : Tokens → Option String
  | (.operator op, _) :: _ => some (String.ofList op)
  | _ => none

/-- The line at the start of tokens. -/
def lineOf : Tokens → Nat
  | (_, line) :: _ => line
  | [] => 0

/-- A name as faults show it. -/
def inQuotes (name : String) : String := "\"" ++ name ++ "\""

/-- The fault of tokens that cannot go on, and its line, which for a line end is the next one. -/
def faultAt (expected : Option String) (ts : Tokens) : Fault × Nat :=
  match ts with
  | (.fault f, line) :: _ => (f, line)
  | (.lineEnd, line) :: _ => (.unexpected Token.lineEnd.shown expected, line + 1)
  | (t, line) :: _ =>
    (.unexpected (match keyword? ts with
      | some k => inQuotes k
      | none => t.shown) expected, line)
  | [] => (.atEnd expected, 0)

/-- Tokens without the line ends that come first. -/
def skipLineEnds : Tokens → Tokens
  | (.lineEnd, _) :: ts => skipLineEnds ts
  | ts => ts

/-- Tokens without the semicolon that comes first. -/
def skipSemicolon (ts : Tokens) : Tokens := if operator? ts = some ";" then ts.drop 1 else ts

/-- What follows a reserved word. -/
def expectWord (word : String) (ts : Tokens) : Attempt Tokens :=
  if keyword? ts = some word then .ok (ts.drop 1) else .error (faultAt (some (inQuotes word)) ts)

/-- What follows an operator. -/
def expectOperator (op : String) (ts : Tokens) : Attempt Tokens :=
  if operator? ts = some op then .ok (ts.drop 1) else .error (faultAt (some (inQuotes op)) ts)

/-- Whether a token ends a list of commands: the end of the script, a closing bracket or a reserved
word that goes on with a command. -/
def endsList (ts : Tokens) : Bool :=
  match keyword? ts with
  | some k => ["then", "else", "elif", "fi", "do", "done", "esac", "\x7d"].contains k
  | none =>
    match ts with
    | (.operator op, _) :: _ => op = [')'] || op = [';', ';']
    | (.fileEnd, _) :: _ => true
    | _ => false

/-- Whether tokens are at the end of the script. -/
def isAtEnd : Tokens → Bool
  | (.fileEnd, _) :: _ => true
  | _ => false

/-! ## Simple commands -/

/-- The kind of redirection that an operator makes, and its usual descriptor. -/
def redirectionOf? : String → Option (RedirectionKind × Nat)
  | "<" => some (.input, 0)
  | ">" => some (.output, 1)
  | ">|" => some (.overwrite, 1)
  | ">>" => some (.append, 1)
  | "<>" => some (.both, 0)
  | "<&" => some (.duplicate, 0)
  | ">&" => some (.duplicate, 1)
  | "<<" => some (.document, 0)
  | "<<-" => some (.document, 0)
  | _ => none

/-- The redirection that tokens begin with, if they begin with one. -/
def redirection (ts : Tokens) : Attempt (Option Redirection × Tokens) :=
  let (descriptor, ts') :=
    match ts with
    | (.descriptor n, _) :: rest => (some n, rest)
    | ts => (none, ts)
  match (operator? ts').bind redirectionOf? with
  | none => .ok (none, ts)
  | some (kind, usual) =>
    match ts'.drop 1 with
    | (.word w, _) :: rest => .ok (some ⟨descriptor.getD usual, kind, w⟩, rest)
    | rest => .error (faultAt none rest)

/-- Reads redirections as long as there are any. -/
def redirections : Nat → Tokens → Attempt (List Redirection × Tokens)
  | 0, ts => .ok ([], ts)
  | fuel + 1, ts => do
    match ← redirection ts with
    | (none, rest) => return ([], rest)
    | (some r, rest) =>
      let (rs, rest) ← redirections fuel rest
      return (r :: rs, rest)

/-- The assignment that a word makes before the words of a command. -/
def assignment? : Word → Option (Text × Word)
  | .text false t :: ps =>
    let name := t.takeWhile (· != '=')
    match t.dropWhile (· != '=') with
    | _ :: value =>
      if Text.isName name then
        some (name, if value = [] then ps else .text false value :: ps)
      else none
    | [] => none
  | _ => none

/-- The parts of a simple command. -/
structure Parts where
  assignments : List (Text × Word)
  words : List Word
  redirections : List Redirection

/-- Whether there are no parts. -/
def Parts.isEmpty (p : Parts) : Bool :=
  p.assignments.isEmpty && p.words.isEmpty && p.redirections.isEmpty

/-- Reads the parts of a simple command, besides those read before. -/
def simpleParts : Nat → Parts → Tokens → Attempt (Parts × Tokens)
  | 0, done, ts => .ok (done, ts)
  | fuel + 1, done, ts => do
    match ← redirection ts with
    | (some r, rest) =>
      simpleParts fuel { done with redirections := done.redirections ++ [r] } rest
    | (none, (.word w, _) :: rest) =>
      match done.words, assignment? w with
      | [], some a => simpleParts fuel { done with assignments := done.assignments ++ [a] } rest
      | _, _ => simpleParts fuel { done with words := done.words ++ [w] } rest
    | (none, rest) => return (done, rest)

/-- Reads a simple command. -/
def simple (ts : Tokens) : Attempt (Command × Tokens) := do
  let (p, rest) ← simpleParts ts.length ⟨[], [], []⟩ ts
  if p.isEmpty then throw (faultAt none rest)
  return (.simple (lineOf ts) p.assignments p.words p.redirections, rest)

/-- Reads words. -/
def wordsAt : Tokens → List Word × Tokens
  | (.word w, _) :: ts =>
    let (ws, rest) := wordsAt ts
    (w :: ws, rest)
  | ts => ([], ts)

/-- Reads the patterns of a branch up to the closing parenthesis. -/
def patternsAt : Tokens → Attempt (List Word × Tokens)
  | (.word w, _) :: (.operator ['|'], _) :: ts => (patternsAt ts).map fun r => (w :: r.1, r.2)
  | (.word w, _) :: ts => (expectOperator ")" ts).map fun rest => ([w], rest)
  | ts => .error (faultAt (some (inQuotes ")")) ts)

/-- The names of builtins that no function may have. -/
def special : List String :=
  [".", ":", "break", "continue", "eval", "exec", "exit", "export", "readonly", "return", "set",
    "shift", "times", "trap", "unset"]

/-- The name that a word gives a function. -/
def functionName? (w : Word) : Option Text :=
  (Word.bare? w).filter fun t => Text.isName t && !special.contains (String.ofList t)

/-! ## Commands -/

mutual

/-- Reads a command that is no list. -/
def command : Nat → Tokens → Attempt (Command × Tokens)
  | 0, ts => .error (faultAt none ts)
  | fuel + 1, ts => do
    let (c, rest) ← compound fuel ts
    match c with
    | .simple .. => return (c, rest)
    | .define .. => return (c, rest)
    | _ =>
      let (rs, rest) ← redirections rest.length rest
      return (if rs.isEmpty then c else .redirected c rs, rest)

/-- Reads a command without the redirections after it, unless it is simple. -/
def compound : Nat → Tokens → Attempt (Command × Tokens)
  | 0, ts => .error (faultAt none ts)
  | fuel + 1, ts =>
    match keyword? ts, operator? ts with
    | some "if", _ => branch fuel (ts.drop 1)
    | some "while", _ => loop fuel false (ts.drop 1)
    | some "until", _ => loop fuel true (ts.drop 1)
    | some "for", _ => each fuel (ts.drop 1)
    | some "case", _ => choice fuel (ts.drop 1)
    | some "\x7b", _ => do
      let (c, rest) ← list fuel false (ts.drop 1)
      return (c, ← expectWord "\x7d" rest)
    | some _, _ => .error (faultAt none ts)
    | none, some "(" => do
      let (c, rest) ← list fuel false (ts.drop 1)
      return (.subshell c, ← expectOperator ")" rest)
    | none, _ =>
      match ts with
      | (.word w, _) :: (.operator ['('], _) :: rest => define fuel w rest
      | _ => simple ts

/-- Reads the rest of a definition after its opening parenthesis. -/
def define : Nat → Word → Tokens → Attempt (Command × Tokens)
  | 0, _, ts => .error (faultAt none ts)
  | fuel + 1, w, ts => do
    let rest ← expectOperator ")" ts
    match functionName? w with
    | none => throw (.functionName, lineOf ts)
    | some name =>
      let (body, rest) ← command fuel (skipLineEnds rest)
      return (.define name body, rest)

/-- Reads the rest of a branch after its first word. -/
def branch : Nat → Tokens → Attempt (Command × Tokens)
  | 0, ts => .error (faultAt none ts)
  | fuel + 1, ts => do
    let (condition, rest) ← list fuel false ts
    let (yes, rest) ← list fuel false (← expectWord "then" rest)
    match keyword? rest with
    | some "elif" =>
      let (no, rest) ← branch fuel (rest.drop 1)
      return (.branch condition yes no, rest)
    | some "else" =>
      let (no, rest) ← list fuel false (rest.drop 1)
      return (.branch condition yes no, ← expectWord "fi" rest)
    | _ => return (.branch condition yes .nothing, ← expectWord "fi" rest)

/-- Reads the rest of a loop after its first word. -/
def loop : Nat → Bool → Tokens → Attempt (Command × Tokens)
  | 0, _, ts => .error (faultAt none ts)
  | fuel + 1, untilTrue, ts => do
    let (condition, rest) ← list fuel false ts
    let (body, rest) ← list fuel false (← expectWord "do" rest)
    return (.loop untilTrue condition body, ← expectWord "done" rest)

/-- Reads the rest of a loop over words after its first word. -/
def each : Nat → Tokens → Attempt (Command × Tokens)
  | 0, ts => .error (faultAt none ts)
  | fuel + 1, ts =>
    match ts with
    | (.word w, line) :: rest => do
      match (Word.bare? w).filter Text.isName with
      | none => throw (.loopVariable, line)
      | some name =>
        let (words, rest) ← listed rest
        let (body, rest) ← list fuel false (← expectWord "do" (skipLineEnds rest))
        return (.each name words body, ← expectWord "done" rest)
    | (.fault f, line) :: _ => .error (f, line)
    | ts => .error (.loopVariable, lineOf ts)
where
  /-- Reads the words of a loop, if it has any, and what ends them. -/
  listed (ts : Tokens) : Attempt (Option (List Word) × Tokens) :=
    let later := skipLineEnds ts
    if keyword? later = some "in" then
      let (ws, rest) := wordsAt (later.drop 1)
      match rest with
      | (.lineEnd, _) :: rest => .ok (some ws, rest)
      | _ =>
        if operator? rest = some ";" then .ok (some ws, rest.drop 1)
        else .error (faultAt none rest)
    else .ok (none, skipSemicolon later)

/-- Reads the rest of a choice after its first word. -/
def choice : Nat → Tokens → Attempt (Command × Tokens)
  | 0, ts => .error (faultAt none ts)
  | fuel + 1, ts =>
    match ts with
    | (.word w, _) :: rest => do
      let rest ← expectWord "in" (skipLineEnds rest)
      let (branches, rest) ← branches fuel (skipLineEnds rest)
      return (.choice w branches, rest)
    | ts => .error (faultAt (some "word") ts)

/-- Reads the branches of a choice up to its last word. -/
def branches : Nat → Tokens → Attempt (List (List Word × Command) × Tokens)
  | 0, ts => .error (faultAt none ts)
  | fuel + 1, ts =>
    if keyword? ts = some "esac" then .ok ([], ts.drop 1)
    else do
      let (patterns, rest) ← patternsAt (if operator? ts = some "(" then ts.drop 1 else ts)
      let (body, rest) ← list fuel true rest
      if keyword? rest = some "esac" then return ([(patterns, body)], rest.drop 1)
      else
        let (bs, rest) ← branches fuel (skipLineEnds (← expectOperator ";;" rest))
        return ((patterns, body) :: bs, rest)

/-- Reads commands joined by bars. -/
def pipe : Nat → Tokens → Attempt (List Command × Tokens)
  | 0, ts => .error (faultAt none ts)
  | fuel + 1, ts => do
    let (c, rest) ← command fuel ts
    if operator? rest = some "|" then
      let (cs, rest) ← pipe fuel (skipLineEnds (rest.drop 1))
      return (c :: cs, rest)
    else return ([c], rest)

/-- Reads commands joined by bars, maybe negated. -/
def pipeline : Nat → Tokens → Attempt (Command × Tokens)
  | 0, ts => .error (faultAt none ts)
  | fuel + 1, ts =>
    if keyword? ts = some "!" then (pipeline fuel (ts.drop 1)).map fun r => (.negated r.1, r.2)
    else do
      match ← pipe fuel ts with
      | ([c], rest) => return (c, rest)
      | (cs, rest) => return (.pipe cs, rest)

/-- Reads what follows a command that may be joined to the next by `&&` or `||`. -/
def joined : Nat → Command → Tokens → Attempt (Command × Tokens)
  | 0, _, ts => .error (faultAt none ts)
  | fuel + 1, c, ts =>
    match operator? ts with
    | some "&&" => do
      let (d, rest) ← pipeline fuel (skipLineEnds (ts.drop 1))
      joined fuel (.bothOf c d) rest
    | some "||" => do
      let (d, rest) ← pipeline fuel (skipLineEnds (ts.drop 1))
      joined fuel (.eitherOf c d) rest
    | _ => .ok (c, ts)

/-- Reads commands joined by `&&` and `||`. -/
def chain : Nat → Tokens → Attempt (Command × Tokens)
  | 0, ts => .error (faultAt none ts)
  | fuel + 1, ts => do
    let (c, rest) ← pipeline fuel ts
    joined fuel c rest

/-- Reads a list of commands, on one line or on several, up to what ends it. It has at least one
command unless it `mayBeEmpty` or the script ends. -/
def list : Nat → Bool → Tokens → Attempt (Command × Tokens)
  | 0, _, ts => .error (faultAt none ts)
  | fuel + 1, mayBeEmpty, ts =>
    let ts := skipLineEnds ts
    if endsList ts && (mayBeEmpty || isAtEnd ts) then .ok (.nothing, ts)
    else do
      let (c, rest) ← chain fuel ts
      match rest, operator? rest with
      | (.lineEnd, _) :: rest, _ => (list fuel true rest).map fun r => (.next c r.1, r.2)
      | _, some ";" => (list fuel true (rest.drop 1)).map fun r => (.next c r.1, r.2)
      | _, some "&" =>
        (list fuel true (rest.drop 1)).map fun r => (.next (.background c) r.1, r.2)
      | _, _ => return (c, rest)

end

/-- Reads the commands of a line, and what follows the line end. -/
def line : Nat → Tokens → Attempt (Command × Tokens)
  | 0, ts => .error (faultAt none ts)
  | fuel + 1, ts => do
    let (c, rest) ← chain fuel ts
    match operator? rest with
    | some ";" => after fuel c (rest.drop 1)
    | some "&" => after fuel (.background c) (rest.drop 1)
    | _ =>
      match rest with
      | (.lineEnd, _) :: rest => return (c, rest)
      | (.fileEnd, _) :: _ => return (c, rest)
      | _ => throw (faultAt none rest)
where
  /-- Reads what follows a command that was ended on its line. -/
  after (fuel : Nat) (c : Command) : Tokens → Attempt (Command × Tokens)
    | (.lineEnd, _) :: rest => .ok (c, rest)
    | (.fileEnd, n) :: rest => .ok (c, (.fileEnd, n) :: rest)
    | rest => (line fuel rest).map fun r => (.next c r.1, r.2)

/-- The commands of a script line by line, and a fault where the tokens make none. -/
def commands : Nat → Tokens → List Command
  | 0, ts => [.fault (lineOf ts) (.atEnd none)]
  | fuel + 1, ts =>
    match skipLineEnds ts with
    | [] => []
    | (.fileEnd, _) :: _ => []
    | ts =>
      match line (8 * ts.length + 8) ts with
      | .ok (c, rest) => c :: commands fuel rest
      | .error (f, n) => [.fault n f]

end Script

/-- Reads a script whose first line has a number. -/
def Script.read (first : Nat) (cs : Text) : List Command :=
  let ts := Token.ofScript first cs
  Script.commands (ts.length + 1) ts

end CoverRun.Shell

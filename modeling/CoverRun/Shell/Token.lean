import CoverRun.Shell.Word

/-!
# Tokens

A script is cut into words, operators and line ends. A number right before an operator of
redirection is part of it, a comment is nothing, and a document is the word after its operator,
taken from the lines that follow. Each token has the number of its line. The last token is the end
of the script or the fault because of which no more can be read.
-/

namespace CoverRun.Shell

/-- A token of a script. -/
inductive Token where
  | word (w : Word)
  | operator (text : Text)
  | descriptor (n : Nat)
  | lineEnd
  | fileEnd
  | fault (f : Fault)
deriving DecidableEq, Repr

namespace Token

/-- The operators, a longer one before those that it begins with. -/
def operators : List Text :=
  ["<<-", "<<", "<&", "<>", "<", ">>", ">&", ">|", ">", "&&", "&", "||", "|", ";;", ";", "(",
    ")"].map String.toList

/-- The operator at the start of a text, and what follows. -/
def operatorAt? (cs : Text) : Option (Text × Text) :=
  (operators.find? fun op => op.isPrefixOf cs).map fun op => (op, cs.drop op.length)

/-- The number of line feeds in what lies between a text and what is left of it. -/
def linesBetween (whole rest : Text) : Nat :=
  (whole.take (whole.length - rest.length)).count '\n'

/-- Whether digits are followed by an operator of redirection. -/
def isDescriptor (cs : Text) : Bool :=
  let digits := cs.takeWhile fun c => '0' ≤ c && c ≤ '9'
  match cs.dropWhile fun c => '0' ≤ c && c ≤ '9' with
  | c :: _ => digits != [] && (c == '<' || c == '>')
  | [] => false

/-- The text of a word without its quotes. -/
def plainText (w : Word) : Text :=
  w.flatMap fun
    | .text _ t => t
    | _ => []

/-- Whether any piece of a word is quoted. -/
def hasQuotes (w : Word) : Bool :=
  w.any fun
    | .text quoted _ => quoted
    | _ => false

/-- A line at the start of a text, and what follows its line feed. -/
def lineAt (cs : Text) : Text × Text :=
  (cs.takeWhile (· != '\n'), (cs.dropWhile (· != '\n')).drop 1)

/-- The lines of a document up to its end mark, and what follows. -/
def documentAt (tabs : Bool) (mark : Text) : Nat → Text → Text × Text
  | 0, cs => ([], cs)
  | _ + 1, [] => ([], [])
  | fuel + 1, cs =>
    let (line, rest) := lineAt cs
    let line := if tabs then line.dropWhile (· == '\t') else line
    if line = mark then ([], rest)
    else
      let (body, rest) := documentAt tabs mark fuel rest
      (line ++ '\n' :: body, rest)

/-- Whether nothing is left of a line but blanks. -/
def isBlankLine (cs : Text) : Bool := (lineAt cs).1.all fun c => c == ' ' || c == '\t'

/-- Reads a document: the word after its operator, and the text without the document's lines. -/
def document (tabs : Bool) (cs : Text) : Except Fault (Word × Text) := do
  let (mark, rest) ← Word.read (cs.dropWhile fun c => c == ' ' || c == '\t')
  let (line, later) := lineAt rest
  let (body, later) := documentAt tabs (plainText mark) (later.length + 1) later
  let w ←
    if hasQuotes mark then pure [.text true body] else Word.document (body.length + 1) [] body
  return (w, line ++ '\n' :: later)

/-- The tokens of a text from a line on. A word that is not finished reaches to the last line. -/
def scan : Nat → Nat → Text → List (Token × Nat)
  | 0, line, _ => [(.fileEnd, line)]
  | _ + 1, line, [] => [(.fileEnd, line)]
  | fuel + 1, line, c :: cs =>
    let faulty (f : Fault) : List (Token × Nat) := [(.fault f, line + (c :: cs).count '\n')]
    if c = ' ' ∨ c = '\t' then scan fuel line cs
    else if c = '\n' then (.lineEnd, line) :: scan fuel (line + 1) cs
    else if c = '\\' ∧ cs.head? = some '\n' then scan fuel (line + 1) (cs.drop 1)
    else if c = '#' then scan fuel line (cs.dropWhile (· != '\n'))
    else if isDescriptor (c :: cs) then
      let digits := (c :: cs).takeWhile fun c => '0' ≤ c && c ≤ '9'
      (.descriptor (Text.natural digits), line) :: scan fuel line ((c :: cs).drop digits.length)
    else
      match operatorAt? (c :: cs) with
      | some (op, rest) =>
        if (op = ['<', '<'] ∨ op = ['<', '<', '-']) ∧ isBlankLine rest = false then
          match document (op.length = 3) rest with
          | .ok (w, rest) => (.operator op, line) :: (.word w, line) :: scan fuel line rest
          | .error f => (.operator op, line) :: faulty f
        else (.operator op, line) :: scan fuel line rest
      | none =>
        match Word.read (c :: cs) with
        | .error f => faulty f
        | .ok (w, rest) => (.word w, line) :: scan fuel (line + linesBetween (c :: cs) rest) rest

/-- The tokens of a script whose first line has a number. -/
def ofScript (line : Nat) (cs : Text) : List (Token × Nat) := scan (2 * cs.length + 2) line cs

/-- How a fault names a token, unless it is the word of a command. -/
def shown : Token → String
  | .word _ => "word"
  | .operator op => "\"" ++ String.ofList op ++ "\""
  | .descriptor _ => "redirection"
  | .lineEnd => "newline"
  | .fileEnd => "end of file"
  | .fault _ => "end of file"

end Token

end CoverRun.Shell

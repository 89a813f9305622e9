import CoverRun.Shell.Fault

/-!
# Words

A word of a script is a list of pieces: text, and what is put in for parameters, commands and
arithmetic. Each piece knows whether it stands in quotes. What stands between brackets of any kind
is kept as text and read when it is needed.
-/

namespace CoverRun.Shell

/-- What to do with the value of a parameter; nothing is known of what is `unknown`. -/
inductive ParameterUse where
  | plain
  | length
  | other (kind : Char) (ifEmpty : Bool) (word : Text)
  | cut (atEnd longest : Bool) (pattern : Text)
  | unknown
deriving DecidableEq, Repr

/-- A piece of a word. -/
inductive Piece where
  | text (quoted : Bool) (t : Text)
  | parameter (quoted : Bool) (name : Text) (use : ParameterUse)
  | command (quoted : Bool) (source : Text)
  | arithmetic (quoted : Bool) (source : Text)
deriving DecidableEq, Repr

/-- A word as a list of pieces. -/
abbrev Word := List Piece

namespace Word

/-- The text of a word that is only text without quotes. -/
def bare? : Word → Option Text
  | [.text false t] => some t
  | _ => none

/-- The fault when the text ends inside brackets or quotes. -/
def faultOf : Char → Fault
  | '\x60' => .openBackquotes
  | ')' => .atEnd (some "\")\"")
  | '\x7d' => .openBraces
  | _ => .openQuotes

/-- The text up to where all open brackets and quotes are closed, and what follows. What closes the
innermost comes first; single quotes and backquotes have no brackets inside. -/
def enclosed : List Char → Text → Except Fault (Text × Text)
  | [], cs => .ok ([], cs)
  | close :: _, [] => .error (faultOf close)
  | close :: outer, c :: cs =>
    let go (stack : List Char) : Except Fault (Text × Text) :=
      (enclosed stack cs).map fun r => (c :: r.1, r.2)
    if close = '\'' ∧ c ≠ '\'' then go (close :: outer)
    else if c = '\\' then
      match cs with
      | [] => .error (faultOf close)
      | d :: rest => (enclosed (close :: outer) rest).map fun r => (c :: d :: r.1, r.2)
    else if c = close then
      if outer = [] then .ok ([], cs) else go outer
    else if close = '\x60' then go (close :: outer)
    else if c = '\x60' then go ('\x60' :: close :: outer)
    else if close = '"' then
      if c = '$' ∧ (cs.head? = some '(' ∨ cs.head? = some '{') then
        match cs with
        | [] => .error (faultOf close)
        | d :: rest =>
          (enclosed ((if d = '(' then ')' else '}') :: close :: outer) rest).map fun r =>
            (c :: d :: r.1, r.2)
      else go (close :: outer)
    else if c = '"' then go ('"' :: close :: outer)
    else if c = '\'' then go ('\'' :: close :: outer)
    else if c = '(' then go (')' :: close :: outer)
    else if c = '{' then go ('}' :: close :: outer)
    else go (close :: outer)
termination_by _ cs => cs.length

/-- The text of a command in backquotes: a backslash before a dollar sign, a backquote or a
backslash is dropped. -/
def unquoteCommand : Text → Text
  | '\\' :: c :: cs =>
    if c = '$' ∨ c = '\x60' ∨ c = '\\' then c :: unquoteCommand cs
    else '\\' :: c :: unquoteCommand cs
  | c :: cs => c :: unquoteCommand cs
  | [] => []

/-- Whether a character is the name of a special parameter. -/
def isSpecial (c : Char) : Bool := "@*#?-$!0123456789".toList.contains c

/-- What to do with a parameter by what follows its name in braces. -/
def useOf : Text → ParameterUse
  | [] => .plain
  | ':' :: c :: word => if "-=?+".toList.contains c then .other c true word else .unknown
  | '%' :: '%' :: pattern => .cut true true pattern
  | '%' :: pattern => .cut true false pattern
  | '#' :: '#' :: pattern => .cut false true pattern
  | '#' :: pattern => .cut false false pattern
  | c :: word => if "-=?+".toList.contains c then .other c false word else .unknown

/-- A parameter name at the start of a text, and what follows. -/
def nameAt : Text → Text × Text
  | [] => ([], [])
  | c :: cs =>
    if Text.isNameStart c then
      ((c :: cs).takeWhile Text.isNameChar, (c :: cs).dropWhile Text.isNameChar)
    else if '0' ≤ c ∧ c ≤ '9' then
      ((c :: cs).takeWhile (fun d => '0' ≤ d && d ≤ '9'),
        (c :: cs).dropWhile fun d => '0' ≤ d && d ≤ '9')
    else if isSpecial c then ([c], cs)
    else ([], c :: cs)

/-- The parameter that stands in braces. -/
def braced (quoted : Bool) (t : Text) : Piece :=
  match t with
  | '#' :: c :: cs =>
    let (name, rest) := nameAt (c :: cs)
    if name != [] && rest == [] then .parameter quoted name .length
    else .parameter quoted ['#'] (useOf (c :: cs))
  | _ =>
    let (name, rest) := nameAt t
    .parameter quoted name (if name = [] then .unknown else useOf rest)

/-- What a dollar sign begins, and what follows. -/
def dollar (quoted : Bool) : Text → Except Fault (Piece × Text)
  | '(' :: '(' :: cs =>
    match enclosed [')', ')'] cs with
    | .error (.unexpected ..) => .error .openArithmetic
    | .error e => .error e
    | .ok (source, rest) =>
      if source.getLast? = some ')' then .ok (.arithmetic quoted source.dropLast, rest)
      else (enclosed [')'] ('(' :: cs)).map fun r => (.command quoted r.1, r.2)
  | '(' :: cs => (enclosed [')'] cs).map fun r => (.command quoted r.1, r.2)
  | '{' :: cs => (enclosed ['}'] cs).map fun r => (braced quoted r.1, r.2)
  | c :: cs =>
    if Text.isNameStart c then
      .ok (.parameter quoted (nameAt (c :: cs)).1 .plain, (nameAt (c :: cs)).2)
    else if isSpecial c then .ok (.parameter quoted [c] .plain, cs)
    else .ok (.text quoted ['$'], c :: cs)
  | [] => .ok (.text quoted ['$'], [])

/-- Whether a character ends a word that stands without quotes. -/
def endsWord (c : Char) : Bool := " \t\n;&|<>()".toList.contains c

/-- Adds a character to pieces, the last piece first. -/
def push (quoted : Bool) (c : Char) : Word → Word
  | .text q t :: ps =>
    if q = quoted then .text q (t ++ [c]) :: ps else .text quoted [c] :: .text q t :: ps
  | ps => .text quoted [c] :: ps

/-- The pieces of a text in which double quotes have no meaning, as in a document in a script. -/
def document : Nat → Word → Text → Except Fault Word
  | 0, _, _ => .error .openQuotes
  | _ + 1, done, [] => .ok done.reverse
  | fuel + 1, done, '\\' :: c :: cs =>
    if c = '\n' then document fuel done cs
    else if c = '$' ∨ c = '\x60' ∨ c = '\\' then document fuel (push true c done) cs
    else document fuel (push true c (push true '\\' done)) cs
  | fuel + 1, done, '$' :: cs => do
    let (piece, rest) ← dollar true cs
    document fuel (piece :: done) rest
  | fuel + 1, done, '\x60' :: cs => do
    let (source, rest) ← enclosed ['\x60'] cs
    document fuel (.command true (unquoteCommand source) :: done) rest
  | fuel + 1, done, c :: cs => document fuel (push true c done) cs

/-- Reads the pieces of a word, added to those before, the last first; and what follows the word.
Inside double quotes only the quote ends them. -/
def pieces : Nat → Bool → Word → Text → Except Fault (Word × Text)
  | 0, _, _, _ => .error .openQuotes
  | fuel + 1, true, done, cs =>
    match cs with
    | [] => .error .openQuotes
    | '"' :: cs => pieces fuel false done cs
    | '\\' :: c :: cs =>
      if c = '\n' then pieces fuel true done cs
      else if c = '$' ∨ c = '\x60' ∨ c = '"' ∨ c = '\\' then pieces fuel true (push true c done) cs
      else pieces fuel true (push true c (push true '\\' done)) cs
    | '$' :: cs => do
      let (piece, rest) ← dollar true cs
      pieces fuel true (piece :: done) rest
    | '\x60' :: cs => do
      let (source, rest) ← enclosed ['\x60'] cs
      pieces fuel true (.command true (unquoteCommand source) :: done) rest
    | c :: cs => pieces fuel true (push true c done) cs
  | fuel + 1, false, done, cs =>
    match cs with
    | [] => .ok (done.reverse, [])
    | '"' :: cs => pieces fuel true (.text true [] :: done) cs
    | '\'' :: cs => do
      let (t, rest) ← enclosed ['\''] cs
      pieces fuel false (.text true t :: done) rest
    | ['\\'] => .ok ((push true '\\' done).reverse, [])
    | '\\' :: c :: cs =>
      if c = '\n' then pieces fuel false done cs else pieces fuel false (push true c done) cs
    | '$' :: cs => do
      let (piece, rest) ← dollar false cs
      pieces fuel false (piece :: done) rest
    | '\x60' :: cs => do
      let (source, rest) ← enclosed ['\x60'] cs
      pieces fuel false (.command false (unquoteCommand source) :: done) rest
    | c :: cs =>
      if endsWord c then .ok (done.reverse, c :: cs) else pieces fuel false (push false c done) cs

/-- Reads a word at the start of a text, and what follows. -/
def read (cs : Text) : Except Fault (Word × Text) := pieces (cs.length + 1) false [] cs

/-- Reads a text that has no word ends, such as the word after an operator in braces. Between
double quotes only dollar signs, backquotes and backslashes have a meaning. -/
def ofBraced (quoted : Bool) (t : Text) : Except Fault Word :=
  if quoted then document (t.length + 1) [] t else loose (t.length + 1) [] t
where
  /-- Reads words with the blanks between them. -/
  loose : Nat → Word → Text → Except Fault Word
    | 0, _, _ => .error .openQuotes
    | _ + 1, done, [] => .ok done
    | fuel + 1, done, c :: cs =>
      if endsWord c then loose fuel (done ++ [.text false [c]]) cs
      else do
        let (w, rest) ← read (c :: cs)
        loose fuel (done ++ w) rest

/-- A word whose first character is a tilde that stands for the home directory. -/
def withHome : Word → Word
  | [.text false ['~']] => [.parameter true "HOME".toList .plain]
  | .text false ('~' :: '/' :: t) :: ps =>
    .parameter true "HOME".toList .plain :: .text false ('/' :: t) :: ps
  | ps => ps

end Word

end CoverRun.Shell

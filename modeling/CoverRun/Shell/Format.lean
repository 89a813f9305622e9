import CoverRun.Shell.Text

/-!
# Formats and escapes

A format is text with escapes and conversions, each of which takes an argument. It is used again
as long as arguments are left.
-/

namespace CoverRun.Shell.Format

/-- The byte of a number. -/
def byteChar (n : Nat) : Char := Char.ofNat (n % 256)

/-- What an escape of one letter stands for. -/
def letter? : Char → Option Char
  | 'a' => some '\x07'
  | 'b' => some '\x08'
  | 'f' => some '\x0c'
  | 'n' => some '\n'
  | 'r' => some '\r'
  | 't' => some '\t'
  | 'v' => some '\x0b'
  | '\\' => some '\\'
  | _ => none

/-- The character that an escape after its backslash stands for, and how much of the text it takes
up. -/
def escape? (cs : Text) : Option (Char × Nat) :=
  match cs with
  | [] => none
  | c :: _ =>
    if Text.isOctal c then
      let ds := (cs.take 3).takeWhile Text.isOctal
      some (byteChar (Text.octal ds), ds.length)
    else (letter? c).map fun d => (d, 1)

/-- Carries out the escapes of a text in which octal digits may have a zero before them. The flag
says that an escape ended all output. -/
def unescape : Nat → Text → Text × Bool
  | 0, _ => ([], false)
  | _ + 1, [] => ([], false)
  | fuel + 1, '\\' :: cs =>
    match cs with
    | 'c' :: _ => ([], true)
    | '0' :: rest =>
      let ds := (rest.take 3).takeWhile Text.isOctal
      let (t, ended) := unescape fuel (rest.drop ds.length)
      (byteChar (Text.octal ds) :: t, ended)
    | cs =>
      match escape? cs with
      | some (c, n) =>
        let (t, ended) := unescape fuel (cs.drop n)
        (c :: t, ended)
      | none =>
        let (t, ended) := unescape fuel cs
        ('\\' :: t, ended)
  | fuel + 1, c :: cs =>
    let (t, ended) := unescape fuel cs
    (c :: t, ended)

/-- Carries out the escapes of a text. -/
def unescapeText (t : Text) : Text × Bool := unescape (t.length + 1) t

/-- A conversion: its flags, its width and its precision. -/
structure Conversion where
  left : Bool
  zeros : Bool
  plus : Bool
  blank : Bool
  alternate : Bool
  width : Nat
  precision : Option Nat
  kind : Char

/-- A number in a conversion, where a star takes the next argument; with what follows and the
arguments left. -/
def widthAt (cs : Text) (arguments : List Text) : Int × Text × List Text :=
  match cs with
  | '*' :: cs => ((Text.integer? (arguments.headD [])).getD 0, cs, arguments.drop 1)
  | cs => (Text.natural (cs.takeWhile Char.isDigit), cs.dropWhile Char.isDigit, arguments)

/-- Reads a conversion after its percent sign, if it is finished; with what follows and the
arguments left. -/
def conversion (cs : Text) (arguments : List Text) : Option Conversion × Text × List Text :=
  let isFlag := fun c : Char => c == '-' || c == '0' || c == '+' || c == ' ' || c == '#'
  let flags := cs.takeWhile isFlag
  let (width, cs, arguments) := widthAt (cs.dropWhile isFlag) arguments
  let (precision, cs, arguments) :=
    match cs with
    | '.' :: cs =>
      let (n, cs, arguments) := widthAt cs arguments
      (if n < 0 then none else some n.toNat, cs, arguments)
    | cs => (none, cs, arguments)
  match cs with
  | kind :: rest =>
    (some ⟨flags.contains '-' || width < 0, flags.contains '0', flags.contains '+',
      flags.contains ' ', flags.contains '#', width.natAbs, precision, kind⟩, rest, arguments)
  | [] => (none, [], arguments)

/-- A text widened by blanks, or by zeros after its sign. -/
def widen (c : Conversion) (zeros : Bool) (t : Text) : Text :=
  let missing := c.width - t.length
  if c.left then t ++ List.replicate missing ' '
  else if zeros then
    match t with
    | c :: ds =>
      if c = '-' ∨ c = '+' ∨ c = ' ' then c :: List.replicate missing '0' ++ ds
      else List.replicate missing '0' ++ c :: ds
    | [] => List.replicate missing '0'
  else List.replicate missing ' ' ++ t

/-- A number as it is written in a base. -/
def numberText (c : Conversion) (n : Int) : Text :=
  let base := if c.kind = 'o' then 8 else if c.kind = 'x' ∨ c.kind = 'X' then 16 else 10
  let magnitude :=
    if (c.kind == 'd' || c.kind == 'i') || 0 ≤ n then n.natAbs else 0x10000000000000000 - n.natAbs
  let ds := Nat.toDigits base magnitude
  let ds := if c.kind = 'X' then ds.map Char.toUpper else ds
  let ds := List.replicate (c.precision.getD 1 - ds.length) '0' ++ ds
  let ds :=
    if c.alternate && base == 16 && n != 0 then '0' :: c.kind :: ds
    else if c.alternate && base == 8 then '0' :: ds
    else ds
  if c.kind = 'd' ∨ c.kind = 'i' then
    if n < 0 then '-' :: ds
    else if c.plus then '+' :: ds
    else if c.blank then ' ' :: ds
    else ds
  else ds

/-- What is wrong with a format or an argument. -/
inductive Complaint where
  | noNumber (argument : Text)
  | trailing (argument : Text)
  | noConversion (text : Text)
  | unfinished
deriving DecidableEq, Repr

/-- The wording of a complaint. -/
def Complaint.message : Complaint → String
  | .noNumber t => Text.string t ++ ": expected numeric value"
  | .trailing t => Text.string t ++ ": not completely converted"
  | .noConversion t => Text.string t ++ ": invalid directive"
  | .unfinished => "missing format character"

/-- The status after a complaint; a format that is wrong is worse than an argument. -/
def Complaint.status : Complaint → Nat
  | .noNumber _ => 1
  | .trailing _ => 1
  | .noConversion _ => 2
  | .unfinished => 2

/-- The number that an argument writes, as a constant or as a character after a quote; and what is
to be complained about. -/
def argumentNumber (t : Text) : Int × List Complaint :=
  match t with
  | [] => (0, [])
  | '\'' :: c :: _ => (c.toNat, [])
  | '"' :: c :: _ => (c.toNat, [])
  | _ =>
    let (negative, ds) :=
      match t with
      | '-' :: ds => (true, ds)
      | '+' :: ds => (false, ds)
      | ds => (false, ds)
    let (n, rest) := Text.constantAt ds
    (if negative then -(n : Int) else n,
      if rest.length = ds.length then [.noNumber t] else if rest = [] then [] else [.trailing t])

/-- What a format has written: the text, the arguments left, whether output was ended, and what was
complained about. -/
structure Result where
  text : Text
  rest : List Text
  ended : Bool
  complaints : List Complaint

/-- Carries out a conversion on the next argument. -/
def convert (c : Conversion) (arguments : List Text) : Result :=
  let argument := arguments.headD []
  let rest := arguments.drop 1
  if c.kind = 's' then
    let t := match c.precision with
      | some n => argument.take n
      | none => argument
    ⟨widen c false t, rest, false, []⟩
  else if c.kind = 'b' then
    let (t, ended) := unescapeText argument
    ⟨widen c false t, rest, ended, []⟩
  else if c.kind = 'c' then ⟨widen c false (argument.take 1), rest, false, []⟩
  else
    let (n, complaints) := argumentNumber argument
    ⟨widen c (c.zeros && c.precision.isNone) (numberText c n), rest, false, complaints⟩

/-- Uses a format once. -/
def once : Nat → Text → List Text → Result
  | 0, _, arguments => ⟨[], arguments, true, []⟩
  | _ + 1, [], arguments => ⟨[], arguments, false, []⟩
  | fuel + 1, '\\' :: cs, arguments =>
    match escape? cs with
    | some (c, n) =>
      let r := once fuel (cs.drop n) arguments
      { r with text := c :: r.text }
    | none =>
      if cs.head? = some 'c' then ⟨[], arguments, true, []⟩
      else
        let r := once fuel cs arguments
        { r with text := '\\' :: r.text }
  | fuel + 1, '%' :: '%' :: cs, arguments =>
    let r := once fuel cs arguments
    { r with text := '%' :: r.text }
  | fuel + 1, '%' :: cs, arguments =>
    let (c, rest, arguments) := conversion cs arguments
    match c with
    | none => ⟨[], arguments, true, [.unfinished]⟩
    | some c =>
      if "sbcdiuoxX".toList.contains c.kind then
        let r := convert c arguments
        if r.ended then r
        else
          let r' := once fuel rest r.rest
          { r' with text := r.text ++ r'.text, complaints := r.complaints ++ r'.complaints }
      else ⟨[], arguments, true, [.noConversion ('%' :: cs.take (cs.length - rest.length))]⟩
  | fuel + 1, c :: cs, arguments =>
    let r := once fuel cs arguments
    { r with text := c :: r.text }

/-- Uses a format until no arguments are left, or as often as it takes any. -/
def write : Nat → Text → List Text → Result
  | 0, _, arguments => ⟨[], arguments, true, []⟩
  | fuel + 1, format, arguments =>
    let r := once (format.length + 1) format arguments
    if r.ended || r.rest.isEmpty || r.rest.length == arguments.length then r
    else
      let r' := write fuel format r.rest
      { r' with text := r.text ++ r'.text, complaints := r.complaints ++ r'.complaints }

end CoverRun.Shell.Format

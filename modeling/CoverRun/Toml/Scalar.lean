import CoverRun.Json.Node
import CoverRun.Toml.Value

/-!
# Plain values in TOML

A plain value is one word: a truth value, a number, a day or a time. `Value.ofWord?` reads a whole
word. A number may be too large for what keeps it, or hold letters after its first underscore; such
a word is a value that cannot be used, `Value.unreadable`.
-/

namespace CoverRun.Toml

/-! ## Words -/

/-- Whether a character ends a word. -/
def endsWord (c : Char) : Bool :=
  ['=', ',', '[', ']', '{', '}', ' ', '\t', '#', '\r', '\n'].contains c

/-- Cuts off a word. -/
def cutWord (cs : List Char) : List Char × List Char :=
  (cs.takeWhile fun c => !endsWord c, cs.dropWhile fun c => !endsWord c)

/-- Cuts off the word of a plain value, in which a blank may stand between a day and a time. -/
def cutScalar (cs : List Char) : List Char × List Char :=
  let (word, rest) := cutWord cs
  match word.dropWhile isDigit, rest with
  | '-' :: _, ' ' :: c :: rest' =>
    if isDigit c then
      let (time, rest) := cutWord (c :: rest')
      (word ++ ' ' :: time, rest)
    else (word, rest)
  | _, _ => (word, rest)

/-! ## Digits -/

/-- Whether a character is a digit of a base, in which letters of both cases follow nine. -/
def isDigitOf (base : Nat) (c : Char) : Bool :=
  match Json.hexValue? c with
  | some n => n < base
  | none => false

/-- The number that digits of a base write. -/
def digitsNumber (base : Nat) (ds : List Char) : Nat :=
  ds.foldl (fun n c => n * base + (Json.hexValue? c).getD 0) 0

/-- The parts of a text between its underscores. -/
def groups : List Char → List (List Char)
  | [] => [[]]
  | c :: cs =>
    if c = '_' then [] :: groups cs
    else
      match groups cs with
      | [] => [[c]]
      | g :: gs => (c :: g) :: gs

/-- The digits of a text that holds nothing else but single underscores between them. -/
def digits? (base : Nat) (cs : List Char) : Option (List Char) :=
  let gs := groups cs
  if gs.all fun g => g != [] && g.all (isDigitOf base) then some gs.flatten else none

/-- Whether digits have a needless zero in front. -/
def hasNeedlessZero (ds : List Char) : Bool := ds.head? == some '0' && ds.length != 1

/-! ## Integers -/

/-- The largest integer that is kept. -/
def integerLimit : Nat := 0xffffffffffffffffffffffffffffffff

/-- The distance from zero to the smallest integer that is kept. -/
def negativeLimit : Nat := 0x80000000000000000000000000000000

/-- How many digits, after zeros in front, an integer that is kept has at most in any base. -/
def digitLimit : Nat := 128

/-- The integer that digits of a base write, if it is kept. -/
def integerOf? (negative : Bool) (base : Nat) (ds : List Char) : Option Int :=
  let ds := ds.dropWhile (· == '0')
  if digitLimit < ds.length then none
  else
    let n := digitsNumber base ds
    if n ≤ (if negative then negativeLimit else integerLimit) then
      some (if negative then -n else n)
    else none

/-- The value of a word that writes an integer. -/
def integerValue (negative : Bool) (base : Nat) (word ds : List Char) : Value :=
  match integerOf? negative base ds with
  | some n => .integer n
  | none => .unreadable (String.ofList word)

/-- Reads a word with the mark of a base, after which anything must be digits of it. -/
def ofBased? (base : Nat) (word cs : List Char) : Option Value :=
  if cs = [] then some (.unreadable (String.ofList word))
  else (digits? base cs).map (integerValue false base word)

/-- Reads an integer with underscores after its sign. Around an underscore there must be digits,
hexadecimal ones included, and elsewhere there may be anything; but only decimal digits alone make a
number. -/
def ofGrouped? (negative : Bool) (word cs : List Char) : Option Value :=
  let gs := groups cs
  let isHexadecimal (c : Option Char) : Bool := (c.map (isDigitOf 16)).getD false
  if cs.head? == some '0' then none
  else if (gs.all fun g => isHexadecimal g.head?) &&
      (gs.dropLast.all fun g => isHexadecimal g.getLast?) then
    let ds := gs.flatten
    some (if ds.all isDigit then integerValue negative 10 word ds
      else .unreadable (String.ofList word))
  else none

/-! ## Reals -/

/-- The digits of a real number: those before and after its point and those of its exponent. -/
structure RealText where
  whole : List Char
  fraction : List Char
  shrinks : Bool
  exponent : List Char
deriving DecidableEq, Repr

/-- The whole numbers below this one and the reals next to them round to a double; from it on, they
round to infinity. -/
def doubleLimit : Nat := Nat.pow 2 1024 - Nat.pow 2 970

/-- How many digits stand before the point in the largest doubles. -/
def doubleDigits : Nat := 309

/-- An exponent with more digits than this outweighs the digits of any text. -/
def exponentDigits : Nat := 18

namespace RealText

/-- Whether the number rounds to a double, and not to infinity. Its digits are shifted until the
first one that is not zero stands at the place of the largest doubles; what is then behind the point
does not decide. -/
def isFinite (r : RealText) : Bool :=
  let ds := (r.whole ++ r.fraction).dropWhile (· == '0')
  let es := r.exponent.dropWhile (· == '0')
  if ds = [] then true
  else if exponentDigits < es.length then r.shrinks
  else
    let e : Int := digitsNumber 10 es
    let place : Int := ds.length - r.fraction.length + if r.shrinks then -e else e
    if place < doubleDigits then true
    else if doubleDigits < place then false
    else
      let leading := ds.take doubleDigits
      let zeros := List.replicate (doubleDigits - leading.length) '0'
      digitsNumber 10 (leading ++ zeros) < doubleLimit

/-- The digits of an exponent after its letter, and whether it is below zero. -/
def exponent? : List Char → Option (Bool × List Char)
  | '+' :: cs => (digits? 10 cs).map (false, ·)
  | '-' :: cs => (digits? 10 cs).map (true, ·)
  | cs => (digits? 10 cs).map (false, ·)

/-- Reads a real number after its sign. -/
def read? (cs : List Char) : Option RealText := do
  let isGrouped (c : Char) : Bool := isDigit c || c == '_'
  let whole ← digits? 10 (cs.takeWhile isGrouped)
  if hasNeedlessZero whole then none
  else
    let cs := cs.dropWhile isGrouped
    let (fraction, cs) ←
      match cs with
      | '.' :: cs => (digits? 10 (cs.takeWhile isGrouped)).map (·, cs.dropWhile isGrouped)
      | _ => some ([], cs)
    let (shrinks, exponent) ←
      match cs with
      | [] => some (false, [])
      | 'e' :: cs => exponent? cs
      | 'E' :: cs => exponent? cs
      | _ => none
    return ⟨whole, fraction, shrinks, exponent⟩

end RealText

/-- Reads a word that has a point or an exponent after its sign. -/
def ofReal? (word cs : List Char) : Option Value :=
  (RealText.read? cs).map fun r =>
    if r.isFinite then .real (String.ofList word) else .unreadable (String.ofList word)

/-! ## Plain values -/

/-- Whether a character shows that a number is a real one. -/
def isRealMark (c : Char) : Bool := c == '.' || c == 'e' || c == 'E'

/-- Reads a day, a time or both, which must be the whole word. -/
def ofMoment? (word : List Char) : Option Value :=
  match Moment.read? word with
  | some (m, []) => some (.moment m)
  | _ => none

/-- Reads a word that is not a truth value and has no mark of a base. `cs` is what follows its sign,
if it has one. -/
def ofDecimal? (negative : Bool) (word cs : List Char) : Option Value :=
  let ds := cs.takeWhile isDigit
  if cs = ['i', 'n', 'f'] ∨ cs = ['n', 'a', 'n'] then some (.real (String.ofList word))
  else if ds = [] then none
  else
    match cs.dropWhile isDigit with
    | [] => if hasNeedlessZero ds then none else some (integerValue negative 10 word ds)
    | '-' :: _ => ofMoment? word
    | ':' :: _ => ofMoment? word
    | c :: rest =>
      if (c :: rest).any isRealMark then ofReal? word cs
      else if c = '_' then ofGrouped? negative word cs
      else none

/-- Reads a whole word. -/
def Value.ofWord? (word : List Char) : Option Value :=
  match word with
  | ['t', 'r', 'u', 'e'] => some (.boolean true)
  | ['f', 'a', 'l', 's', 'e'] => some (.boolean false)
  | '+' :: cs => ofDecimal? false word cs
  | '-' :: cs => ofDecimal? true word cs
  | '0' :: 'x' :: cs => ofBased? 16 word cs
  | '0' :: 'o' :: cs => ofBased? 8 word cs
  | '0' :: 'b' :: cs => ofBased? 2 word cs
  | cs => ofDecimal? false word cs

/-- Reads a value that is neither text, array nor table, and what follows it. -/
def scalar? (cs : List Char) : Option (Value × List Char) :=
  let (word, rest) := cutScalar cs
  (Value.ofWord? word).map (·, rest)

end CoverRun.Toml

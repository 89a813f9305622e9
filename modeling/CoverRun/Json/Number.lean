import CoverRun.Json.Shortest

/-!
# Numbers in JSON

A number is written as digits with an optional fraction and exponent. One without these is kept
exactly if it fits 64 bits, signed below zero and unsigned above; every other one becomes a double.
-/

namespace CoverRun.Json

/-- The largest number of 64 bits. -/
def wordLimit : Nat := 0xffffffffffffffff

/-- How many numbers below zero have 64 bits with a sign. -/
abbrev signLimit : Nat := 0x8000000000000000

/-- A number as it is kept: up to 64 bits from zero on, `-(n + 1)` below zero, or a double. -/
inductive Number where
  | natural (n : UInt64)
  | negative (n : Fin signLimit)
  | real (x : Float)
deriving Repr, Inhabited

/-- A number as it is written. -/
structure NumberText where
  negative : Bool
  whole : List Char
  fraction : Option (List Char)
  exponent : Option (Bool × List Char)
deriving DecidableEq, Repr

/-- The value of a digit. -/
def digitValue (c : Char) : Nat := c.toNat - '0'.toNat

/-- The number that digits write. -/
def digitsValue (digits : List Char) : Nat := digits.foldl (fun n c => n * 10 + digitValue c) 0

namespace NumberText

/-- Whether the number is written without fraction and exponent. -/
def isInteger (t : NumberText) : Bool := t.fraction.isNone && t.exponent.isNone

/-- The value of a written natural number of up to 64 bits. -/
def word? (t : NumberText) : Option UInt64 :=
  let n := digitsValue t.whole
  if t.isInteger && !t.negative && n ≤ wordLimit then some (UInt64.ofNat n) else none

/-- Takes in digits until the number would no longer fit 64 bits: the number and how many digits
are left. -/
def absorb (n : Nat) : List Char → Nat × Nat
  | [] => (n, 0)
  | c :: cs =>
    let next := n * 10 + digitValue c
    if next ≤ wordLimit then absorb next cs else (n, cs.length + 1)

/-- Ten to a power that a double can hold. -/
def powerOfTen (n : Nat) : Float := Float.ofScientific 1 false n

/-- Divides by a power of ten, in steps of what a double can hold. -/
def divide (x : Float) (power : Nat) : Float :=
  if power ≤ 308 then x / powerOfTen power
  else if x == 0 then x
  else divide (x / powerOfTen 308) (power - 308)
termination_by power

/-- Scales by a power of ten, unless that leads beyond all doubles. -/
def scale? (x : Float) (power : Int) : Option Float :=
  if power < 0 then some (divide x (-power).toNat)
  else if power ≤ 308 then
    let y := x * powerOfTen power.toNat
    if y.isInf then none else some y
  else if x == 0 then some x
  else none

/-- The double of a number with a fraction, an exponent or more digits than fit. -/
def real? (t : NumberText) : Option Float :=
  let (n, skipped) := absorb 0 t.whole
  let fraction := t.fraction.getD []
  let (n, left) := absorb n fraction
  let power : Int := skipped - (fraction.length - left : Nat)
  let size := (UInt64.ofNat n).toFloat
  let magnitude :=
    match t.exponent with
    | none => scale? size power
    | some (below, digits) =>
      let e := digitsValue digits
      if e ≤ 0x7fffffff then scale? size (if below then power - e else power + e)
      else if n ≠ 0 ∧ below = false then none
      else some 0
  magnitude.map fun x => if t.negative then -x else x

/-- The number that is kept, unless it lies beyond all doubles. -/
def number? (t : NumberText) : Option Number :=
  let n := digitsValue t.whole
  if t.isInteger = false ∨ wordLimit < n then t.real?.map .real
  else if t.negative = false then some (.natural (UInt64.ofNat n))
  else if h : 0 < n ∧ n ≤ signLimit then some (.negative ⟨n - 1, by omega⟩)
  else some (.real (-(UInt64.ofNat n).toFloat))

end NumberText

/-- Decimal digits of a natural number. -/
def naturalText (n : Nat) : String := String.ofList (Nat.toDigits 10 n)

/-- Digits with a power of ten, written out from `0.00001` to below `10 ^ 16` and with an exponent
otherwise. What is written out always has a point. -/
def decimalText (digits : List Char) (power : Int) : String :=
  let point : Int := digits.length + power
  String.ofList <|
    if 0 ≤ power ∧ point ≤ 16 then
      digits ++ List.replicate power.toNat '0' ++ ['.', '0']
    else if 0 < point ∧ point ≤ 16 then
      digits.take point.toNat ++ '.' :: digits.drop point.toNat
    else if -5 < point ∧ point ≤ 0 then
      '0' :: '.' :: List.replicate (-point).toNat '0' ++ digits
    else
      let mantissa :=
        match digits with
        | [] => []
        | [d] => [d]
        | d :: ds => d :: '.' :: ds
      let e := point - 1
      mantissa ++ 'e' :: (if e < 0 then '-' else '+') :: Nat.toDigits 10 e.natAbs

/-- The text of a finite double: the fewest digits that read back. -/
def realText (x : Float) : String :=
  let bits := x.toBits.toNat
  let (n, power) := Shortest.ofBits (bits % signLimit)
  let size := if n = 0 then "0.0" else decimalText (Nat.toDigits 10 n) power
  if signLimit ≤ bits then "-" ++ size else size

/-- The text of a number. -/
def Number.text : Number → String
  | .natural n => naturalText n.toNat
  | .negative n => "-" ++ naturalText (n.val + 1)
  | .real x => realText x

end CoverRun.Json

/-!
# Shortest decimals

A double is `m · 2 ^ q`; the numbers that round to it form an interval around it, its ends included
if `m` is even. `nearest` gives the multiple of the largest power of ten in that interval, and of
two multiples the nearer one: the fewest digits that read back as the same double.
-/

namespace CoverRun.Shortest

/-- An interval around a positive number, as numerators over one denominator. -/
structure Interval where
  low : Nat
  middle : Nat
  high : Nat
  denominator : Nat
  closed : Bool
deriving Repr

/-- The numbers that round to a double with this significand and binary exponent. The gap below is
half as wide where the exponent steps, that is at the least significand but for the least
exponent. -/
def Interval.ofDouble (significand : Nat) (exponent : Int) (steps : Bool) : Interval :=
  let scale := Nat.pow 2 exponent.toNat
  ⟨(4 * significand - if steps then 1 else 2) * scale, 4 * significand * scale,
    (4 * significand + 2) * scale, 4 * Nat.pow 2 (-exponent).toNat, significand % 2 = 0⟩

/-- Whether a fraction lies in the interval. -/
def Interval.has (i : Interval) (numerator denominator : Nat) : Bool :=
  let n := numerator * i.denominator
  if i.closed then i.low * denominator ≤ n && n ≤ i.high * denominator
  else i.low * denominator < n && n < i.high * denominator

/-- The multiples of a power of ten next to the middle that lie in the interval, the nearer one
first and of two equally near ones the even one. -/
def Interval.multiple? (i : Interval) (power : Int) : Option Nat :=
  let up := Nat.pow 10 power.toNat
  let down := Nat.pow 10 (-power).toNat
  let whole := i.middle * down / (i.denominator * up)
  let left := i.middle * down % (i.denominator * up)
  let inside (d : Nat) : Bool := d != 0 && i.has (d * up) down
  let lowerFirst : Bool :=
    2 * left < i.denominator * up || (2 * left == i.denominator * up && whole % 2 == 0)
  let (first, second) := if lowerFirst then (whole, whole + 1) else (whole + 1, whole)
  if inside first then some first
  else if inside second then some second
  else none

/-- Looks for a multiple, from a power of ten downwards. -/
def Interval.search (i : Interval) : Nat → Int → Option (Nat × Int)
  | 0, _ => none
  | fuel + 1, power =>
    match i.multiple? power with
    | some d => some (d, power)
    | none => i.search fuel (power - 1)

/-- Digits and power of ten of the shortest decimal of a finite double without its sign: below
eleven bits of exponent it has 52 bits of fraction. -/
def ofBits (bits : Nat) : Nat × Int :=
  let fraction : Nat := bits % Nat.pow 2 52
  let biased : Nat := bits / Nat.pow 2 52 % Nat.pow 2 11
  if fraction = 0 ∧ biased = 0 then (0, 0)
  else
    let i :=
      if biased = 0 then Interval.ofDouble fraction (-1074) false
      else
        Interval.ofDouble (fraction + Nat.pow 2 52) ((biased : Int) - 1075)
          (fraction = 0 ∧ 1 < biased)
    (i.search 650 310).getD (0, 0)

end CoverRun.Shortest

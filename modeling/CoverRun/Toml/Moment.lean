import CoverRun.Json.Number

/-!
# Dates and times

A moment is a day, a time of day or both, and with both maybe an offset. `Moment.read?` takes one
from the start of a text; `Moment.text` writes it with `T` between day and time.
-/

namespace CoverRun.Toml

/-- A day of the calendar. -/
structure Day where
  year : Nat
  month : Nat
  day : Nat
deriving DecidableEq, Repr

/-- A time of day, where seconds may be missing and a fraction of a second is digits. -/
structure Clock where
  hour : Nat
  minute : Nat
  second : Option Nat
  fraction : Option (List Char)
deriving DecidableEq, Repr

/-- The distance from universal time, as `Z` or as signed hours and minutes. -/
inductive Offset where
  | universal
  | shifted (west : Bool) (hour minute : Nat)
deriving DecidableEq, Repr

/-- A day, a time or both. -/
inductive Moment where
  | day (d : Day)
  | clock (c : Clock)
  | both (d : Day) (c : Clock) (offset : Option Offset)
deriving DecidableEq, Repr

/-! ## The calendar -/

/-- Whether a year has a 29th of February. -/
def isLeap (year : Nat) : Bool := year % 4 = 0 && (year % 100 != 0 || year % 400 = 0)

/-- The number of days of a month. -/
def monthLength (year month : Nat) : Nat :=
  if month = 2 then if isLeap year then 29 else 28
  else if month = 4 ∨ month = 6 ∨ month = 9 ∨ month = 11 then 30
  else 31

/-- Whether there is such a day. -/
def Day.isValid (d : Day) : Bool :=
  1 ≤ d.month && d.month ≤ 12 && 1 ≤ d.day && d.day ≤ monthLength d.year d.month

/-- Whether there is such a time; a minute may have a leap second. -/
def Clock.isValid (c : Clock) : Bool :=
  c.hour ≤ 23 && c.minute ≤ 59 && c.second.getD 0 ≤ 60

/-! ## Reading -/

/-- Whether a character is a digit. -/
def isDigit (c : Char) : Bool := '0' ≤ c && c ≤ '9'

/-- The number of the first two characters, and what follows them. -/
def twoDigits? : List Char → Option (Nat × List Char)
  | a :: b :: rest => if isDigit a && isDigit b then some (Json.digitsValue [a, b], rest) else none
  | _ => none

/-- Reads a day from the start of a text. -/
def day? (cs : List Char) : Option (Day × List Char) := do
  let (century, cs) ← twoDigits? cs
  let (year, cs) ← twoDigits? cs
  match cs with
  | '-' :: cs =>
    let (month, cs) ← twoDigits? cs
    match cs with
    | '-' :: cs =>
      let (day, cs) ← twoDigits? cs
      let d : Day := ⟨century * 100 + year, month, day⟩
      if d.isValid then some (d, cs) else none
    | _ => none
  | _ => none

/-- Reads the fraction of a second, if there is a point. -/
def fraction? : List Char → Option (Option (List Char) × List Char)
  | '.' :: cs =>
    let digits := cs.takeWhile isDigit
    if digits = [] then none else some (some digits, cs.dropWhile isDigit)
  | cs => some (none, cs)

/-- Reads a time from the start of a text. -/
def clock? (cs : List Char) : Option (Clock × List Char) := do
  let (hour, cs) ← twoDigits? cs
  match cs with
  | ':' :: cs =>
    let (minute, cs) ← twoDigits? cs
    let (second, fraction, cs) ←
      match cs with
      | ':' :: cs => do
        let (second, cs) ← twoDigits? cs
        let (fraction, cs) ← fraction? cs
        some (some second, fraction, cs)
      | cs => some (none, none, cs)
    let c : Clock := ⟨hour, minute, second, fraction⟩
    if c.isValid then some (c, cs) else none
  | _ => none

/-- Reads hours and minutes of an offset after its sign. -/
def shift? (west : Bool) (cs : List Char) : Option (Option Offset × List Char) := do
  let (hour, cs) ← twoDigits? cs
  match cs with
  | ':' :: cs =>
    let (minute, cs) ← twoDigits? cs
    if hour ≤ 23 ∧ minute ≤ 59 then some (some (.shifted west hour minute), cs) else none
  | _ => none

/-- Reads an offset, if there is one. -/
def offset? : List Char → Option (Option Offset × List Char)
  | 'Z' :: cs => some (some .universal, cs)
  | 'z' :: cs => some (some .universal, cs)
  | '+' :: cs => shift? false cs
  | '-' :: cs => shift? true cs
  | cs => some (none, cs)

/-- What follows the separator between day and time. A blank separates only before a digit. -/
def afterSeparator? : List Char → Option (List Char)
  | 'T' :: cs => some cs
  | 't' :: cs => some cs
  | ' ' :: c :: cs => if isDigit c then some (c :: cs) else none
  | _ => none

namespace Moment

/-- Reads a moment from the start of a text. -/
def read? (cs : List Char) : Option (Moment × List Char) :=
  match cs.dropWhile isDigit with
  | ':' :: _ => (clock? cs).map fun r => (.clock r.1, r.2)
  | _ => do
    let (d, cs) ← day? cs
    match afterSeparator? cs with
    | none => some (.day d, cs)
    | some cs =>
      let (c, cs) ← clock? cs
      let (offset, cs) ← offset? cs
      some (.both d c offset, cs)

end Moment

/-! ## Writing -/

/-- A number in at least so many digits. -/
def padded (width n : Nat) : List Char :=
  let digits := Nat.toDigits 10 n
  List.replicate (width - digits.length) '0' ++ digits

/-- How a day is written. -/
def Day.text (d : Day) : List Char :=
  padded 4 d.year ++ '-' :: padded 2 d.month ++ '-' :: padded 2 d.day

/-- A fraction in at most nine digits, without needless zeros at its end. -/
def fractionText (digits : List Char) : List Char :=
  let kept := ((digits.take 9).reverse.dropWhile (· == '0')).reverse
  if kept = [] then ['0'] else kept

/-- How a time is written. -/
def Clock.text (c : Clock) : List Char :=
  padded 2 c.hour ++ ':' :: padded 2 c.minute ++
    (match c.second with
    | some s => ':' :: padded 2 s
    | none => []) ++
    match c.fraction with
    | some digits => '.' :: fractionText digits
    | none => []

/-- How an offset is written. -/
def Offset.text : Offset → List Char
  | .universal => ['Z']
  | .shifted west hour minute =>
    (if west && (hour != 0 || minute != 0) then '-' else '+') ::
      (padded 2 hour ++ ':' :: padded 2 minute)

namespace Moment

/-- How a moment is written. -/
def text : Moment → String
  | .day d => String.ofList d.text
  | .clock c => String.ofList c.text
  | .both d c offset =>
    String.ofList (d.text ++ 'T' :: c.text ++ (offset.map Offset.text).getD [])

end Moment

end CoverRun.Toml

/-!
# Sentinels

A test prints its hits between two occurrences of a sentinel on one line. The payload begins after
the first occurrence that can be closed and ends before the first later one that leaves it at least
one character; no line feed lies in it. `payloadBetween` is the meaning by positions, `payload?` the
search.
-/

namespace CoverRun.Sentinel

/-- Looks for the occurrence that closes a payload, of which some characters were taken, last
first. -/
def close? (sentinel taken : List Char) : List Char → Option (List Char)
  | [] => none
  | c :: cs =>
    if c = '\n' then none
    else if sentinel.isPrefixOf cs then some (c :: taken).reverse
    else close? sentinel (c :: taken) cs

/-- The payload that an occurrence at the very start opens. -/
def openedHere? (sentinel line : List Char) : Option (List Char) :=
  if sentinel.isPrefixOf line then close? sentinel [] (line.drop sentinel.length) else none

/-- The payload of a line. -/
def payload? (sentinel : List Char) : List Char → Option (List Char)
  | [] => none
  | c :: cs =>
    match openedHere? sentinel (c :: cs) with
    | some payload => some payload
    | none => payload? sentinel cs

/-- The sentinel occurs at a position. -/
def OccursAt (sentinel line : List Char) (i : Nat) : Prop := sentinel <+: line.drop i

/-- Occurrences at two positions enclose a payload: something, without a line feed. -/
def Encloses (sentinel line : List Char) (i j : Nat) : Prop :=
  OccursAt sentinel line i ∧ OccursAt sentinel line j ∧ i + sentinel.length + 1 ≤ j ∧
    j ≤ line.length ∧ '\n' ∉ (line.drop (i + sentinel.length)).take (j - (i + sentinel.length))

/-- What lies between occurrences at two positions. -/
def payloadBetween (sentinel line : List Char) (i j : Nat) : List Char :=
  (line.drop (i + sentinel.length)).take (j - (i + sentinel.length))

end CoverRun.Sentinel

import CoverRun.Shell.Text
import CoverRun.Text.Suffixes

/-!
# Patterns

A pattern stands for texts: `*` for any run of characters, `?` for one, brackets for one of those
in them. A character that was quoted stands for itself. Which texts these are is read off a table of
the ends of a text, made token by token from the last one.
-/

namespace CoverRun.Shell

/-- A character and whether it was quoted. -/
abbrev Mark := Bool × Char

namespace Pattern

/-- The members of brackets after the opening one, up to the closing one, and what follows. A
closing bracket that comes first is a member. -/
def members? : Bool → List Mark → Option (List Mark × List Mark)
  | _, [] => none
  | first, m :: ms =>
    if m = (false, ']') ∧ first = false then some ([], ms)
    else (members? false ms).map fun r => (m :: r.1, r.2)

/-- Whether a character is among members, of which two with a dash between them make a range. -/
def isMember (c : Char) : List Mark → Bool
  | (_, a) :: (false, '-') :: (_, b) :: ms =>
    (a.toNat ≤ c.toNat && c.toNat ≤ b.toNat) || isMember c ms
  | (_, a) :: ms => c == a || isMember c ms
  | [] => false

/-- A piece of a pattern. -/
inductive Token where
  | char (c : Char)
  | any
  | run
  | oneOf (negated : Bool) (members : List Mark)
deriving DecidableEq, Repr

/-- Reads brackets after the opening one. -/
def brackets? (ms : List Mark) : Option (Token × List Mark) :=
  match ms with
  | (false, '!') :: ms => (members? true ms).map fun r => (.oneOf true r.1, r.2)
  | (false, '^') :: ms => (members? true ms).map fun r => (.oneOf true r.1, r.2)
  | ms => (members? true ms).map fun r => (.oneOf false r.1, r.2)

/-- Reads a pattern; brackets that are not closed stand for themselves. -/
def tokens : Nat → List Mark → List Token
  | 0, _ => []
  | _ + 1, [] => []
  | fuel + 1, (true, c) :: ms => .char c :: tokens fuel ms
  | fuel + 1, (false, c) :: ms =>
    if c = '*' then .run :: tokens fuel ms
    else if c = '?' then .any :: tokens fuel ms
    else if c = '[' then
      match brackets? ms with
      | some (t, rest) => t :: tokens fuel rest
      | none => .char c :: tokens fuel ms
    else .char c :: tokens fuel ms

/-- The table of what a token stands for, going on as a table says. -/
def Token.table (t : Token) (cs : Text) (next : List Bool) : List Bool :=
  match t with
  | .char d => Suffixes.afterOne (· == d) cs next
  | .any => Suffixes.afterOne (fun _ => true) cs next
  | .run => Suffixes.afterRun (fun _ => true) cs next
  | .oneOf negated members => Suffixes.afterOne (fun c => isMember c members != negated) cs next

/-- The table of what tokens stand for. -/
def table (ts : List Token) (cs : Text) : List Bool :=
  ts.foldr (fun t next => t.table cs next) (Suffixes.empty cs)

/-- The tokens of a whole pattern. -/
def read (ms : List Mark) : List Token := tokens (ms.length + 1) ms

/-- Whether a text is among those that a pattern stands for. -/
def matchesText (ms : List Mark) (cs : Text) : Bool := (table (read ms) cs).headD false

/-- Whether a pattern has a wildcard. -/
def hasWildcard (ms : List Mark) : Bool :=
  ms.any fun m => !m.1 && (m.2 == '*' || m.2 == '?' || m.2 == '[')

/-- How many items stand before the first one that is true. -/
def firstTrue? (table : List Bool) : Option Nat := table.findIdx? (· == true)

/-- A text without the part at its start that tokens stand for. What they stand for backwards is at
the end of the text backwards; the last place of the table is that of the empty part. -/
def cutStart (longest : Bool) (ts : List Token) (cs : Text) : Text :=
  let table := table ts.reverse cs.reverse
  match firstTrue? (if longest then table else table.reverse) with
  | some n => cs.drop (if longest then cs.length - n else n)
  | none => cs

/-- A text without the part at its end that tokens stand for. -/
def cutEnd (longest : Bool) (ts : List Token) (cs : Text) : Text :=
  let table := table ts cs
  match firstTrue? (if longest then table else table.reverse) with
  | some n => cs.take (if longest then n else cs.length - n)
  | none => cs

/-- A text without the part at its start or its end that a pattern stands for. -/
def cut (atEnd longest : Bool) (ms : List Mark) (cs : Text) : Text :=
  if atEnd then cutEnd longest (read ms) cs else cutStart longest (read ms) cs

end Pattern

end CoverRun.Shell

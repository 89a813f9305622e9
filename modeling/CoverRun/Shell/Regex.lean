import CoverRun.Shell.Pattern

/-!
# Regular expressions

An expression stands for texts. In the basic notation grouping, repetition and choice are written
with a backslash, in the extended one without. `Regex.finds` looks for an expression anywhere in a
line; it fills a table over the line, from the end of the expression to its start.
-/

namespace CoverRun.Shell

/-- An expression that stands for texts. -/
inductive Regex where
  | nothing
  | char (c : Char)
  | any
  | oneOf (negated : Bool) (members : List Mark)
  | start
  | finish
  | next (a b : Regex)
  | either (a b : Regex)
  | many (a : Regex)

namespace Regex

/-! ## Reading -/

/-- A piece of the text of an expression. -/
inductive Token where
  | atom (a : Regex)
  | star
  | plus
  | optional
  | bar
  | opening
  | closing

/-- A character that has a meaning with a backslash in the one notation, without in the other. -/
def operator? (c : Char) : Option Token :=
  match c with
  | '+' => some .plus
  | '?' => some .optional
  | '|' => some .bar
  | '(' => some .opening
  | ')' => some .closing
  | _ => none

/-- Cuts the text of an expression into pieces. -/
def tokens (extended : Bool) : Nat → Text → List Token
  | 0, _ => []
  | _ + 1, [] => []
  | fuel + 1, '\\' :: c :: cs =>
    let t := if extended then none else operator? c
    t.getD (.atom (.char c)) :: tokens extended fuel cs
  | fuel + 1, '[' :: cs =>
    match Pattern.brackets? (cs.map fun c => (false, c)) with
    | some (.oneOf negated members, rest) =>
      .atom (.oneOf negated members) :: tokens extended fuel (rest.map (·.2))
    | _ => .atom (.char '[') :: tokens extended fuel cs
  | fuel + 1, c :: cs =>
    let t :=
      match c with
      | '.' => .atom .any
      | '*' => .star
      | '^' => .atom .start
      | '$' => .atom .finish
      | c => (if extended then operator? c else none).getD (.atom (.char c))
    t :: tokens extended fuel cs

/-- An expression repeated as the pieces after it say. -/
def repeated (a : Regex) : List Token → Regex × List Token
  | .star :: ts => repeated (.many a) ts
  | .plus :: ts => repeated (.next a (.many a)) ts
  | .optional :: ts => repeated (.either a .nothing) ts
  | ts => (a, ts)

mutual

/-- Reads a choice of sequences. -/
def choice : Nat → List Token → Regex × List Token
  | 0, ts => (.nothing, ts)
  | fuel + 1, ts =>
    match sequence fuel ts with
    | (a, .bar :: ts) =>
      let (b, ts) := choice fuel ts
      (.either a b, ts)
    | r => r

/-- Reads a sequence; a star that has nothing before it stands for itself. -/
def sequence : Nat → List Token → Regex × List Token
  | 0, ts => (.nothing, ts)
  | fuel + 1, ts =>
    let continued (a : Regex) (ts : List Token) : Regex × List Token :=
      let (a, ts) := repeated a ts
      let (b, ts) := sequence fuel ts
      (.next a b, ts)
    match ts with
    | .atom a :: ts => continued a ts
    | .star :: ts => continued (.char '*') ts
    | .opening :: ts =>
      let (a, ts) := choice fuel ts
      continued a (match ts with
        | .closing :: ts => ts
        | ts => ts)
    | ts => (.nothing, ts)

end

/-- Reads an expression. -/
def read (extended : Bool) (t : Text) : Regex :=
  let ts := tokens extended (t.length + 1) t
  (choice (2 * ts.length + 2) ts).1

/-- The expression that stands for one text alone. -/
def ofText (t : Text) : Regex := t.foldr (fun c a => .next (.char c) a) .nothing

/-! ## Matching -/

/-- The expressions that stand for single characters, as the characters for which they stand. -/
def single? (same : Char → Char → Bool) : Regex → Option (Char → Bool)
  | .char d => some (same · d)
  | .any => some fun _ => true
  | .oneOf negated members => some fun c => Pattern.isMember c members != negated
  | _ => none

/-- Adds to a table what a step makes of it, until that adds nothing. -/
def closure (step : List Bool → List Bool) : Nat → List Bool → List Bool
  | 0, table => table
  | fuel + 1, table =>
    let extended := List.zipWith or table (step table)
    if extended = table then table else closure step fuel extended

/-- The table of what an expression stands for in a line, going on as a table says. -/
def table (same : Char → Char → Bool) (line : Text) : Regex → List Bool → List Bool
  | .nothing, later => later
  | .start, later => later.take 1 ++ (later.drop 1).map fun _ => false
  | .finish, later => List.zipWith and later (Suffixes.empty line)
  | .next a b, later => table same line a (table same line b later)
  | .either a b, later => List.zipWith or (table same line a later) (table same line b later)
  | .many a, later =>
    match single? same a with
    | some isRight => Suffixes.afterRun isRight line later
    | none => closure (table same line a) (line.length + 1) later
  | .char d, later => Suffixes.afterOne (same · d) line later
  | .any, later => Suffixes.afterOne (fun _ => true) line later
  | .oneOf negated members, later =>
    Suffixes.afterOne (fun c => Pattern.isMember c members != negated) line later

/-- Whether an expression stands for a part of a line, or for all of it. -/
def finds (same : Char → Char → Bool) (whole : Bool) (a : Regex) (line : Text) : Bool :=
  if whole then (table same line a (Suffixes.empty line)).headD false
  else (table same line a ((suffixes line).map fun _ => true)).any id

end Regex

end CoverRun.Shell

import CoverRun.Shell.State

/-!
# Conditions

A condition is written in words: tests of one word or of two, negation, conjunction, disjunction
and parentheses. How many words there are decides how the first few are read.
-/

namespace CoverRun.Shell.Condition

/-- The truth of a condition, or the complaint about it. -/
abbrev Verdict := Except String Bool

/-- Where a path leads, if it leads anywhere. -/
def entryAt? (s : State) (last : FileTree.LastName) (t : Text) : Option FileTree.Entry :=
  match s.tree.resolve s.cwd (State.pathOf t) last with
  | .ok (.present _ e) => some e
  | _ => none

/-- The tests of one word. -/
def unary? (s : State) (op word : Text) : Option Bool :=
  let device := (State.deviceOf? (State.pathOf word)).isSome
  match String.ofList op with
  | "-n" => some (word != [])
  | "-z" => some (word == [])
  | "-e" => some (device || (entryAt? s .followed word).isSome)
  | "-f" => some (match entryAt? s .followed word with
      | some (.file _) => true
      | _ => false)
  | "-d" => some (match entryAt? s .followed word with
      | some .directory => true
      | _ => false)
  | "-s" => some (match entryAt? s .followed word with
      | some (.file content) => content != []
      | some _ => true
      | none => false)
  | "-r" => some (device || (entryAt? s .followed word).isSome)
  | "-w" => some (device || (entryAt? s .followed word).isSome)
  | "-x" => some (match entryAt? s .followed word with
      | some .directory => true
      | _ => false)
  | "-L" => some (match entryAt? s .shown word with
      | some (.link _) => true
      | _ => false)
  | "-h" => some (match entryAt? s .shown word with
      | some (.link _) => true
      | _ => false)
  | "-t" => some false
  | _ => none

/-- Compares two numbers. -/
def compare (holds : Int → Int → Bool) (a b : Text) : Verdict :=
  match Text.integer? a, Text.integer? b with
  | some x, some y => .ok (holds x y)
  | none, _ => .error ("Illegal number: " ++ Text.string a)
  | _, none => .error ("Illegal number: " ++ Text.string b)

/-- The tests of two words. -/
def binary? (op a b : Text) : Option Verdict :=
  match String.ofList op with
  | "=" => some (.ok (a == b))
  | "==" => some (.ok (a == b))
  | "!=" => some (.ok (a != b))
  | "-eq" => some (compare (fun x y => x == y) a b)
  | "-ne" => some (compare (fun x y => x != y) a b)
  | "-lt" => some (compare (fun x y => x < y) a b)
  | "-le" => some (compare (fun x y => x ≤ y) a b)
  | "-gt" => some (compare (fun x y => x > y) a b)
  | "-ge" => some (compare (fun x y => x ≥ y) a b)
  | _ => none

mutual

/-- A test, a negation or a condition in parentheses, and the words after it. -/
def primary (s : State) : Nat → List Text → Except String (Bool × List Text)
  | 0, _ => .error "argument expected"
  | fuel + 1, ws =>
    match ws with
    | [] => .error "argument expected"
    | a :: op :: b :: rest =>
      match binary? op a b with
      | some v => v.map fun r => (r, rest)
      | none => single s fuel ws
    | ws => single s fuel ws

/-- A test of one word, a negation or a condition in parentheses, and the words after it. -/
def single (s : State) : Nat → List Text → Except String (Bool × List Text)
  | 0, _ => .error "argument expected"
  | fuel + 1, ws =>
    match ws with
    | [] => .error "argument expected"
    | [a] => .ok (a != [], [])
    | a :: rest =>
      if a = ['!'] then (primary s fuel rest).map fun r => (!r.1, r.2)
      else if a = ['('] then
        match anyOf s fuel rest with
        | .ok (r, [')'] :: rest) => .ok (r, rest)
        | .ok _ => .error "closing paren expected"
        | .error e => .error e
      else
        match unary? s a (rest.headD []) with
        | some r => .ok (r, rest.drop 1)
        | none => .ok (a != [], rest)

/-- Conditions joined by `-a`. -/
def allOf (s : State) : Nat → List Text → Except String (Bool × List Text)
  | 0, _ => .error "argument expected"
  | fuel + 1, ws => do
    let (r, rest) ← primary s fuel ws
    match rest with
    | ['-', 'a'] :: rest =>
      let (r', rest) ← allOf s fuel rest
      return (r && r', rest)
    | rest => return (r, rest)

/-- Conditions joined by `-o`. -/
def anyOf (s : State) : Nat → List Text → Except String (Bool × List Text)
  | 0, _ => .error "argument expected"
  | fuel + 1, ws => do
    let (r, rest) ← allOf s fuel ws
    match rest with
    | ['-', 'o'] :: rest =>
      let (r', rest) ← anyOf s fuel rest
      return (r || r', rest)
    | rest => return (r, rest)

end

/-- The truth of words as a condition; no words are false. -/
def holds (s : State) (ws : List Text) : Verdict :=
  match ws with
  | [] => .ok false
  | [a] => .ok (a != [])
  | ws =>
    match anyOf s (4 * ws.length + 4) ws with
    | .ok (r, []) => .ok r
    | .ok (_, w :: _) => .error (Text.string w ++ ": unexpected operator")
    | .error e => .error e

end CoverRun.Shell.Condition

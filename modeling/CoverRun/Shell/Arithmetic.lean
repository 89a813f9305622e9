import CoverRun.Shell.Text

/-!
# Arithmetic

Expressions over whole numbers of 64 bits with the usual operators and their usual binding. A name
stands for the number that its variable writes, and may be assigned to. What a condition leaves out
is read without effect.
-/

namespace CoverRun.Shell.Arithmetic

/-- Why an expression has no value. -/
inductive Trouble where
  | operandMissing
  | operatorMissing
  | colonMissing
  | parenthesisMissing
  | zeroDivision
  | notNumber (t : Text)
deriving DecidableEq, Repr

/-- The wording of the trouble with an expression. -/
def Trouble.message (source : Text) : Trouble → String
  | .operandMissing => about "expecting primary"
  | .operatorMissing => about "expecting EOF"
  | .colonMissing => about "expecting ':'"
  | .parenthesisMissing => about "expecting ')'"
  | .zeroDivision => about "division by zero"
  | .notNumber t => "Illegal number: " ++ Text.string t
where
  /-- What is wrong, before the expression. -/
  about (what : String) : String :=
    "arithmetic expression: " ++ what ++ ": \"" ++ Text.string source ++ "\""

/-! ## Numbers -/

/-- The number of 64 bits that a number becomes. -/
def wrap (n : Int) : Int := (Int64.ofInt n).toInt

/-- The largest number. -/
def largest : Nat := 0x7fffffffffffffff

/-- The number that the value of a variable writes, between blanks; an empty one is zero. -/
def number? (t : Text) : Option Int :=
  let blank := fun c : Char => c == ' ' || c == '\t' || c == '\n'
  let (negative, ds) :=
    match t.dropWhile blank with
    | '-' :: ds => (true, ds)
    | '+' :: ds => (false, ds)
    | ds => (false, ds)
  let (n, rest) := Text.constantAt ds
  if rest.all blank then some (if negative then -(n : Int) else n) else none

/-- A truth value as a number. -/
def truth (b : Bool) : Int := if b then 1 else 0

/-! ## Tokens -/

/-- A piece of an expression. -/
inductive Token where
  | number (n : Nat)
  | name (t : Text)
  | symbol (t : String)
deriving DecidableEq, Repr

/-- The operators of several characters, a longer one before those that it begins with. -/
def symbols : List Text :=
  ["<<=", ">>=", "<=", ">=", "==", "!=", "&&", "||", "<<", ">>", "+=", "-=", "*=", "/=", "%=",
    "&=", "^=", "|="].map String.toList

/-- Cuts an expression into pieces. -/
def tokens : Nat → Text → List Token
  | 0, _ => []
  | _ + 1, [] => []
  | fuel + 1, c :: cs =>
    if c = ' ' ∨ c = '\t' ∨ c = '\n' then tokens fuel cs
    else if Text.isNameStart c then
      .name ((c :: cs).takeWhile Text.isNameChar) ::
        tokens fuel ((c :: cs).dropWhile Text.isNameChar)
    else if c.isDigit then
      let (n, rest) := Text.constantAt (c :: cs)
      .number (min n largest) :: tokens fuel rest
    else
      match symbols.find? fun t => t.isPrefixOf (c :: cs) with
      | some t => .symbol (String.ofList t) :: tokens fuel ((c :: cs).drop t.length)
      | none => .symbol (String.ofList [c]) :: tokens fuel cs

/-! ## Operators -/

/-- How tightly a binary operator binds, if a symbol is one. -/
def strength? : String → Option Nat
  | "||" => some 1
  | "&&" => some 2
  | "|" => some 3
  | "^" => some 4
  | "&" => some 5
  | "==" => some 6
  | "!=" => some 6
  | "<" => some 7
  | "<=" => some 7
  | ">" => some 7
  | ">=" => some 7
  | "<<" => some 8
  | ">>" => some 8
  | "+" => some 9
  | "-" => some 9
  | "*" => some 10
  | "/" => some 10
  | "%" => some 10
  | _ => none

/-- The value of an operator; there is none for a division by zero. -/
def operate? (op : String) (a b : Int) : Option Int :=
  match op with
  | "||" => some (truth (a != 0 || b != 0))
  | "&&" => some (truth (a != 0 && b != 0))
  | "|" => some (Int64.ofInt a ||| Int64.ofInt b).toInt
  | "^" => some (Int64.ofInt a ^^^ Int64.ofInt b).toInt
  | "&" => some (Int64.ofInt a &&& Int64.ofInt b).toInt
  | "==" => some (truth (a == b))
  | "!=" => some (truth (a != b))
  | "<" => some (truth (a < b))
  | "<=" => some (truth (a ≤ b))
  | ">" => some (truth (a > b))
  | ">=" => some (truth (a ≥ b))
  | "<<" => some (Int64.ofInt a <<< Int64.ofInt b).toInt
  | ">>" => some (Int64.ofInt a >>> Int64.ofInt b).toInt
  | "+" => some (wrap (a + b))
  | "-" => some (wrap (a - b))
  | "*" => some (wrap (a * b))
  | "/" => if b = 0 then none else some (wrap (a.tdiv b))
  | "%" => if b = 0 then none else some (a.tmod b)
  | _ => none

/-- The operator that an assignment applies first, if a symbol is an assignment. -/
def assignment? : String → Option (Option String)
  | "=" => some none
  | "+=" => some (some "+")
  | "-=" => some (some "-")
  | "*=" => some (some "*")
  | "/=" => some (some "/")
  | "%=" => some (some "%")
  | "&=" => some (some "&")
  | "^=" => some (some "^")
  | "|=" => some (some "|")
  | "<<=" => some (some "<<")
  | ">>=" => some (some ">>")
  | _ => none

/-! ## Values -/

/-- The values that variables have outside of the expression. -/
abbrev Values := Text → Text

/-- Names with the numbers assigned to them, the latest first. -/
abbrev Assigned := List (Text × Int)

/-- Finds a value, while numbers are assigned. -/
abbrev Evaluation := StateT Assigned (Except Trouble)

/-- The number that a name stands for. -/
def numberOf (values : Values) (name : Text) : Evaluation Int := do
  match (← get).lookup name with
  | some n => return n
  | none =>
    match number? (values name) with
    | some n => return n
    | none => throw (.notNumber (values name))

/-- The value of an operator, where a division by zero only counts if the value does. -/
def operate (counts : Bool) (op : String) (a b : Int) : Evaluation Int :=
  match operate? op a b with
  | some n => return n
  | none => if counts then throw .zeroDivision else return 0

mutual

/-- The value of an operand, and what follows. Effects are left out unless the value `counts`. -/
def operand (values : Values) : Nat → Bool → List Token → Evaluation (Int × List Token)
  | 0, _, _ => throw .operandMissing
  | fuel + 1, counts, ts =>
    match ts with
    | .number n :: ts => return (n, ts)
    | .name t :: ts => return (← if counts then numberOf values t else pure 0, ts)
    | .symbol "-" :: ts => do
      let (n, ts) ← operand values fuel counts ts
      return (wrap (-n), ts)
    | .symbol "+" :: ts => operand values fuel counts ts
    | .symbol "!" :: ts => do
      let (n, ts) ← operand values fuel counts ts
      return (truth (n == 0), ts)
    | .symbol "~" :: ts => do
      let (n, ts) ← operand values fuel counts ts
      return (-n - 1, ts)
    | .symbol "(" :: ts => do
      match ← whole values fuel counts ts with
      | (n, .symbol ")" :: ts) => return (n, ts)
      | _ => throw .parenthesisMissing
    | _ => throw .operandMissing

/-- The value of operands joined by operators that bind at least so tightly. -/
def operation (values : Values) : Nat → Bool → Nat → List Token → Evaluation (Int × List Token)
  | 0, _, _, _ => throw .operandMissing
  | fuel + 1, counts, least, ts => do
    let (n, ts) ← operand values fuel counts ts
    joined values fuel counts least n ts

/-- Joins a value with what follows it. -/
def joined (values : Values) :
    Nat → Bool → Nat → Int → List Token → Evaluation (Int × List Token)
  | 0, _, _, _, _ => throw .operandMissing
  | fuel + 1, counts, least, n, ts =>
    match ts with
    | .symbol op :: rest =>
      match strength? op with
      | none => return (n, ts)
      | some k => do
        if k < least then return (n, ts)
        let settled := (op == "||" && n != 0) || (op == "&&" && n == 0)
        let (m, rest) ← operation values fuel (counts && !settled) (k + 1) rest
        let v ← operate counts op n m
        joined values fuel counts least v rest
    | _ => return (n, ts)

/-- The value of a condition with its two outcomes, or of what stands without them. -/
def conditional (values : Values) : Nat → Bool → List Token → Evaluation (Int × List Token)
  | 0, _, _ => throw .operandMissing
  | fuel + 1, counts, ts => do
    let (n, ts) ← operation values fuel counts 1 ts
    match ts with
    | .symbol "?" :: ts =>
      let (yes, ts) ← whole values fuel (counts && n != 0) ts
      match ts with
      | .symbol ":" :: ts =>
        let (no, ts) ← conditional values fuel (counts && n == 0) ts
        return (if n = 0 then no else yes, ts)
      | _ => throw .colonMissing
    | _ => return (n, ts)

/-- The value of an assignment, or of what is none. -/
def whole (values : Values) : Nat → Bool → List Token → Evaluation (Int × List Token)
  | 0, _, _ => throw .operandMissing
  | fuel + 1, counts, ts =>
    match ts with
    | .name t :: .symbol op :: rest =>
      match assignment? op with
      | none => conditional values fuel counts ts
      | some first => do
        let (n, rest) ← whole values fuel counts rest
        if counts then
          let n ← match first with
            | none => pure n
            | some op => operate counts op (← numberOf values t) n
          modify ((t, n) :: ·)
          return (n, rest)
        else return (n, rest)
    | _ => conditional values fuel counts ts

end

/-- The value of an expression, and the numbers that it assigns. -/
def evaluate (values : Values) (t : Text) : Except Trouble (Int × Assigned) := do
  let ts := tokens (t.length + 1) t
  let ((n, rest), assigned) ← (whole values (6 * ts.length + 6) true ts).run []
  if rest.isEmpty then return (n, assigned) else throw .operatorMissing

end CoverRun.Shell.Arithmetic

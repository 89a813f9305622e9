import CoverRun.Shell.Text

/-!
# Faults

A fault is why the text of a script makes no commands: a token that cannot stand where it does, or
quotes or brackets that are not closed.
-/

namespace CoverRun.Shell

/-- Why the text of a script makes no commands. -/
inductive Fault where
  | unexpected (what : String) (expected : Option String)
  | openQuotes
  | openBackquotes
  | openBraces
  | openArithmetic
  | loopVariable
  | functionName
deriving DecidableEq, Repr

namespace Fault

/-- The end of the script stands where something else is expected. -/
def atEnd (expected : Option String) : Fault := .unexpected "end of file" expected

/-- The wording of a fault. -/
def message : Fault → String
  | .unexpected what none => what ++ " unexpected"
  | .unexpected what (some expected) => what ++ " unexpected (expecting " ++ expected ++ ")"
  | .openQuotes => "Unterminated quoted string"
  | .openBackquotes => "EOF in backquote substitution"
  | .openBraces => "Missing '\x7d'"
  | .openArithmetic => "Missing '))'"
  | .loopVariable => "Bad for loop variable"
  | .functionName => "Bad function name"

end Fault

end CoverRun.Shell

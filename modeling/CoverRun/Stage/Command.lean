import CoverRun.Text.Blank

/-!
# Stage commands

A stage command has the name of its stage, a program and arguments. A list of words makes one if
the first word is not blank.
-/

namespace CoverRun

/-- The command of a stage. -/
structure StageCommand where
  name : String
  program : String
  arguments : List String
deriving DecidableEq, Repr

namespace StageCommand

/-- The command that a list of words makes. -/
def ofWords? (name : String) : List String → Option StageCommand
  | [] => none
  | program :: arguments =>
    if Blank.isBlankText program then none else some ⟨name, program, arguments⟩

/-- The command in one line. -/
def text (c : StageCommand) : String := " ".intercalate (c.program :: c.arguments)

end StageCommand

end CoverRun

import CoverRun.OrderedMap

/-!
# Stage environments

The variables that stages get over the inherited ones. A process receives them as texts
`NAME=VALUE`.
-/

namespace CoverRun

/-- Variables by name. -/
abbrev StageEnvironment := OrderedMap String String

namespace StageEnvironment

/-- The value of a variable that is on. -/
def on : String := "true"

/-- The environment with only the variable that turns coverage on. -/
def coverage (flag : String) : StageEnvironment := OrderedMap.empty.insert flag on

/-- The texts that a process receives. -/
def texts (e : StageEnvironment) : List String := e.entries.map fun v => v.1 ++ "=" ++ v.2

end StageEnvironment

end CoverRun

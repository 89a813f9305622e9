import CoverRun.OrderedMap
import CoverRun.Path
import CoverRun.Coverage.Tally
import CoverRun.Selection

/-!
# Settings

The settings of a project as its settings file holds them, before any of them is checked. What the
file leaves out has a default that suits a standard layout.
-/

namespace CoverRun

/-- A source root with the texts of its skip list. -/
structure RootSettings where
  path : Path
  skip : List String
deriving DecidableEq

/-- The commands of both stages, their time limit in seconds and variables for them. -/
structure StageSettings where
  generate : List String
  test : List String
  timeout : Option UInt64
  environment : OrderedMap String String
deriving DecidableEq

/-- The variable that turns coverage on, the sentinel around payloads, the file for the report. -/
structure CoverageSettings where
  flag : String
  sentinel : String
  output : Path
deriving DecidableEq

/-- The shell command that instruments, the extensions of sources and a time limit in seconds. -/
structure InstrumenterSettings where
  command : Option String
  extensions : List String
  timeout : UInt64
deriving DecidableEq

/-- All settings of a project. -/
structure Settings where
  roots : List RootSettings
  stages : StageSettings
  coverage : CoverageSettings
  instrumenter : InstrumenterSettings
deriving DecidableEq

namespace Settings

/-- The directory of a project for settings and reports. -/
def directoryName : String := ".solcover"

/-- The settings file in that directory. -/
def fileName : String := "solcover.toml"

/-- The variable that turns coverage on unless another is wanted. -/
def defaultFlag : String := "ETHIER_COVERAGE"

/-- The roots of a standard layout. -/
def defaultRoots : List RootSettings :=
  [⟨"./contracts", ["random/PRNG.sol"]⟩, ⟨"./tests", []⟩]

/-- The stages of a standard layout. -/
def defaultStages : StageSettings :=
  ⟨["npm", "run", "generate"], ["npm", "run", "testverbose"], none, OrderedMap.empty⟩

/-- The coverage settings of a standard layout. -/
def defaultCoverage : CoverageSettings :=
  ⟨defaultFlag, Tally.defaultSentinel, (Path.ofText directoryName).join "coverage.json"⟩

/-- The instrumenter settings of a standard layout. -/
def defaultInstrumenter : InstrumenterSettings := ⟨none, Selection.defaultExtensions, 120⟩

/-- The settings of a standard layout. -/
def standard : Settings := ⟨defaultRoots, defaultStages, defaultCoverage, defaultInstrumenter⟩

/-- The directory for settings and reports of a project. -/
def directory (project : Path) : Path := project.join directoryName

/-- The settings file of a project. -/
def file (project : Path) : Path := (directory project).join fileName

end Settings

end CoverRun

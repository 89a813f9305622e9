import CoverRun.Selection
import CoverRun.Settings.Text
import CoverRun.Stage.Command
import CoverRun.Stage.Environment

/-!
# Plans

A plan is what settings come to for one project: roots and report file are absolute if the project
is, commands are there, the coverage variable is on whatever the settings say of it, and what is
given at the command line wins over the settings. Settings that make no plan are refused for the
first fault in a fixed order.
-/

namespace CoverRun

/-- What is given at the command line. -/
structure Overrides where
  timeout : Option UInt64
  output : Option Path
  instrumenter : Option String
deriving DecidableEq

/-- Nothing given. -/
def Overrides.none : Overrides := ⟨.none, .none, .none⟩

/-- The two stages of a run. -/
inductive StageName where
  | generate
  | test
deriving DecidableEq, Repr

/-- The name of a stage. -/
def StageName.text : StageName → String
  | .generate => "generate"
  | .test => "test"

/-- Why settings make no plan. -/
inductive PlanError where
  | noRoots
  | duplicateRoot (path : Path)
  | skip (e : SkipError)
  | emptyCommand (stage : StageName)
  | emptySentinel
  | badFlag (flag : String)
  | noExtensions
deriving DecidableEq, Repr

namespace PlanError

/-- The wording of a fault in settings. -/
def message : PlanError → String
  | .noRoots => "No source roots configured"
  | .duplicateRoot path => "Source root '" ++ path.text ++ "' is configured more than once"
  | .skip e => e.message
  | .emptyCommand stage => "The " ++ stage.text ++ " stage command is empty"
  | .emptySentinel => "Invalid coverage setting: sentinel must not be empty"
  | .badFlag flag =>
    "Invalid coverage setting: '" ++ flag ++ "' is not a valid environment variable name"
  | .noExtensions =>
    "Instrumenter configuration is invalid: at least one source extension is required"

/-- The wording and that of its cause. -/
def chain (e : PlanError) : List String :=
  e.message ::
    match e with
    | .skip ⟨_, _, .badGlob cause⟩ => [cause.message]
    | _ => []

end PlanError

/-- What a run does in a project. Time limits are in seconds. -/
structure Plan where
  project : Path
  roots : List SourceRoot
  extensions : List String
  generate : StageCommand
  test : StageCommand
  stageLimit : Option UInt64
  environment : StageEnvironment
  sentinel : String
  output : Path
  instrumenter : Option String
  instrumenterLimit : UInt64
deriving DecidableEq

namespace Plan

/-- A path of the settings, read from the project and written plainly. -/
def resolve (project path : Path) : Path := Path.ofComponents (project.join path).components

/-- Reads roots in order, besides those that were seen. -/
def rootsFrom (project : Path) (seen : List Path) :
    List RootSettings → Except PlanError (List SourceRoot)
  | [] => .ok []
  | r :: rs =>
    let path := resolve project r.path
    if path.normalize ∈ seen then .error (.duplicateRoot r.path)
    else
      match SourceRoot.ofTexts path r.skip with
      | .error e => .error (.skip e)
      | .ok root => do
        let roots ← rootsFrom project (path.normalize :: seen) rs
        return root :: roots

/-- Reads the roots, of which there must be one. -/
def rootsOf (project : Path) (roots : List RootSettings) : Except PlanError (List SourceRoot) :=
  if roots = [] then .error .noRoots else rootsFrom project [] roots

/-- The command of a stage, which may not be empty. -/
def commandOf (stage : StageName) (words : List String) : Except PlanError StageCommand :=
  match StageCommand.ofWords? stage.text words with
  | some c => .ok c
  | none => .error (.emptyCommand stage)

/-- Whether a text can name the variable that turns coverage on. -/
def isFlag (flag : String) : Bool :=
  flag != "" && flag.toList.all fun c => c != '=' && c != '\x00'

/-- An extension without the dots before it. -/
def bareExtension (extension : String) : String :=
  String.ofList (extension.toList.dropWhile (· == '.'))

/-- The extensions that are not empty without the dots before them. -/
def extensionsOf (extensions : List String) : List String :=
  (extensions.map bareExtension).filter (· != "")

/-- The variables of the settings with the coverage variable on. -/
def environmentOf (environment : OrderedMap String String) (flag : String) : StageEnvironment :=
  environment.insert flag StageEnvironment.on

/-- A value given at the command line, or else that of the settings. -/
def either {α : Type} (given settings : Option α) : Option α :=
  match given with
  | some a => some a
  | none => settings

/-- The plan that settings make. -/
def ofSettings (project : Path) (s : Settings) (o : Overrides) : Except PlanError Plan := do
  let roots ← rootsOf project s.roots
  let generate ← commandOf .generate s.stages.generate
  let test ← commandOf .test s.stages.test
  if s.coverage.sentinel = "" then .error .emptySentinel
  if !isFlag s.coverage.flag then .error (.badFlag s.coverage.flag)
  let extensions := extensionsOf s.instrumenter.extensions
  if extensions = [] then .error .noExtensions
  return {
    project := project
    roots := roots
    extensions := extensions
    generate := generate
    test := test
    stageLimit := (either o.timeout s.stages.timeout).filter (· != 0)
    environment := environmentOf s.stages.environment s.coverage.flag
    sentinel := s.coverage.sentinel
    output := resolve project (o.output.getD s.coverage.output)
    instrumenter :=
      (either o.instrumenter s.instrumenter.command).filter fun c => !Blank.isBlankText c
    instrumenterLimit := if s.instrumenter.timeout = 0 then 1 else s.instrumenter.timeout }

/-- A path as it is shown: from the project on, if it lies there. -/
def display (p : Plan) (path : Path) : String := ((path.remainder? p.project).getD path).text

end Plan

end CoverRun

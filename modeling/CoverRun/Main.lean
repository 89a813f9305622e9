import Std.Time.DateTime
import CoverRun.CommandLine
import CoverRun.FileTree.Change
import CoverRun.Shell.Machine
import CoverRun.Toml.Moment

/-!
# The program

The program works on a value: the files below the working directory and below the project are read
before it runs, and what it changed is written when it is done.
-/

namespace CoverRun.Program

/-- The names of the variables that the program and its processes look at. -/
def variableNames : List String :=
  [Invocation.timeoutVariable, Invocation.instrumenterVariable, "HOME", "LANG", "PATH"]

/-- Those variables that are set. -/
def environment : IO (OrderedMap String String) :=
  variableNames.foldlM (fun m name => do
    match ← IO.getEnv name with
    | some value => return m.insert name value
    | none => return m) OrderedMap.empty

/-- The time now. -/
def now : IO String := do
  let t := Std.Time.DateTime.ofTimestampWithZone (← Std.Time.Timestamp.now) Std.Time.TimeZone.UTC
  let day : Toml.Day := ⟨t.year.toNat, t.month.toNat, t.day.toNat⟩
  let fraction := Toml.padded 9 t.nanosecond.toNat
  let clock : Toml.Clock := ⟨t.hour.toNat, t.minute.toNat, some t.second.toNat, some fraction⟩
  return (Toml.Moment.both day clock (some .universal)).text

/-- Adds what stands below a directory to a tree. A link leads to where it ends, or else nowhere. -/
partial def readBelow (loc : Location) (t : FileTree) : IO FileTree := do
  let mut t := t
  for e in ← (← IO.FS.realPath loc.path.text).readDir do
    let child := loc ++ [FileName.ofText e.fileName]
    match (← e.path.symlinkMetadata).type with
    | .dir => t ← readBelow child (t.place child .directory)
    | .file => t := t.place child (.file (← IO.FS.readBinFile e.path).toList)
    | .symlink =>
      try
        let target ← IO.FS.realPath e.path
        t := t.place child (.link target.toString)
      catch _ => t := t.place child (.link "")
    | .other => pure ()
  return t

/-- Adds a directory, with the directories above it and what stands below it, to a tree. -/
def readDirectory (t : FileTree) (loc : Location) : IO FileTree :=
  readBelow loc ((List.range loc.length).foldl (fun t n => t.place (loc.take (n + 1)) .directory) t)

/-- The location of a directory. -/
def locationOf (path : String) : IO Location := do
  return FileTree.namesOf (← IO.FS.realPath path).toString

/-- The locations of the working directory and of the project, if one is named that is there. -/
def locations (environment : OrderedMap String String) (arguments : List String) :
    IO (Location × List Location) := do
  let cwd ← locationOf "."
  match Invocation.ofArguments environment arguments with
  | .ok ⟨some project, _, _⟩ =>
    try
      return (cwd, [← locationOf project.text])
    catch _ => return (cwd, [])
  | _ => return (cwd, [])

/-- Carries out a change. -/
def carryOut : FileTree.Change → IO Unit
  | .remove loc .directory => IO.FS.removeDir loc.path.text
  | .remove loc _ => IO.FS.removeFile loc.path.text
  | .place loc .directory => IO.FS.createDir loc.path.text
  | .place loc (.file content) => IO.FS.writeBinFile loc.path.text ⟨content.toArray⟩
  | .place loc (.link target) => IO.FS.hardLink target.text loc.path.text

/-- Shows what was printed, in the order of printing. -/
def showPrinted : Effect → IO Unit
  | .printed .output text => IO.print text
  | .printed .errors text => IO.eprint text
  | _ => pure ()

/-- Runs the program and gives its exit code. -/
def run (arguments : List String) : IO UInt32 := do
  let inherited ← environment
  let (cwd, further) ← locations inherited arguments
  let before ← (cwd :: further).foldlM readDirectory FileTree.empty
  let outcome :=
    CommandLine.run (Shell.machine inherited) (← now) inherited arguments (World.start before cwd)
  (before.changes outcome.world.tree).forM carryOut
  outcome.world.journal.forM showPrinted
  return UInt32.ofNat outcome.exitCode

end CoverRun.Program

/-- The program. -/
def main (arguments : List String) : IO UInt32 := CoverRun.Program.run arguments

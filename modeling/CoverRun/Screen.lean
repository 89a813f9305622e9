import CoverRun.Pipeline
import CoverRun.Setup

/-!
# What is shown

The texts that the commands print: the selection by root, the report of a run, the files that were
cleaned away, what was set up, and a failure with its causes.
-/

namespace CoverRun.Screen

/-- Lines with a line feed after each. -/
def ofLines (lines : List String) : String := String.join (lines.map (· ++ "\n"))

/-! ## Selections -/

/-- Whether a source belongs to a root. -/
def belongs (root : SourceRoot) (f : SourceFile) : Bool :=
  f.root.components == root.path.components

/-- The line of a source to instrument. -/
def instrumentLine (f : SourceFile) : String := "  +" ++ f.relative.text

/-- The line of a source that is passed through. -/
def passThroughLine (f : SourceFile) : String := "  =" ++ f.relative.text ++ " (skipped)"

/-- The lines of the sources of a root. -/
def sourceLines (s : Selection) (root : SourceRoot) : List String :=
  (s.instrument.filter (belongs root)).map instrumentLine ++
    (s.passThrough.filter (belongs root)).map passThroughLine

/-- The lines of a root. -/
def rootLines (plan : Plan) (s : Selection) (root : SourceRoot) : List String :=
  plan.display root.path ::
    if (sourceLines s root).isEmpty then ["  no source files"] else sourceLines s root

/-- The lines of a selection. -/
def selectionLines (plan : Plan) (s : Selection) : List String :=
  plan.roots.flatMap (rootLines plan s) ++
    ["", toString s.instrument.length ++ " to instrument, " ++ toString s.passThrough.length ++
      " passed through"]

/-- A selection by root. -/
def selection (plan : Plan) (s : Selection) : String := ofLines (selectionLines plan s)

/-! ## Reports -/

/-- The report of a run whose sites were written to a file. -/
def report (r : RunReport) (output : Path) : String :=
  let summary := r.table.summary
  ofLines <|
    ["", "[OK]Coverage run complete",
      "  " ++ toString r.instrumented ++ " instrumented, " ++ toString r.passedThrough ++
        " passed through, " ++ toString r.shadows.length ++ " shadow files",
      "  [COV]" ++ toString summary.hitSites ++ "/" ++ toString summary.totalSites ++
        " sites hit (" ++ toString summary.totalHits.toNat ++ " hits)",
      "  " ++ toString r.counts.payloads ++ " payload lines merged from " ++
        toString r.counts.lines ++ " output lines"] ++
    (if r.counts.malformed = 0 then []
      else ["  [WARN]" ++ toString r.counts.malformed ++ " malformed payload lines skipped"]) ++
    ["  *Coverage data written to " ++ output.text]

/-! ## Other commands -/

/-- The shadow files that were removed. -/
def cleaned (plan : Plan) (removed : List Path) : String :=
  if removed.isEmpty then ofLines ["No shadow files found"]
  else
    ofLines (removed.map (fun p => "  -" ++ plan.display p) ++
      ["Removed " ++ toString removed.length ++ " shadow file(s)"])

/-- That nothing was cleaned away. -/
def cleanCancelled : String := ofLines ["Clean cancelled"]

/-- What was set up. -/
def setup (s : Setup) : String :=
  if s.created then
    ofLines ["Initialized solcover at " ++ s.directory.text, "", "Created:", "  .solcover/",
      "  └── solcover.toml   # Roots, skip lists, stage commands", "", "Next steps:",
      "  1. Set [instrumenter] command in .solcover/solcover.toml",
      "  2. Run \x60solcover select\x60 to check which files get instrumented",
      "  3. Run \x60solcover run\x60 to collect coverage"]
  else ofLines ["solcover already initialized at " ++ s.file.text]

/-- A failure with its causes. -/
def failure (chain : List String) : String :=
  ofLines <|
    ["", "[ERR]solcover failed"] ++
      match chain with
      | [] => []
      | message :: causes => ("  " ++ message) :: causes.map ("  caused by: " ++ ·)

end CoverRun.Screen

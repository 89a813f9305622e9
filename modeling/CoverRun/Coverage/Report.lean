import CoverRun.Coverage.SiteTable
import CoverRun.FileTree

/-!
# Coverage reports

A report is a site table with the time when it was made, written as indented JSON. The directory of
its file is created if it is missing. Renderers read the file back.
-/

namespace CoverRun

/-- A site table with the time when it was made. -/
structure CoverageReport where
  generatedAt : String
  sites : SiteTable
deriving Inhabited

/-- Why a report was not saved. -/
inductive ReportError where
  | directory (path : Path) (cause : FileError)
  | file (path : Path) (cause : FileError)
deriving DecidableEq, Repr

/-- What was attempted, and the cause of its failure. -/
def ReportError.chain : ReportError → List String
  | .directory path cause =>
    ["Failed to create report directory: " ++ path.text, cause.message]
  | .file path cause => ["Failed to write coverage data: " ++ path.text, cause.message]

namespace CoverageReport

/-- The JSON of a report. -/
def toValue (r : CoverageReport) : Json.Value :=
  .record [("generatedAt", .string r.generatedAt), ("sites", r.sites.toValue)]

/-- Writes a report. The tree comes back also after a failure. -/
def save (r : CoverageReport) (t : FileTree) (cwd : Location) (path : Path) :
    FileTree × Except ReportError Unit :=
  let parent := path.parent?.getD ""
  match t.makeDirectories cwd parent with
  | (t', .error cause) => (t', .error (.directory parent cause))
  | (t', .ok ()) =>
    match t'.write cwd path (Utf8.encode r.toValue.pretty) with
    | .error cause => (t', .error (.file path cause))
    | .ok t'' => (t'', .ok ())

/-! ## Reading

A report is read as a record of its two fields, in which unknown members do not count, or as the
list of the fields in their order. Which texts are times is left to a reader of times: what it
yields is the same time as a report writes it.
-/

/-- The fields of a report that were read so far. -/
structure Fields where
  generatedAt : Option String
  sites : Option SiteTable

/-- The table in a report, which is one level of nesting. -/
def sites? : Json.Node → Option SiteTable := SiteTable.ofNode? (Json.nestingLimit - 1)

section

variable (time? : String → Option String)

/-- The time that a node writes. -/
def generatedAt? (item : Json.Node) : Option String := item.text?.bind time?

/-- Adds one member of a report; no field comes twice. -/
def readField (done : Fields) (key : Units) (item : Json.Node) : Option Fields := do
  match ← key.text? with
  | "generatedAt" =>
    return { done with generatedAt := ← Json.fill done.generatedAt (generatedAt? time? item) }
  | "sites" => return { done with sites := ← Json.fill done.sites (sites? item) }
  | _ => return done

/-- The report of a node. -/
def ofNode? : Json.Node → Option CoverageReport
  | .record members => do
    let fields ← members.foldlM (fun done m => readField time? done m.1 m.2) ⟨none, none⟩
    return ⟨← fields.generatedAt, ← fields.sites⟩
  | .list [generatedAt, sites] => do return ⟨← generatedAt? time? generatedAt, ← sites? sites⟩
  | _ => none

/-- Reads the text of a report. -/
def read? (text : String) : Option CoverageReport :=
  (Json.Node.read (Units.ofText text)).bind (ofNode? time?)

end

end CoverageReport

end CoverRun

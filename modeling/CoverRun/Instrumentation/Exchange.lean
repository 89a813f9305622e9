import CoverRun.Instrumentation

/-!
# Exchange with an instrumenter

The request lists the sources with path, path from the root and text; paths are in it as they are
shown, so that two of them that are not UTF-8 can look the same. The response lists files by path
with rewritten text and sites, each file as a record or as a list of its fields in this order.
Each target takes the last returned file with its path, and takes it away: a target whose path comes
again finds nothing.
-/

namespace CoverRun

/-- A file of a response. -/
structure ReturnedFile where
  path : String
  source : String
  sites : OrderedMap String Json.Value
deriving Inhabited

namespace Exchange

/-- The path that names a source in a request. -/
def requestPath (f : SourceFile) : String := f.path.text

/-- A request as it is written. -/
def requestValue (targets : List SourceFile) : Json.Value :=
  .record [("files", .list (targets.map fun f =>
    .record [("path", .string (requestPath f)), ("relativePath", .string f.relative.text),
      ("source", .string f.source)]))]

/-- The bytes of a request. -/
def request (targets : List SourceFile) : Bytes := Utf8.encode (requestValue targets).compact

/-! ## Reading a response -/

/-- How deep the metadata of a site may nest: four records and lists enclose it. -/
def metadataDepth : Nat := Json.nestingLimit - 4

/-- The sites of a file. -/
def sites? : Json.Node → Option (OrderedMap String Json.Value)
  | .record members => (Json.Value.ofMembers? metadataDepth [] members).map OrderedMap.ofList
  | _ => none

/-- The fields of a file that were read so far. -/
structure FileFields where
  path : Option String
  source : Option String
  sites : Option (OrderedMap String Json.Value)

/-- Adds one member of a file; no field comes twice and unknown members do not count. -/
def readField (done : FileFields) (key : Units) (item : Json.Node) : Option FileFields := do
  match ← key.text? with
  | "path" => return { done with path := ← Json.fill done.path item.text? }
  | "source" => return { done with source := ← Json.fill done.source item.text? }
  | "sites" => return { done with sites := ← Json.fill done.sites (sites? item) }
  | _ => return done

/-- A file of a response. -/
def readFile : Json.Node → Option ReturnedFile
  | .record members => do
    let fields ← members.foldlM (fun done m => readField done m.1 m.2) ⟨none, none, none⟩
    return ⟨← fields.path, ← fields.source, fields.sites.getD OrderedMap.empty⟩
  | .list [path, source] => do return ⟨← path.text?, ← source.text?, OrderedMap.empty⟩
  | .list [path, source, sites] => do return ⟨← path.text?, ← source.text?, ← sites? sites⟩
  | _ => none

/-- The files of a response. -/
def files? : Json.Node → Option (List ReturnedFile)
  | .list items => items.mapM readFile
  | _ => none

/-- Adds one member of a response. -/
def readMember (done : Option (List ReturnedFile)) (key : Units) (item : Json.Node) :
    Option (Option (List ReturnedFile)) := do
  match ← key.text? with
  | "files" => Json.fill done (files? item)
  | _ => return done

/-- Reads a response. -/
def response? (bytes : Bytes) : Option (List ReturnedFile) := do
  match ← Json.Node.read (Utf8.units bytes) with
  | .record members =>
    let files ← members.foldlM (fun done m => readMember done m.1 m.2) none
    files
  | .list [files] => files? files
  | _ => none

/-! ## Assembling -/

/-- The returned files by path; the last one of a path counts. -/
def byPath (returned : List ReturnedFile) : OrderedMap String ReturnedFile :=
  returned.foldl (fun m f => m.insert f.path f) OrderedMap.empty

/-- Gives each target its returned file. The path of the first target without one is the error. -/
def take : OrderedMap String ReturnedFile → List SourceFile →
    Except Path (List InstrumentedFile)
  | _, [] => .ok []
  | returned, target :: targets =>
    match returned.find? (requestPath target) with
    | none => .error target.path
    | some f => do
      let rest ← take (returned.erase (requestPath target)) targets
      return ⟨target, f.source, f.sites⟩ :: rest

/-- The instrumentation of targets by a response. -/
def assemble (targets : List SourceFile) (returned : List ReturnedFile) :
    Except Path Instrumentation := do
  return Instrumentation.ofFiles (← take (byPath returned) targets)

end Exchange

end CoverRun

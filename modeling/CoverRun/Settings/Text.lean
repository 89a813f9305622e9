import CoverRun.Settings
import CoverRun.Toml.Written

/-!
# The text of settings

`Settings.read?` takes settings from a TOML document and `Settings.write?` writes one, unless a path
is not UTF-8. A section is a table or an array of its fields in a fixed order. Members without
meaning need only be readable, and missing ones have their defaults.
-/

namespace CoverRun.Settings

open Toml

/-! ## Reading -/

/-- The items of an array. -/
def items? : Value → Option (List Value)
  | .array items => some items
  | .rows tables => some (tables.map (.table .header))
  | _ => none

/-- A text. -/
def text? : Value → Option String
  | .text s => some s
  | _ => none

/-- A list of texts. -/
def texts? (v : Value) : Option (List String) := do
  let items ← items? v
  items.mapM text?

/-- A natural number of up to 64 bits. -/
def word? : Value → Option UInt64
  | .integer n => if 0 ≤ n ∧ n ≤ Json.wordLimit then some (UInt64.ofNat n.toNat) else none
  | _ => none

/-- The name of the one member of a moment that is read as a table. -/
def momentName : String := "$__toml_private_datetime"

/-- A table of texts. -/
def textTable? : Value → Option (OrderedMap String String)
  | .table _ ms =>
    ms.foldlM (fun (done : OrderedMap String String) m => do
      let s ← text? m.2
      return done.insert m.1 s) OrderedMap.empty
  | .moment m => some (OrderedMap.empty.insert momentName m.text)
  | _ => none

/-- How a section holds its fields: each by its name, or each by its place. -/
inductive Fields where
  | named (members : Members)
  | placed (items : List Value)

/-- The fields of a table. Of its members that are no fields each must be readable. -/
def namedFields? (names : List String) (ms : Members) : Option Fields :=
  if ms.all fun m => names.contains m.1 || m.2.isReadable then some (.named ms) else none

/-- The fields of a section. Items of an array after its last field are not looked at. -/
def fields? (names : List String) : Value → Option Fields
  | .table _ ms => namedFields? names ms
  | .array items => some (.placed items)
  | .rows tables => some (.placed (tables.map (.table .header)))
  | .moment _ => some (.named [])
  | _ => none

/-- The value of a field. -/
def Fields.find? (fields : Fields) (place : Nat) (name : String) : Option Value :=
  match fields with
  | .named ms => ms.lookup name
  | .placed items => items[place]?

/-- Reads a field that may be missing. -/
def Fields.read {α : Type} (fields : Fields) (place : Nat) (name : String) (read : Value → Option α)
    (default : α) : Option α :=
  match fields.find? place name with
  | some v => read v
  | none => some default

/-- Reads a root; its path may not be missing. -/
def root? (v : Value) : Option RootSettings := do
  let fields ← fields? ["path", "skip"] v
  let path ← (fields.find? 0 "path").bind text?
  let skip ← fields.read 1 "skip" texts? []
  return ⟨path, skip⟩

/-- Reads the roots. -/
def roots? (v : Value) : Option (List RootSettings) := do
  let items ← items? v
  items.mapM root?

/-- Reads the stages. -/
def stages? (v : Value) : Option StageSettings := do
  let fields ← fields? ["generate", "test", "timeout_secs", "env"] v
  let generate ← fields.read 0 "generate" texts? defaultStages.generate
  let test ← fields.read 1 "test" texts? defaultStages.test
  let timeout ← fields.read 2 "timeout_secs" (fun v => (word? v).map some) none
  let environment ← fields.read 3 "env" textTable? OrderedMap.empty
  return ⟨generate, test, timeout, environment⟩

/-- Reads the coverage settings. -/
def coverage? (v : Value) : Option CoverageSettings := do
  let fields ← fields? ["env_var", "sentinel", "output"] v
  let flag ← fields.read 0 "env_var" text? defaultCoverage.flag
  let sentinel ← fields.read 1 "sentinel" text? defaultCoverage.sentinel
  let output ← fields.read 2 "output" (fun v => (text? v).map Path.ofText) defaultCoverage.output
  return ⟨flag, sentinel, output⟩

/-- Reads the instrumenter settings. -/
def instrumenter? (v : Value) : Option InstrumenterSettings := do
  let fields ← fields? ["command", "extensions", "timeout_secs"] v
  let command ← fields.read 0 "command" (fun v => (text? v).map some) none
  let extensions ← fields.read 1 "extensions" texts? defaultInstrumenter.extensions
  let timeout ← fields.read 2 "timeout_secs" word? defaultInstrumenter.timeout
  return ⟨command, extensions, timeout⟩

/-- The settings in a document. -/
def ofMembers? (ms : Members) : Option Settings := do
  let fields ← namedFields? ["roots", "stages", "coverage", "instrumenter"] ms
  let roots ← fields.read 0 "roots" roots? defaultRoots
  let stages ← fields.read 1 "stages" stages? defaultStages
  let coverage ← fields.read 2 "coverage" coverage? defaultCoverage
  let instrumenter ← fields.read 3 "instrumenter" instrumenter? defaultInstrumenter
  return ⟨roots, stages, coverage, instrumenter⟩

/-- Reads the text of a settings file. -/
def read? (text : String) : Option Settings := (document? text).bind ofMembers?

/-! ## Writing -/

/-- A line for a text. -/
def textLine (name value : String) : List Char := writeLine name (writeText value)

/-- A line for a list of texts. -/
def textsLine (name : String) (values : List String) : List Char :=
  writeLine name (writeTexts values)

/-- A line for a number. -/
def wordLine (name : String) (n : UInt64) : List Char :=
  writeLine name (Nat.toDigits 10 n.toNat)

/-- The block of a root. -/
def rootBlock (r : RootSettings) : List Char :=
  writeRowHeader ["roots"] ++ textLine "path" r.path.text ++
    if r.skip = [] then [] else textsLine "skip" r.skip

/-- The blocks of the roots. -/
def rootBlocks (roots : List RootSettings) : List (List Char) :=
  if roots = [] then [textsLine "roots" []] else roots.map rootBlock

/-- The blocks of the stages. -/
def stageBlocks (s : StageSettings) : List (List Char) :=
  (writeHeader ["stages"] ++ textsLine "generate" s.generate ++ textsLine "test" s.test ++
    (s.timeout.map (wordLine "timeout_secs")).getD []) ::
  if s.environment.entries = [] then []
  else [writeHeader ["stages", "env"] ++ s.environment.entries.flatMap fun e => textLine e.1 e.2]

/-- The block of the coverage settings. -/
def coverageBlock (c : CoverageSettings) : List Char :=
  writeHeader ["coverage"] ++ textLine "env_var" c.flag ++ textLine "sentinel" c.sentinel ++
    textLine "output" c.output.text

/-- The block of the instrumenter settings. -/
def instrumenterBlock (i : InstrumenterSettings) : List Char :=
  writeHeader ["instrumenter"] ++ (i.command.map (textLine "command")).getD [] ++
    textsLine "extensions" i.extensions ++ wordLine "timeout_secs" i.timeout

/-- The blocks of a settings file. -/
def blocks (s : Settings) : List (List Char) :=
  rootBlocks s.roots ++ stageBlocks s.stages ++
    [coverageBlock s.coverage, instrumenterBlock s.instrumenter]

/-- Whether all paths are UTF-8, as those in a text are. -/
def isWritable (s : Settings) : Bool :=
  (s.roots.all fun r => r.path.text?.isSome) && s.coverage.output.text?.isSome

/-- The text of a settings file, unless a path is not UTF-8. -/
def write? (s : Settings) : Option String :=
  if s.isWritable then some (String.ofList (writeBlocks s.blocks)) else none

end CoverRun.Settings

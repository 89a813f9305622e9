import CoverRun.Coverage.SiteTable
import CoverRun.Selection
import CoverRun.Shadow.Files

/-!
# Instrumentation

An instrumented file is a source with its rewritten text and the sites in it. The site table of a
run makes the sites of all files known, file by file, so that of two files with one site the later
one gives its metadata.
-/

namespace CoverRun

/-- A source, its rewritten text and the metadata of its sites. -/
structure InstrumentedFile where
  file : SourceFile
  text : String
  sites : OrderedMap String Json.Value

/-- Instrumented files with the table of their sites. -/
structure Instrumentation where
  files : List InstrumentedFile
  table : SiteTable

namespace Instrumentation

/-- The instrumentation without files. -/
def empty : Instrumentation := ⟨[], SiteTable.empty⟩

/-- Makes the sites of a file known. -/
def registerFile (table : SiteTable) (f : InstrumentedFile) : SiteTable :=
  f.sites.entries.foldl (fun t e => t.register e.1 e.2) table

/-- The instrumentation of files, with no hits. -/
def ofFiles (files : List InstrumentedFile) : Instrumentation :=
  ⟨files, files.foldl registerFile SiteTable.empty⟩

/-- The texts of all shadows: those of instrumented files, then those of files passed through. -/
def shadowTexts (files : List InstrumentedFile) (passThrough : List SourceFile) :
    List ShadowText :=
  files.map (fun f => ⟨f.file.path, f.text⟩) ++ passThrough.map fun f => ⟨f.path, f.source⟩

end Instrumentation

end CoverRun

import CoverRun.Coverage.Payload
import CoverRun.Coverage.Sentinel

/-!
# Tallies

A tally reads output line by line and adds the hits of each payload to the sites it knows. A
payload is added as a whole or, if it cannot be read, not at all; sites that are not known are only
counted.
-/

namespace CoverRun

/-- What a line is: plain, a payload with so many known and unknown sites, or a payload that
cannot be read. -/
inductive LineKind where
  | plain
  | merged (matched ignored : Nat)
  | malformed
deriving DecidableEq, Repr

/-- The wording of a payload that cannot be read, up to what the reader says of it. -/
def LineKind.malformedMessage : String := "Malformed coverage payload"

/-- Counts of lines so far. -/
structure LineCounts where
  lines : Nat
  payloads : Nat
  malformed : Nat
  ignoredSites : Nat
deriving DecidableEq, Repr, Inhabited

/-- A site table that grows by the payloads between sentinels, with counts of the lines read. -/
structure Tally where
  sentinel : String
  table : SiteTable
  counts : LineCounts
deriving Inhabited

namespace Tally

/-- The sentinel unless another is wanted. -/
def defaultSentinel : String := "[ETHIER_COVERAGE]"

/-- A tally that has read nothing. -/
def start (sentinel : String) (table : SiteTable) : Tally := ⟨sentinel, table, ⟨0, 0, 0, 0⟩⟩

/-- The payload of a line: none, one that cannot be read, or its hits. -/
def payload? (sentinel line : String) : Option (Option Payload) :=
  (Sentinel.payload? sentinel.toList line.toList).map Payload.read?

/-- Adds the hits of a payload to the sites that are known. -/
def addPayload (table : SiteTable) (p : Payload) : SiteTable :=
  p.entries.foldl (fun t e => t.addHits e.1 e.2) table

/-- Reads a line: what it is, and the table after it. -/
def process (t : Tally) (line : String) : LineKind × SiteTable :=
  match payload? t.sentinel line with
  | none => (.plain, t.table)
  | some none => (.malformed, t.table)
  | some (some p) =>
    let matched := (p.keys.filter t.table.knows).length
    (.merged matched (p.size - matched), addPayload t.table p)

/-- The counts after a line of some kind. -/
def count (c : LineCounts) : LineKind → LineCounts
  | .plain => { c with lines := c.lines + 1 }
  | .merged _ ignored =>
    { c with
      lines := c.lines + 1
      payloads := c.payloads + 1
      ignoredSites := c.ignoredSites + ignored }
  | .malformed => { c with lines := c.lines + 1, malformed := c.malformed + 1 }

/-- Reads and counts a line. -/
def ingest (t : Tally) (line : String) : Tally :=
  let (kind, table) := t.process line
  { t with table := table, counts := count t.counts kind }

/-- Reads and counts lines. -/
def ingestAll (t : Tally) (lines : List String) : Tally := lines.foldl ingest t

end Tally

end CoverRun

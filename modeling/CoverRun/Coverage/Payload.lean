import CoverRun.Coverage.SiteTable

/-!
# Payloads

A payload is the JSON text of a record from sites to counters. A counter is a record with one
`hits`, a natural number of up to 64 bits, and any other members, or a list of just that number. A
site that is written twice counts with its last counter.
-/

namespace CoverRun

/-- The hits that a test reports for sites. -/
abbrev Payload := OrderedMap String Hits

namespace Payload

/-- The hits that a node writes. -/
def hits? : Json.Node → Option Hits
  | .number t => t.word?
  | _ => none

/-- Adds one member of a counter to what was read before: nothing, or the hits. -/
def readMember (done : Option Hits) (key : Units) (item : Json.Node) : Option (Option Hits) := do
  let k ← key.text?
  if k = SiteCounter.hitsKey then
    match done with
    | some _ => none
    | none => (hits? item).map some
  else return done

/-- Reads a counter. -/
def readCounter : Json.Node → Option Hits
  | .record members => do
    let done ← members.foldlM (fun done m => readMember done m.1 m.2) none
    done
  | .list [item] => hits? item
  | _ => none

/-- The payload of a node. -/
def ofNode? : Json.Node → Option Payload
  | .record members =>
    members.foldlM (fun (p : Payload) m => do
      let site ← m.1.text?
      let n ← readCounter m.2
      return p.insert site n) OrderedMap.empty
  | _ => none

/-- Reads the text of a payload. -/
def read? (text : List Char) : Option Payload :=
  (Json.Node.read (text.map some)).bind ofNode?

/-- A payload as it is written. -/
def toValue (p : Payload) : Json.Value :=
  .record (p.entries.map fun e =>
    (e.1, .record [(SiteCounter.hitsKey, .number (.natural e.2))]))

end Payload

end CoverRun

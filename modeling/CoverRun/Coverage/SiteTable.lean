import CoverRun.Json.Value

/-!
# Site tables

A site is a place in the sources that counts how often it is run. A site table holds the counter of
each known site: its hits, which stop at the largest number of 64 bits, and its metadata, in which
`hits` is no key.
-/

namespace CoverRun

/-- A number of hits. -/
abbrev Hits := UInt64

/-- Adds hits; the sum stops at the largest number of 64 bits. -/
def Hits.plus (a b : Hits) : Hits := UInt64.ofNat (min Json.wordLimit (a.toNat + b.toNat))

/-- What is known of a site. -/
structure SiteCounter where
  hits : Hits
  metadata : OrderedMap String Json.Value
deriving Inhabited

/-- The key of the hits beside the metadata of a written counter. -/
def SiteCounter.hitsKey : String := "hits"

/-- The counters of all known sites. -/
structure SiteTable where
  sites : OrderedMap String SiteCounter
deriving Inhabited

/-- Figures of a table: its sites, those that were hit and all hits. -/
structure CoverageSummary where
  totalSites : Nat
  hitSites : Nat
  totalHits : Hits
deriving DecidableEq, Repr

namespace SiteTable

/-- The table without sites. -/
def empty : SiteTable := ⟨OrderedMap.empty⟩

/-- The metadata of a counter: a record as it is, nothing for null, and any other value under the
key `value`. -/
def metadataOf (v : Json.Value) : OrderedMap String Json.Value :=
  let members :=
    match v with
    | .record members => OrderedMap.ofList members
    | .null => OrderedMap.empty
    | v => OrderedMap.empty.insert "value" v
  members.erase SiteCounter.hitsKey

/-- Makes a site known, with no hits. -/
def register (t : SiteTable) (site : String) (metadata : Json.Value) : SiteTable :=
  ⟨t.sites.insert site ⟨0, metadataOf metadata⟩⟩

/-- The counter of a site. -/
def find? (t : SiteTable) (site : String) : Option SiteCounter := t.sites.find? site

/-- Whether a site is known. -/
def knows (t : SiteTable) (site : String) : Bool := t.sites.contains site

/-- The number of known sites. -/
def size (t : SiteTable) : Nat := t.sites.size

/-- Adds hits to a site, and whether the table knows it; a table that does not stays as it is. -/
def tryAddHits (t : SiteTable) (site : String) (n : Hits) : Bool × SiteTable :=
  match t.find? site with
  | some counter => (true, ⟨t.sites.insert site { counter with hits := counter.hits.plus n }⟩)
  | none => (false, t)

/-- The table after hits were added to a site. -/
def addHits (t : SiteTable) (site : String) (n : Hits) : SiteTable := (t.tryAddHits site n).2

/-- The figures of a table. -/
def summary (t : SiteTable) : CoverageSummary :=
  let hits := t.sites.values.map (·.hits)
  ⟨t.size, (hits.filter (· ≠ 0)).length, hits.foldl Hits.plus 0⟩

/-! ## JSON -/

/-- A counter as it is written: its hits before its metadata. -/
def counterValue (c : SiteCounter) : Json.Value :=
  .record ((SiteCounter.hitsKey, .number (.natural c.hits)) :: c.metadata.entries)

/-- A table as it is written: a record of its counters. -/
def toValue (t : SiteTable) : Json.Value :=
  .record (t.sites.entries.map fun e => (e.1, counterValue e.2))

/-- The text of a table without blanks. -/
def text (t : SiteTable) : String := t.toValue.compact

/-- Adds one member of a written counter to those read before. There is one `hits`, a natural
number of up to 64 bits; other members are metadata, inside which so many lists and records may
nest. -/
def readMember (depth : Nat) (done : Option Hits × List (String × Json.Value)) (key : Units)
    (item : Json.Node) : Option (Option Hits × List (String × Json.Value)) := do
  let k ← key.text?
  if k = SiteCounter.hitsKey then
    match done.1, item with
    | none, .number t => do
      let n ← t.word?
      return (some n, done.2)
    | _, _ => none
  else
    let v ← Json.Value.ofNode? depth item
    return (done.1, Entries.put k v done.2)

/-- Reads a counter. -/
def readCounter (depth : Nat) : Json.Node → Option SiteCounter
  | .record members => do
    let (hits, metadata) ←
      members.foldlM (fun done m => readMember depth done m.1 m.2) (none, [])
    let n ← hits
    return ⟨n, OrderedMap.ofList metadata⟩
  | _ => none

/-- The table of a node inside which so many lists and records may nest. -/
def ofNode? (depth : Nat) : Json.Node → Option SiteTable
  | .record members => do
    let sites ← members.foldlM (fun (sites : OrderedMap String SiteCounter) m => do
      let site ← m.1.text?
      let counter ← readCounter (depth - 2) m.2
      return sites.insert site counter) OrderedMap.empty
    return ⟨sites⟩
  | _ => none

/-- Reads the text of a table. -/
def read? (text : String) : Option SiteTable :=
  (Json.Node.read (Units.ofText text)).bind (ofNode? Json.nestingLimit)

end SiteTable

end CoverRun

import CoverRun.Stage

/-!
# Relaying the output of a stage

While a stage runs, each of its two streams is pumped line by line into one channel, and whoever
drives the stage takes the lines off it, ingests each and then forwards it. A pump at the end of its
stream lets go of the channel, and the driver ends once both pumps did and the channel is empty.
Which of the three moves next is left open: `Relay.Step` is any one move and `Relay.Reaches` any
number of them.
-/

namespace CoverRun

/-- A line with the stream it was written to. -/
abbrev StreamLine := OutputStream × String

/-- The output of a stage on its way: for each stream the lines that its pump has still to send, or
none once it let go of the channel; the channel; the line that was ingested and is still to be
forwarded; all lines that were ingested or forwarded so far; the number of lines; whether the driver
has ended; and the tally. The earliest line comes first. -/
structure Relay where
  pump : OutputStream → Option (List String)
  channel : List StreamLine
  held : Option StreamLine
  ingested : List StreamLine
  forwarded : List StreamLine
  lines : Nat
  ended : Bool
  tally : Tally

namespace Relay

/-- Nothing was sent yet of the lines that were written to the streams. -/
def start (written : OutputStream → List String) (tally : Tally) : Relay :=
  ⟨fun stream => some (written stream), [], none, [], [], 0, false, tally⟩

/-- Changes what is known of one pump. -/
def setPump (r : Relay) (stream : OutputStream) (rest : Option (List String)) : Relay :=
  { r with pump := fun s => if s = stream then rest else r.pump s }

/-- Puts a line into the channel. -/
def send (r : Relay) (line : StreamLine) : Relay := { r with channel := r.channel ++ [line] }

/-- Ingests a line, which is then held. -/
def ingest (r : Relay) (line : StreamLine) : Relay :=
  { r with
    held := some line
    ingested := r.ingested ++ [line]
    tally := r.tally.ingest line.2 }

/-- Forwards the line that is held, and counts it. -/
def forward (r : Relay) (line : StreamLine) : Relay :=
  { r with held := none, forwarded := r.forwarded ++ [line], lines := r.lines + 1 }

/-- One move: a pump sends the next line of its stream or lets go of the channel at the end, or the
driver ingests the next line of the channel, forwards the one it holds or, when the channel is empty
and no pump holds on to it, ends. -/
inductive Step : Relay → Relay → Prop
  | send {r : Relay} {stream : OutputStream} {line : String} {rest : List String}
      (next : r.pump stream = some (line :: rest)) :
      Step r ((r.setPump stream (some rest)).send (stream, line))
  | close {r : Relay} {stream : OutputStream} (atEnd : r.pump stream = some []) :
      Step r (r.setPump stream none)
  | ingest {r : Relay} {line : StreamLine} {rest : List StreamLine} (idle : r.held = none)
      (next : r.channel = line :: rest) : Step r ({ r with channel := rest }.ingest line)
  | forward {r : Relay} {line : StreamLine} (holds : r.held = some line) : Step r (r.forward line)
  | finish {r : Relay} (idle : r.held = none) (empty : r.channel = [])
      (closed : ∀ stream, r.pump stream = none) (running : r.ended = false) :
      Step r { r with ended := true }

/-- Any number of moves. -/
inductive Reaches (first : Relay) : Relay → Prop
  | refl : Reaches first first
  | tail {r s : Relay} (earlier : Reaches first r) (step : Step r s) : Reaches first s

/-- What forwarding the lines so far did. -/
def effects (r : Relay) : List Effect := r.forwarded.map fun line => StageSite.forward line.1 line.2

/-- The text that was forwarded to a stream. -/
def textOn (r : Relay) (stream : OutputStream) : String := World.printedOn stream r.effects

end Relay

end CoverRun

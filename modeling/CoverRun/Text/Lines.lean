import CoverRun.Text.Utf8

/-!
# Lines of a stream

A stream of bytes is cut after each line feed. The text of a line is read leniently, without the
line feed and without the carriage returns before it or before the end of the stream.
-/

namespace CoverRun.Lines

/-- The byte that ends a line. -/
def lineFeed : UInt8 := 0x0A

/-- The byte that some programs write before the end of a line. -/
def carriageReturn : UInt8 := 0x0D

/-- Puts one byte in front of segments: a line feed ends a segment of its own. -/
def consByte (b : UInt8) (segments : List Bytes) : List Bytes :=
  if b = lineFeed then [] :: segments
  else
    match segments with
    | [] => [[b]]
    | s :: rest => (b :: s) :: rest

/-- The bytes between line feeds; a stream that ends with one has no empty last segment. -/
def segments (bytes : Bytes) : List Bytes := bytes.foldr consByte []

/-- A segment without its trailing carriage returns. -/
def dropReturns (segment : Bytes) : Bytes :=
  (segment.reverse.dropWhile (· == carriageReturn)).reverse

/-- The lines of a stream. -/
def ofBytes (bytes : Bytes) : List String :=
  (segments bytes).map fun s => Utf8.decodeLenient (dropReturns s)

/-- The lines of a stream that was cut off, without an unfinished last one. -/
def ofFinished (bytes : Bytes) : List String :=
  ofBytes (bytes.reverse.dropWhile (· != lineFeed)).reverse

end CoverRun.Lines

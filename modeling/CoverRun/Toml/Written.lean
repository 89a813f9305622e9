import CoverRun.Toml.Document

/-!
# Writing TOML

A text is written in the plainest of four styles that holds it: in double quotes if nothing in it
needs an escape, else in single quotes, else in three double or three single quotes, and else with
escapes. Lists of more than one item have a line for each.
-/

namespace CoverRun.Toml

/-! ## Texts -/

/-- Whether a character must be written as an escape: a control character that is neither a tab nor
a line feed. -/
def isControl (c : Char) : Bool := (c.toNat < 0x20 && c != '\t' && c != '\n') || c.toNat == 0x7F

/-- The length of the longest run of a character, if a run of some length comes before. -/
def longestRun (c : Char) (before : Nat) : List Char → Nat
  | [] => before
  | d :: cs => if d = c then longestRun c (before + 1) cs else max before (longestRun c 0 cs)

/-- The styles of a written text. -/
inductive TextStyle where
  | basic
  | literal
  | basicBlock
  | literalBlock
deriving DecidableEq, Repr

/-- The plainest style for a value. -/
def TextStyle.ofValue (cs : List Char) : TextStyle :=
  let control := cs.any isControl
  let backslash := cs.contains '\\'
  let lines := cs.contains '\n'
  let double := longestRun '"' 0 cs
  let single := longestRun '\'' 0 cs
  if !control && !backslash && double == 0 && !lines then .basic
  else if !control && single == 0 && !lines then .literal
  else if !control && !backslash && double ≤ 2 then .basicBlock
  else if !control && single ≤ 2 then .literalBlock
  else if lines then .basicBlock
  else .basic

/-- The style for a name that cannot stand without quotes. -/
def TextStyle.ofName (cs : List Char) : TextStyle :=
  let control := cs.any isControl || cs.contains '\n'
  if !control && !cs.contains '\\' && !cs.contains '"' then .basic
  else if !control && !cs.contains '\'' then .literal
  else .basic

/-- A hexadecimal digit with a capital letter. -/
def capitalDigit (n : Nat) : Char := (Nat.digitChar (n % 16)).toUpper

/-- A character as it is written between double quotes, where a quote is left to the caller. -/
def escapeChar (c : Char) : List Char :=
  if c = '\\' then ['\\', '\\']
  else if c = '\x08' then ['\\', 'b']
  else if c = '\t' then ['\\', 't']
  else if c = '\n' then ['\\', 'n']
  else if c = '\x0c' then ['\\', 'f']
  else if c = '\r' then ['\\', 'r']
  else if c.toNat < 0x20 ∨ c.toNat = 0x7F then
    ['\\', 'u', '0', '0', capitalDigit (c.toNat / 16), capitalDigit c.toNat]
  else [c]

/-- A body between double quotes, in which at most `allowed` quotes may follow each other bare, of
which `run` have come just before. -/
def escapeBody (allowed run : Nat) (block : Bool) : List Char → List Char
  | [] => []
  | c :: cs =>
    if c = '"' then
      if run < allowed then c :: escapeBody allowed (run + 1) block cs
      else '\\' :: c :: escapeBody allowed 0 block cs
    else if block && c == '\n' then c :: escapeBody allowed 0 block cs
    else escapeChar c ++ escapeBody allowed 0 block cs

/-- Three quotes, after which a body with several lines begins on its own line. -/
def blockQuoted (quote : Char) (lines : Bool) (body : List Char) : List Char :=
  let mark := [quote, quote, quote]
  mark ++ (if lines then ['\n'] else []) ++ body ++ mark

/-- A text in a style. -/
def TextStyle.write (style : TextStyle) (cs : List Char) : List Char :=
  match style with
  | .basic => '"' :: escapeBody 0 0 false cs ++ ['"']
  | .literal => '\'' :: cs ++ ['\'']
  | .basicBlock => blockQuoted '"' (cs.contains '\n') (escapeBody 2 0 true cs)
  | .literalBlock => blockQuoted '\'' (cs.contains '\n') cs

/-- A text as a value. -/
def writeText (s : String) : List Char := (TextStyle.ofValue s.toList).write s.toList

/-- A name before an equals sign. -/
def writeName (s : String) : List Char :=
  let cs := s.toList
  if cs != [] && cs.all isBare then cs else (TextStyle.ofName cs).write cs

/-! ## Lists and lines -/

/-- A list of texts. -/
def writeTexts : List String → List Char
  | [] => ['[', ']']
  | [s] => '[' :: writeText s ++ [']']
  | ss =>
    '[' :: '\n' :: (ss.flatMap fun s => List.replicate 4 ' ' ++ writeText s ++ [',', '\n']) ++ [']']

/-- A line that gives a name its written value. -/
def writeLine (name : String) (v : List Char) : List Char :=
  writeName name ++ ' ' :: '=' :: ' ' :: v ++ ['\n']

/-- The header of a table. -/
def writeHeader (key : Key) : List Char :=
  '[' :: ['.'].intercalate (key.map writeName) ++ [']', '\n']

/-- The header of a row. -/
def writeRowHeader (key : Key) : List Char :=
  '[' :: '[' :: ['.'].intercalate (key.map writeName) ++ [']', ']', '\n']

/-- Blocks with an empty line between them. -/
def writeBlocks (blocks : List (List Char)) : List Char := ['\n'].intercalate blocks

end CoverRun.Toml

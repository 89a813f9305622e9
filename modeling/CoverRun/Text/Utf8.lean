/-!
# UTF-8

Characters and bytes. Decoding yields units: a character, or `none` for a run of bytes that begins
no character, cut as early as the bytes show it. Reading strictly wants a character in every unit,
and reading leniently writes U+FFFD for each unit that has none.
-/

namespace CoverRun

/-- The content of a file or a stream. -/
abbrev Bytes := List UInt8

/-- Text as it was decoded: `none` stands where there is no character. -/
abbrev Units := List (Option Char)

namespace Units

/-- The units of a text. -/
def ofText (s : String) : Units := s.toList.map some

/-- The text, if every unit is a character. -/
def text? (us : Units) : Option String := (us.mapM id).map String.ofList

end Units

namespace Utf8

/-- A continuation byte with six bits of content. -/
def continuation (n : Nat) : UInt8 := UInt8.ofNat (0x80 + n % 0x40)

/-- The one to four bytes of a character. -/
def encodeChar (c : Char) : Bytes :=
  let n := c.toNat
  if n < 0x80 then [UInt8.ofNat n]
  else if n < 0x800 then [UInt8.ofNat (0xC0 + n / 0x40), continuation n]
  else if n < 0x10000 then
    [UInt8.ofNat (0xE0 + n / 0x1000), continuation (n / 0x40), continuation n]
  else
    [UInt8.ofNat (0xF0 + n / 0x40000), continuation (n / 0x1000), continuation (n / 0x40),
      continuation n]

/-- The bytes of a text. -/
def encode (s : String) : Bytes := s.toList.flatMap encodeChar

/-- Where the decoder stands between two bytes: between characters, or inside one whose next byte
lies in a range, which owes more bytes after that one and whose content so far is a number. -/
inductive Position where
  | between
  | inside (low high : UInt8) (owed : Nat) (content : Nat)
deriving DecidableEq, Repr

/-- A first byte: what it completes or cuts off, and where it leads. Bytes that would begin an
overlong form, a surrogate or a number above U+10FFFF begin nothing, or narrow the second byte. -/
def first (b : UInt8) : Units × Position :=
  if b < 0x80 then ([some (Char.ofNat b.toNat)], .between)
  else if b < 0xC2 then ([none], .between)
  else if b < 0xE0 then ([], .inside 0x80 0xBF 0 (b.toNat % 0x20))
  else if b = 0xE0 then ([], .inside 0xA0 0xBF 1 0)
  else if b = 0xED then ([], .inside 0x80 0x9F 1 0x0D)
  else if b < 0xF0 then ([], .inside 0x80 0xBF 1 (b.toNat % 0x10))
  else if b = 0xF0 then ([], .inside 0x90 0xBF 2 0)
  else if b < 0xF4 then ([], .inside 0x80 0xBF 2 (b.toNat % 0x08))
  else if b = 0xF4 then ([], .inside 0x80 0x8F 2 0x04)
  else ([none], .between)

/-- One byte: the units that end with it or before it, and where it leads. -/
def step : Position → UInt8 → Units × Position
  | .between, b => first b
  | .inside low high owed content, b =>
    if low ≤ b ∧ b ≤ high then
      let content := content * 0x40 + b.toNat % 0x40
      match owed with
      | 0 => ([some (Char.ofNat content)], .between)
      | owed + 1 => ([], .inside 0x80 0xBF owed content)
    else (none :: (first b).1, (first b).2)

/-- What is left of an unfinished character at the end. -/
def finish : Position → Units
  | .between => []
  | .inside .. => [none]

/-- The units decoded so far, last first, and the position after them. -/
structure Decoder where
  reversed : Units
  position : Position

/-- Takes in one byte. -/
def Decoder.feed (d : Decoder) (b : UInt8) : Decoder :=
  ⟨(step d.position b).1.reverse ++ d.reversed, (step d.position b).2⟩

/-- All bytes cut into units. -/
def units (bytes : Bytes) : Units :=
  let d := bytes.foldl Decoder.feed ⟨[], .between⟩
  d.reversed.reverse ++ finish d.position

/-- The text of bytes that are UTF-8 throughout. -/
def decode? (bytes : Bytes) : Option String := (units bytes).text?

/-- The text of any bytes, with U+FFFD for each unit that is no character. -/
def decodeLenient (bytes : Bytes) : String :=
  String.ofList ((units bytes).map (·.getD '\uFFFD'))

end Utf8

end CoverRun

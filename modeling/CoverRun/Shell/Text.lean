import CoverRun.Text.Utf8

/-!
# Shell texts

A shell works on bytes. A text of it is a list of characters, each of which stands for the byte
with its number.
-/

namespace CoverRun.Shell

/-- Bytes as characters. -/
abbrev Text := List Char

namespace Text

/-- The text of bytes. -/
def ofBytes (bytes : Bytes) : Text := bytes.map fun b => Char.ofNat b.toNat

/-- The bytes of a text. -/
def bytes (t : Text) : Bytes := t.map fun c => UInt8.ofNat c.toNat

/-- The text of a string. -/
def ofString (s : String) : Text := ofBytes (Utf8.encode s)

/-- The string of a text; bytes that are no characters are replaced. -/
def string (t : Text) : String := Utf8.decodeLenient t.bytes

/-- The digits of a number. -/
def ofNat (n : Nat) : Text := Nat.toDigits 10 n

/-- The digits of a number with its sign. -/
def ofInt (n : Int) : Text := if n < 0 then '-' :: ofNat n.natAbs else ofNat n.natAbs

/-- Whether a text is a number without sign. -/
def isNatural (t : Text) : Bool := t != [] && t.all fun c => '0' ≤ c && c ≤ '9'

/-- The number of digits. -/
def natural (t : Text) : Nat := t.foldl (fun n c => n * 10 + (c.toNat - '0'.toNat)) 0

/-- The number without sign that a text writes. -/
def natural? (t : Text) : Option Nat := if isNatural t then some (natural t) else none

/-- The number that a text writes, between blanks. -/
def integer? (t : Text) : Option Int :=
  let blank := fun c : Char => c == ' ' || c == '\t' || c == '\n'
  let t := ((t.dropWhile blank).reverse.dropWhile blank).reverse
  match t with
  | '-' :: ds => (natural? ds).map fun n => -(n : Int)
  | '+' :: ds => (natural? ds).map fun n => (n : Int)
  | ds => (natural? ds).map fun n => (n : Int)

/-- Whether a character is an octal digit. -/
def isOctal (c : Char) : Bool := '0' ≤ c && c ≤ '7'

/-- The number of octal digits. -/
def octal (ds : Text) : Nat := ds.foldl (fun n c => n * 8 + (c.toNat - '0'.toNat)) 0

/-- Whether a character is a hexadecimal digit. -/
def isHexadecimal (c : Char) : Bool :=
  ('0' ≤ c && c ≤ '9') || ('a' ≤ c && c ≤ 'f') || ('A' ≤ c && c ≤ 'F')

/-- The value of a hexadecimal digit. -/
def hexadecimalDigit (c : Char) : Nat :=
  if 'a' ≤ c then c.toNat - 'a'.toNat + 10
  else if 'A' ≤ c then c.toNat - 'A'.toNat + 10
  else c.toNat - '0'.toNat

/-- The number of hexadecimal digits. -/
def hexadecimal (ds : Text) : Nat := ds.foldl (fun n c => n * 16 + hexadecimalDigit c) 0

/-- Reads a constant: hexadecimal after `0x`, octal after `0`, or else decimal; and what follows. -/
def constantAt (t : Text) : Nat × Text :=
  match t with
  | '0' :: x :: d :: ds =>
    if (x = 'x' ∨ x = 'X') ∧ isHexadecimal d then
      (hexadecimal ((d :: ds).takeWhile isHexadecimal), (d :: ds).dropWhile isHexadecimal)
    else (octal ((x :: d :: ds).takeWhile isOctal), (x :: d :: ds).dropWhile isOctal)
  | '0' :: ds => (octal (ds.takeWhile isOctal), ds.dropWhile isOctal)
  | ds =>
    (natural (ds.takeWhile fun c => '0' ≤ c && c ≤ '9'), ds.dropWhile fun c => '0' ≤ c && c ≤ '9')

/-- Whether a character may begin a name. -/
def isNameStart (c : Char) : Bool := ('a' ≤ c && c ≤ 'z') || ('A' ≤ c && c ≤ 'Z') || c == '_'

/-- Whether a character may stand in a name. -/
def isNameChar (c : Char) : Bool := isNameStart c || ('0' ≤ c && c ≤ '9')

/-- Whether a text is a name. -/
def isName (t : Text) : Bool :=
  match t with
  | c :: cs => isNameStart c && cs.all isNameChar
  | [] => false

end Text

end CoverRun.Shell

/-!
# Blank characters

The characters with the Unicode property White_Space, and texts without them at their ends.
-/

namespace CoverRun.Blank

/-- Whether a character has the property White_Space. -/
def isBlank (c : Char) : Bool :=
  let n := c.toNat
  (0x09 ≤ n && n ≤ 0x0D) || n == 0x20 || n == 0x85 || n == 0xA0 || n == 0x1680 ||
    (0x2000 ≤ n && n ≤ 0x200A) || n == 0x2028 || n == 0x2029 || n == 0x202F || n == 0x205F ||
    n == 0x3000

/-- Whether a text has no other characters. -/
def isBlankText (s : String) : Bool := s.toList.all isBlank

/-- A text without blank characters at its start and its end. -/
def trim (s : String) : String :=
  String.ofList (((s.toList.dropWhile isBlank).reverse.dropWhile isBlank).reverse)

example : trim "\u00a0 a b\t\u3000" = "a b" := by decide +kernel

end CoverRun.Blank

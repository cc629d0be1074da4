/-!
# Blank characters

The characters with the Unicode property `White_Space`. A text of which every character is blank
says nothing.
-/

namespace Toolpath

namespace Text

/-- The ranges of blank characters, first and last code point. -/
def blankRanges : List (Nat × Nat) :=
  [(0x09, 0x0D), (0x20, 0x20), (0x85, 0x85), (0xA0, 0xA0), (0x1680, 0x1680), (0x2000, 0x200A),
    (0x2028, 0x2029), (0x202F, 0x202F), (0x205F, 0x205F), (0x3000, 0x3000)]

/-- Whether a character is blank. -/
def isBlankChar (c : Char) : Bool :=
  blankRanges.any fun r => decide (r.1 ≤ c.toNat) && decide (c.toNat ≤ r.2)

/-- Whether every character of a text is blank. -/
def isBlank (text : String) : Bool := text.toList.all isBlankChar

end Text

end Toolpath

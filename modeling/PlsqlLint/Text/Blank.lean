import PlsqlLint.Text.CodeRange

/-!
# Blank characters

The code points with the property White_Space of Unicode 17.
-/

namespace PlsqlLint

/-- The code points with the property White_Space, in increasing order. -/
def blankRanges : List CodeRange :=
  [(0x9, 0xD), (0x20, 0x20), (0x85, 0x85), (0xA0, 0xA0), (0x1680, 0x1680), (0x2000, 0x200A), (0x2028, 0x2029),
   (0x202F, 0x202F), (0x205F, 0x205F), (0x3000, 0x3000)]

/-- Blank characters separate tokens and carry no meaning. -/
def isBlank (c : Char) : Bool := CodeRange.covers blankRanges c.toNat

end PlsqlLint

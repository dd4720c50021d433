import Typeset.Text.CodeRange

/-!
# Blank characters

The white space of the Unicode standard together with the four information separators
U+001C to U+001F. The zero-width space U+200B is not blank.
-/

namespace Typeset.Text

/-- The ranges of blank characters. -/
def blankRanges : CodeRanges :=
  [(0x9, 0xd), (0x1c, 0x20), (0x85, 0x85), (0xa0, 0xa0), (0x1680, 0x1680), (0x2000, 0x200a),
   (0x2028, 0x2029), (0x202f, 0x202f), (0x205f, 0x205f), (0x3000, 0x3000)]

/-- Whether `c` is white space. -/
def isBlank (c : Char) : Bool := blankRanges.has c

end Typeset.Text

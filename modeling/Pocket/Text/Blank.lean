import Pocket.Text.Glyph
import Pocket.Text.Ranges

/-!
# Blanks

The characters with the White_Space property: they separate tokens and are trimmed from the ends of
names, lines and operands.
-/

namespace Pocket

/-- The ranges of blank characters. -/
def blankRanges : Ranges :=
  [(0x09, 0x0D), (0x20, 0x20), (0x85, 0x85), (0xA0, 0xA0), (0x1680, 0x1680), (0x2000, 0x200A),
   (0x2028, 0x2029), (0x202F, 0x202F), (0x205F, 0x205F), (0x3000, 0x3000)]

/-- Whether a character is blank. -/
def isBlank (c : Char) : Bool :=
  blankRanges.contains c.toNat

namespace Text

/-- The text without the blank characters at its two ends. -/
def trim (t : Text) : Text :=
  let body := t.glyphs.dropWhile fun g => isBlank g.char
  ofGlyphs (body.reverse.dropWhile fun g => isBlank g.char).reverse

end Text

end Pocket

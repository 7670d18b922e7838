import Pocket.Text.Glyph
import Pocket.Text.Numeral
import Pocket.Text.Ranges

/-!
# Columns

How many columns a text takes on a terminal. Most characters take one column; the wide ones of East
Asian scripts and the pictures take two; control and format characters and the marks that combine
with the character before them take none. The tables are those of Unicode 12.1; a character that came
later takes one column.

A terminal does not show the sequences that change its colours, so they take no room in what is
displayed.
-/

namespace Pocket

/-- The ranges of characters that take two columns. -/
def wideRanges : Ranges :=
  [(0x1100, 0x115F), (0x231A, 0x231B), (0x2329, 0x232A), (0x23E9, 0x23EC), (0x23F0, 0x23F0),
   (0x23F3, 0x23F3), (0x25FD, 0x25FE), (0x2614, 0x2615), (0x2648, 0x2653), (0x267F, 0x267F),
   (0x2693, 0x2693), (0x26A1, 0x26A1), (0x26AA, 0x26AB), (0x26BD, 0x26BE), (0x26C4, 0x26C5),
   (0x26CE, 0x26CE), (0x26D4, 0x26D4), (0x26EA, 0x26EA), (0x26F2, 0x26F3), (0x26F5, 0x26F5),
   (0x26FA, 0x26FA), (0x26FD, 0x26FD), (0x2705, 0x2705), (0x270A, 0x270B), (0x2728, 0x2728),
   (0x274C, 0x274C), (0x274E, 0x274E), (0x2753, 0x2755), (0x2757, 0x2757), (0x2795, 0x2797),
   (0x27B0, 0x27B0), (0x27BF, 0x27BF), (0x2B1B, 0x2B1C), (0x2B50, 0x2B50), (0x2B55, 0x2B55),
   (0x2E80, 0x2E99), (0x2E9B, 0x2EF3), (0x2F00, 0x2FD5), (0x2FF0, 0x2FFB), (0x3000, 0x303E),
   (0x3041, 0x3096), (0x3099, 0x30FF), (0x3105, 0x312F), (0x3131, 0x318E), (0x3190, 0x31BA),
   (0x31C0, 0x31E3), (0x31F0, 0x321E), (0x3220, 0x3247), (0x3250, 0x4DBF), (0x4E00, 0xA48C),
   (0xA490, 0xA4C6), (0xA960, 0xA97C), (0xAC00, 0xD7A3), (0xF900, 0xFAFF), (0xFE10, 0xFE19),
   (0xFE30, 0xFE52), (0xFE54, 0xFE66), (0xFE68, 0xFE6B), (0xFF01, 0xFF60), (0xFFE0, 0xFFE6),
   (0x16FE0, 0x16FE3), (0x17000, 0x187F7), (0x18800, 0x18AF2), (0x1B000, 0x1B11E),
   (0x1B150, 0x1B152), (0x1B164, 0x1B167), (0x1B170, 0x1B2FB), (0x1F004, 0x1F004),
   (0x1F0CF, 0x1F0CF), (0x1F18E, 0x1F18E), (0x1F191, 0x1F19A), (0x1F200, 0x1F202),
   (0x1F210, 0x1F23B), (0x1F240, 0x1F248), (0x1F250, 0x1F251), (0x1F260, 0x1F265),
   (0x1F300, 0x1F320), (0x1F32D, 0x1F335), (0x1F337, 0x1F37C), (0x1F37E, 0x1F393),
   (0x1F3A0, 0x1F3CA), (0x1F3CF, 0x1F3D3), (0x1F3E0, 0x1F3F0), (0x1F3F4, 0x1F3F4),
   (0x1F3F8, 0x1F43E), (0x1F440, 0x1F440), (0x1F442, 0x1F4FC), (0x1F4FF, 0x1F53D),
   (0x1F54B, 0x1F54E), (0x1F550, 0x1F567), (0x1F57A, 0x1F57A), (0x1F595, 0x1F596),
   (0x1F5A4, 0x1F5A4), (0x1F5FB, 0x1F64F), (0x1F680, 0x1F6C5), (0x1F6CC, 0x1F6CC),
   (0x1F6D0, 0x1F6D2), (0x1F6D5, 0x1F6D5), (0x1F6EB, 0x1F6EC), (0x1F6F4, 0x1F6FA),
   (0x1F7E0, 0x1F7EB), (0x1F90D, 0x1F971), (0x1F973, 0x1F976), (0x1F97A, 0x1F9A2),
   (0x1F9A5, 0x1F9AA), (0x1F9AE, 0x1F9CA), (0x1F9CD, 0x1F9FF), (0x1FA70, 0x1FA73),
   (0x1FA78, 0x1FA7A), (0x1FA80, 0x1FA82), (0x1FA90, 0x1FA95), (0x20000, 0x2FFFD),
   (0x30000, 0x3FFFD)]

/-- The ranges of control and format characters. -/
def controlRanges : Ranges :=
  [(0x0, 0x1F), (0x7F, 0x9F), (0xAD, 0xAD), (0x70F, 0x70F), (0x180B, 0x180E), (0x200B, 0x200F),
   (0x2028, 0x202E), (0x206A, 0x206F), (0xFEFF, 0xFEFF), (0xFFF9, 0xFFFB), (0xFFFE, 0xFFFF)]

/-- The ranges of combining marks. -/
def combiningRanges : Ranges :=
  [(0x300, 0x36F), (0x483, 0x489), (0x7EB, 0x7F3), (0xC00, 0xC00), (0xC04, 0xC04), (0xD00, 0xD01),
   (0x135D, 0x135F), (0x1A7F, 0x1A7F), (0x1AB0, 0x1ABE), (0x1B6B, 0x1B73), (0x1DC0, 0x1DF9),
   (0x1DFB, 0x1DFF), (0x20D0, 0x20F0), (0x2CEF, 0x2CF1), (0x2DE0, 0x2DFF), (0x3099, 0x309A),
   (0xA66F, 0xA672), (0xA674, 0xA67D), (0xA69E, 0xA69F), (0xA6F0, 0xA6F1), (0xA8E0, 0xA8F1),
   (0xFE20, 0xFE2F), (0x101FD, 0x101FD), (0x10376, 0x1037A), (0x10F46, 0x10F50), (0x11300, 0x11301),
   (0x1133B, 0x1133C), (0x11366, 0x1136C), (0x11370, 0x11374), (0x16AF0, 0x16AF4),
   (0x1D165, 0x1D169), (0x1D16D, 0x1D172), (0x1D17B, 0x1D182), (0x1D185, 0x1D18B),
   (0x1D1AA, 0x1D1AD), (0x1D242, 0x1D244), (0x1E000, 0x1E006), (0x1E008, 0x1E018),
   (0x1E01B, 0x1E021), (0x1E023, 0x1E024), (0x1E026, 0x1E02A), (0x1E8D0, 0x1E8D6)]

/-- The ranges of the narrow brackets of mathematics. -/
def narrowBracketRanges : Ranges :=
  [(0x27E6, 0x27ED), (0x2985, 0x2986)]

/-- The number of columns that a character takes. A combining mark takes none even where its range
is wide. -/
def charColumns (c : Char) : Nat :=
  let n := c.toNat
  if controlRanges.contains n || combiningRanges.contains n || narrowBracketRanges.contains n then 0
  else if wideRanges.contains n then 2
  else 1

namespace Text

/-- The number of columns that the characters of a text take. -/
def columns (t : Text) : Nat :=
  t.glyphs.foldl (fun total g => total + charColumns g.char) 0

/-! ### Colour sequences -/

/-- Whether a text is the parameters of a colour sequence: numbers of one to three digits between
semicolons, or nothing at all. -/
def isColourParameters (t : Text) : Bool :=
  t.isEmpty || (split ';'.toUInt8 t).all fun n => isDigits n && n.length ≤ 3

/-- The number of bytes that a colour sequence at the beginning of a text takes; zero if none stands
there. It is an escape character and a bracket, the parameters and a closing sign. -/
def colourLength (t : Text) : Nat :=
  match after? [0x1B, '['.toUInt8] t with
  | none => 0
  | some body =>
    let parameters := body.takeWhile fun b => isDigitByte b || b == ';'.toUInt8
    let isClosing (b : UInt8) : Bool := b == 'm'.toUInt8 || b == 'K'.toUInt8 || b == '|'.toUInt8
    if isColourParameters parameters && (body.drop parameters.length).head?.any isClosing then
      parameters.length + 3
    else 0

/-- What is left of a text after `skip` bytes, without its colour sequences. -/
def withoutColoursAfter : Nat → Text → Text
  | _, [] => []
  | skip + 1, _ :: rest => withoutColoursAfter skip rest
  | 0, b :: rest =>
    match colourLength (b :: rest) with
    | 0 => b :: withoutColoursAfter 0 rest
    | n + 1 => withoutColoursAfter n rest

/-- The number of columns in which a text is displayed. -/
def displayColumns (t : Text) : Nat :=
  columns (withoutColoursAfter 0 t)

end Text

end Pocket

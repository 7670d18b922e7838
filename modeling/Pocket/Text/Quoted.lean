import Pocket.Text.Glyph
import Pocket.Text.Printable

/-!
# Quoted text

How messages show a piece of source: between quotes on one line. Printable characters stand as they
are; the quote in use and the backslash are escaped; control characters have their letter or a
hexadecimal escape, and an ill-formed byte shows its value.
-/

namespace Pocket.Text

/-- The letter that stands for a control character after a backslash. -/
def escapeLetter? (c : Char) : Option Char :=
  match c.toNat with
  | 7 => some 'a'
  | 8 => some 'b'
  | 9 => some 't'
  | 10 => some 'n'
  | 11 => some 'v'
  | 12 => some 'f'
  | 13 => some 'r'
  | _ => none

/-- A character as it stands between the given quotes. -/
def escapeChar (quote : Char) (c : Char) : Text :=
  if c = quote || c = '\\' then ofChars ['\\', c]
  else if isPrintable c then ofChar c
  else match escapeLetter? c with
    | some letter => ofChars ['\\', letter]
    | none =>
      if c.toNat < 0x80 then "\\x" ++ ofHex 2 c.toNat
      else if c.toNat < 0x10000 then "\\u" ++ ofHex 4 c.toNat
      else "\\U" ++ ofHex 8 c.toNat

/-- A glyph as it stands between double quotes. -/
def escapeGlyph (g : Glyph) : Text :=
  if g.isIllFormed then g.bytes.flatMap fun b => "\\x" ++ ofHex 2 b.toNat
  else escapeChar '"' g.char

/-- A text between double quotes. -/
def quote (t : Text) : Text :=
  "\"" ++ t.glyphs.flatMap escapeGlyph ++ "\""

/-- A single character between single quotes. -/
def quoteChar (c : Char) : Text :=
  "'" ++ escapeChar '\'' c ++ "'"

end Pocket.Text

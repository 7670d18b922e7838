import Pocket.Text.Glyph
import Pocket.Text.Ranges
import Pocket.Yaml.Scalar

/-!
# Writing YAML

A mapping from words to texts, truth values and lists of texts, one entry after the other. A text is
written plain if it would be read back as itself; otherwise it is put in quotes, or written as a
literal block if it has several lines. Long texts go on in the next line at a space.
-/

namespace Pocket.Yaml

/-- Texts are broken at a space behind this column. -/
def widest : Nat := 80

/-- How far the further lines of a text are indented. -/
def margin : Text := "  "

/-- A value to be written. -/
inductive Datum where
  | text (t : Text)
  | flag (b : Bool)
  | list (ts : List Text)
  deriving DecidableEq, Repr

/-! ### How a text may be written -/

/-- The code points that can be written as they are. -/
def writtenRanges : Ranges :=
  [(0x0A, 0x0A), (0x20, 0x7E), (0xA0, 0x2027), (0x202A, 0xD7FF), (0xE000, 0xFEFE),
   (0xFF00, 0xFFFD)]

/-- Whether a glyph can be written as it is. -/
def isWritten (g : Glyph) : Bool :=
  !g.isIllFormed && writtenRanges.contains g.char.toNat

/-- Whether a blank or nothing follows. -/
def blankFollows (t : Text) : Bool :=
  t.head?.all fun b => b == ' '.toUInt8 || b == '\t'.toUInt8

/-- Whether the rest of a text is free of what would end it if it were written plain: a colon before
a blank, or a number sign after one. -/
def isPlainRest : Bool → Text → Bool
  | _, [] => true
  | afterBlank, b :: rest =>
    !(b == ':'.toUInt8 && blankFollows rest) && !(b == '#'.toUInt8 && afterBlank) &&
      isPlainRest (b == ' '.toUInt8) rest

/-- Whether a text may begin so if it is written plain. -/
def isPlainStart (b : UInt8) (rest : Text) : Bool :=
  if (",[]\x7b\x7d#&*!|>'\"%@`" : Text).contains b then false
  else if b = '-'.toUInt8 || b = '?'.toUInt8 || b = ':'.toUInt8 then !blankFollows rest
  else true

/-- Whether a text of one line reads back as one plain scalar. -/
def isPlainShape (t : Text) : Bool :=
  match t with
  | [] => false
  | b :: rest =>
    isPlainStart b rest && isPlainRest false t && b != ' '.toUInt8 &&
      t.getLast? != some ' '.toUInt8 && !Text.startsWith t "---" && !Text.startsWith t "..."

/-- Whether a text can be written as a literal block: no line ends in a blank. -/
def isLiteralShape (t : Text) : Bool :=
  (Text.lines t).all fun line => line.getLast? != some ' '.toUInt8

/-- The ways to write a text. -/
inductive Style where
  | plain
  | single
  | double
  | literal
  deriving DecidableEq, Repr

/-- How a text is written. -/
def style (t : Text) : Style :=
  if !t.glyphs.all isWritten then .double
  else if t.contains '\n'.toUInt8 then if isLiteralShape t then .literal else .double
  else if !meansText t then .double
  else if isPlainShape t then .plain
  else .single

/-! ### Writing a text -/

/-- Writes glyphs from a column on, plain or between single quotes, where a quote is written twice. A
single space behind the widest column becomes a line break. -/
def wrap (quoted : Bool) (column : Nat) (afterSpace : Bool) : List Glyph → Text
  | [] => []
  | g :: rest =>
    if g.char = ' ' then
      if !afterSpace && widest < column && rest.head?.all (·.char != ' ') && !rest.isEmpty then
        "\n" ++ margin ++ wrap quoted margin.length true rest
      else " " ++ wrap quoted (column + 1) true rest
    else if quoted && g.char = '\'' then "''" ++ wrap quoted (column + 2) false rest
    else g.bytes ++ wrap quoted (column + 1) false rest

/-- A code in upper-case hexadecimal digits. -/
def upperHex (width n : Nat) : Text :=
  (Text.ofHex width n).map fun b =>
    if 'a'.toUInt8 ≤ b && b ≤ 'f'.toUInt8 then b - 32 else b

/-- A character that cannot be written as it is between double quotes. -/
def escaped (c : Char) : Text :=
  match c.toNat with
  | 0x00 => "\\0"
  | 0x07 => "\\a"
  | 0x08 => "\\b"
  | 0x09 => "\\t"
  | 0x0A => "\\n"
  | 0x0B => "\\v"
  | 0x0C => "\\f"
  | 0x0D => "\\r"
  | 0x1B => "\\e"
  | 0x22 => "\\\""
  | 0x5C => "\\\\"
  | 0x85 => "\\N"
  | 0x2028 => "\\L"
  | 0x2029 => "\\P"
  | n =>
    if n ≤ 0xFF then "\\x" ++ upperHex 2 n
    else if n ≤ 0xFFFF then "\\u" ++ upperHex 4 n
    else "\\U" ++ upperHex 8 n

/-- Writes glyphs from a column on between double quotes. A line break in place of a space is
followed by a backslash if more spaces follow. -/
def wrapEscaped (column : Nat) (first afterSpace : Bool) : List Glyph → Text
  | [] => []
  | g :: rest =>
    if !isWritten g || g.char = '\n' || g.char = '"' || g.char = '\\' then
      let e := escaped g.char
      e ++ wrapEscaped (column + e.length) false false rest
    else if g.char = ' ' then
      if !afterSpace && widest < column && !first && !rest.isEmpty then
        let more := rest.head?.any (·.char == ' ')
        let lead : Text := if more then margin ++ "\\" else margin
        "\n" ++ lead ++ wrapEscaped lead.length false true rest
      else " " ++ wrapEscaped (column + 1) false true rest
    else g.bytes ++ wrapEscaped (column + 1) false false rest

/-- The sign after the bar of a literal block that tells how many line breaks end the text. -/
def chompSign (t : Text) : Text :=
  match t.reverse with
  | [] => "-"
  | b :: rest =>
    if b != '\n'.toUInt8 then "-"
    else if rest.head?.all (· == '\n'.toUInt8) then "+"
    else []

/-- Writes a literal block, up to the start of the next line. -/
def literal (t : Text) : Text :=
  let indentSign : Text :=
    if t.head?.any fun b => b == ' '.toUInt8 || b == '\n'.toUInt8 then "2" else []
  let lines := Text.lines (if t.getLast? == some '\n'.toUInt8 then t.dropLast else t)
  let written := lines.map fun line => if line.isEmpty then [] else margin ++ line
  "|" ++ indentSign ++ chompSign t ++ "\n" ++ Text.join "\n" written ++ "\n"

/-- Writes a text from a column on, up to the start of the next line. -/
def writeText (column : Nat) (t : Text) : Text :=
  match style t with
  | .plain => wrap false column false t.glyphs ++ "\n"
  | .single => "'" ++ wrap true (column + 1) false t.glyphs ++ "'\n"
  | .double => "\"" ++ wrapEscaped (column + 1) true false t.glyphs ++ "\"\n"
  | .literal => literal t

/-! ### Entries -/

/-- Writes an item of a list. -/
def writeItem (t : Text) : Text :=
  "- " ++ writeText 2 t

/-- Writes an entry of a mapping. -/
def writeEntry (key : Text) (value : Datum) : Text :=
  match value with
  | .text t => key ++ ": " ++ writeText (key.length + 2) t
  | .flag b => key ++ ": " ++ (if b then "true" else "false") ++ "\n"
  | .list [] => key ++ ": []\n"
  | .list ts => key ++ ":\n" ++ ts.flatMap writeItem

/-- Writes a mapping. -/
def writeMapping (entries : List (Text × Datum)) : Text :=
  entries.flatMap fun (key, value) => writeEntry key value

end Pocket.Yaml

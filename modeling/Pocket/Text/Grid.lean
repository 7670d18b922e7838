import Pocket.Text.Blank
import Pocket.Text.Paragraph

/-!
# Grids

A table drawn with lines. The text of a cell is broken into lines of at most `cellLimit` columns, and
every column of the table is as wide as its widest cell; headings stand in the middle of their
column, numbers at its right and everything else at its left.

    +------+--------+
    | NAME |  KIND  |
    +------+--------+
    | main | normal |
    +------+--------+
-/

namespace Pocket

/-- A table: the headings of its columns and its rows. -/
structure Grid where
  headings : List Text
  rows : List (List Text)
  deriving DecidableEq, Repr

namespace Grid

/-! ### Cells -/

/-- The greatest width up to which the text of a cell stays on one line. -/
def cellLimit : Nat := 30

/-- The greatest width among some lines, and at least `least`. -/
def widest (least : Nat) (lines : List Text) : Nat :=
  (lines.map Text.displayColumns).foldl max least

/-- The text of a cell as it is drawn: its lines and the width that they need. -/
structure Cell where
  lines : List Text
  width : Nat
  deriving DecidableEq, Repr

/-- A text laid out as a cell. Its own lines are run together before it is broken anew, and a cell
that had to be broken keeps the full width. -/
def Cell.ofText (t : Text) : Cell :=
  let limit := min (widest 0 t.lines) cellLimit
  let lines := Text.wrap limit (Text.join " " t.lines)
  ⟨lines, widest limit lines⟩

/-- The widths of the columns, given the headings and the cells of each row. -/
def widths (headings : List Text) (rows : List (List Cell)) : List Nat :=
  rows.foldl (fun ws row => ws.zipWith (fun w cell => max w cell.width) row)
    (headings.map Text.displayColumns)

/-- Whether a text is a decimal number, perhaps with commas between groups of three digits. -/
def isNumber (t : Text) : Bool :=
  let body := (Text.after? "-" t).getD t
  let whole := body.takeWhile (· != '.'.toUInt8)
  let fraction := body.dropWhile (· != '.'.toUInt8)
  let groups := Text.split ','.toUInt8 whole
  let grouped := (groups.head?.any fun g => Text.isDigits g && g.length ≤ 3) &&
    groups.tail.all fun g => Text.isDigits g && g.length == 3
  (Text.isDigits whole || grouped) && (fraction.isEmpty || Text.isDigits (fraction.drop 1))

/-- A heading in the middle of its column; of an odd gap the larger half is at its right. -/
def center (width : Nat) (t : Text) : Text :=
  let gap := width - t.displayColumns
  Text.spaces (gap / 2) ++ t ++ Text.spaces (gap - gap / 2)

/-- A line of a cell in its column. -/
def justify (width : Nat) (t : Text) : Text :=
  let gap := Text.spaces (width - t.displayColumns)
  if isNumber t.trim then gap ++ t else t ++ gap

/-! ### Drawing -/

/-- A line of cells that fill their columns. -/
def cellLine (cells : List Text) : Text :=
  "| " ++ Text.join " | " cells ++ " |\n"

/-- A line between rows. -/
def ruler (ws : List Nat) : Text :=
  let dashes (w : Nat) : Text := List.replicate (w + 2) '-'.toUInt8
  "+" ++ Text.join "+" (ws.map dashes) ++ "+\n"

/-- A row is as high as its highest cell; the other cells end in empty lines. -/
def drawRow (ws : List Nat) (row : List Cell) : Text :=
  let height := (row.map fun cell => cell.lines.length).foldl max 0
  (List.range height).flatMap fun i =>
    cellLine (ws.zipWith (fun w cell => justify w (cell.lines[i]?.getD [])) row)

/-- The table as text. -/
def render (g : Grid) : Text :=
  let rows := g.rows.map fun row => row.map Cell.ofText
  let ws := widths g.headings rows
  ruler ws ++ cellLine (ws.zipWith center g.headings) ++ ruler ws ++ rows.flatMap (drawRow ws) ++
    ruler ws

end Grid

end Pocket

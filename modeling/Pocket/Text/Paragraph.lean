import Pocket.Text.Columns

/-!
# Paragraphs

A text is broken between its words into lines that are filled as evenly as possible. A line that
leaves `g` columns free costs `g * g`, a line that is too long costs as much and a penalty besides,
and the last line is free if it fits. Of all ways to break, one of least cost is taken; of several,
the one whose earlier lines are shorter.
-/

namespace Pocket.Text

/-- A way to break words into lines, as seen from its first word. -/
structure Break where
  /-- What all lines cost together. -/
  cost : Nat
  /-- How many words follow the first one on its line. -/
  more : Nat
  deriving DecidableEq, Repr

/-- The extra cost of a line that is too long. -/
def overflowPenalty : Nat := 100000

/-- What a line of some width costs. -/
def lineCost (limit width : Nat) : Nat :=
  let gap := (limit - width) + (width - limit)
  gap * gap + if limit < width then overflowPenalty else 0

/-- The widths of the lines that begin a row of words, given the words' widths: of the first word,
of the first two with a space between them, and so on. -/
def lineWidths : List Nat → List Nat
  | [] => []
  | w :: ws => w :: (lineWidths ws).map (w + 1 + ·)

/-- The cheapest of some breaks; the first one, if several are equally cheap. -/
def cheapest (first : Break) (others : List Break) : Break :=
  others.foldl (fun best b => if b.cost < best.cost then b else best) first

/-- The best break of every tail of a row of words, given the words' widths. -/
def breaks (limit : Nat) : List Nat → List Break
  | [] => []
  | w :: ws =>
    let later := breaks limit ws
    let widths := lineWidths (w :: ws)
    let options := (widths.zip later).zipIdx.map fun ((width, b), more) =>
      ⟨lineCost limit width + b.cost, more⟩
    let best : Break :=
      match options with
      | [] => ⟨0, 0⟩
      | first :: others =>
        if widths.getLastD 0 ≤ limit then ⟨0, ws.length⟩ else cheapest first others
    best :: later

/-- The words put into lines as the breaks of their tails say. -/
def layLines : List Break → List Text → List Text
  | [], _ => []
  | b :: later, words =>
    join " " (words.take (b.more + 1)) :: layLines (later.drop b.more) (words.drop (b.more + 1))
termination_by bs => bs.length
decreasing_by
  rw [List.length_drop, List.length_cons]
  exact Nat.lt_succ_of_le (Nat.sub_le later.length b.more)

/-- The lines of a text that is to fit into `limit` columns. Words are what stands between spaces; a
word that is wider than the limit raises it. -/
def wrap (limit : Nat) (t : Text) : List Text :=
  let words := split ' '.toUInt8 t
  let widths := words.map columns
  layLines (breaks (widths.foldl max limit) widths) words

end Pocket.Text

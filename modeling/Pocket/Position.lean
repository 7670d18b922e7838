import Pocket.Text.Glyph

/-!
# Positions

A place in a source: line and column, both counted from one. Columns count characters.
-/

namespace Pocket

/-- A line and a column. -/
structure Position where
  line : Int
  col : Int
  deriving DecidableEq, Repr

namespace Position

/-- The place where every source begins. -/
def start : Position := ⟨1, 1⟩

/-- The place after a character: a newline begins the next line. -/
def next (p : Position) (c : Char) : Position :=
  if c = '\n' then ⟨p.line + 1, 1⟩ else ⟨p.line, p.col + 1⟩

/-- The place after some glyphs. -/
def after (p : Position) (gs : List Glyph) : Position :=
  gs.foldl (fun q g => q.next g.char) p

/-- A position as messages show it. -/
def render (p : Position) : Text :=
  .ofInt p.line ++ ":" ++ .ofInt p.col

end Position

end Pocket

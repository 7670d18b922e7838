import Pocket.Fault

/-!
# Diagnostics

A report shown against its source: the message, the line it points to, and a caret under the
character. A position outside the source shows the message alone.

    file:3:5: parse error: unknown statement form starting with "x"
       3 |     x = 1;
         |     ^
-/

namespace Pocket

/-- The line with a given number, counted from one. -/
def Text.line? (source : Text) (number : Int) : Option Text :=
  if 1 ≤ number then source.lines[(number - 1).toNat]? else none

namespace Diagnostic

/-- A source line as it is shown: without carriage returns at its end, and with a space for every
tab, so that columns keep their place. -/
def shownLine (line : Text) : Text :=
  let body := (line.reverse.dropWhile (· == '\r'.toUInt8)).reverse
  Text.replaceByte '\t'.toUInt8 ' '.toUInt8 body

/-- What stands before a source line. -/
def gutter (number : Int) : Text :=
  (Text.ofInt number).padLeft 4 ++ " | "

/-- The line with the caret: as wide a margin as the source line has, and the caret in its column. -/
def caretLine (pos : Position) : Text :=
  Text.spaces ((gutter pos.line).length - 2) ++ "| " ++ Text.spaces (pos.col - 1).toNat ++ "^"

/-- A report against its source. -/
def render (file source : Text) (r : Report) : Text :=
  let headline :=
    file ++ ":" ++ r.pos.render ++ ": " ++ r.phase.name ++ " error: " ++ r.detail
  match source.line? r.pos.line with
  | none => headline
  | some line =>
    let shown := headline ++ "\n" ++ gutter r.pos.line ++ shownLine line
    if 1 ≤ r.pos.col then shown ++ "\n" ++ caretLine r.pos else shown

/-- A message that has no place in a source. -/
def renderPlain (file message : Text) : Text :=
  file ++ ": " ++ message

end Diagnostic

end Pocket

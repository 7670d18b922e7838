import Pocket.Text.Basic

/-!
# Markdown

The headings and the fenced code blocks of a Markdown document, in order; everything else is prose
and does not count. A heading is a line of one to six number signs and a text. A fence opens with at
least three backquotes or tildes and is closed by at least as many of the same, or by the end of the
document. Lines are taken with the line break that ends them, which only the last one may lack.
-/

namespace Pocket.Markdown

/-- A part of a document, with the number of the line it is found at. -/
inductive Block where
  | heading (line : Nat) (text : Text)
  /-- A fence is found at the first line of its content; an empty one has no line of its own and
  counts as found at the first line of the document. -/
  | fence (line : Nat) (language content : Text)
  deriving DecidableEq, Repr

/-- Whether a byte is a blank of the format. -/
def isSpace (b : UInt8) : Bool :=
  b == ' '.toUInt8 || (9 ≤ b && b ≤ 13)

/-- A text without the blanks at its two ends. -/
def trimSpaces (t : Text) : Text :=
  ((t.dropWhile isSpace).reverse.dropWhile isSpace).reverse

/-- Splits a line into the number of spaces it is indented by and the rest. A line that is indented by
four spaces or more, or by a tab, begins neither a heading nor a fence. -/
def indented? (line : Text) : Option (Nat × Text) :=
  let indent := (line.takeWhile (· == ' '.toUInt8)).length
  let body := line.drop indent
  if indent < 4 && body.head? != some '\t'.toUInt8 then some (indent, body) else none

/-! ### Headings -/

/-- The text of a heading without the number signs that may close it. -/
def dropClosing (t : Text) : Text :=
  let core := (t.reverse.dropWhile (· == '#'.toUInt8)).reverse
  if core.getLast?.all isSpace then trimSpaces core else t

/-- The text of the heading that a line is. -/
def heading? (line : Text) : Option Text := do
  let (_, body) ← indented? line
  let level := (body.takeWhile (· == '#'.toUInt8)).length
  let rest := body.drop level
  if 1 ≤ level && level ≤ 6 && rest.head?.all isSpace then some (dropClosing (trimSpaces rest))
  else none

/-! ### Fences -/

/-- The opening line of a fence. -/
structure Fence where
  indent : Nat
  mark : UInt8
  length : Nat
  language : Text
  deriving DecidableEq, Repr

/-- The backquote. -/
def backquote : UInt8 := 0x60

/-- Whether a byte is one that fences are made of. -/
def isMark (b : UInt8) : Bool :=
  b == backquote || b == '~'.toUInt8

/-- The fence that a line opens. The language is the first word after the marks, which needs at least
two bytes, the line break counted; after backquotes no backquote may follow. -/
def Fence.ofLine? (line : Text) : Option Fence := do
  let (indent, body) ← indented? line
  let mark ← body.head?
  let length := (body.takeWhile (· == mark)).length
  let rest := body.drop length
  let info := if rest.length < 2 then [] else trimSpaces rest
  if isMark mark && 3 ≤ length && !(mark == backquote && info.contains mark) then
    some ⟨indent, mark, length, info.takeWhile (· != ' '.toUInt8)⟩
  else none

/-- Whether a line closes a fence. -/
def Fence.isClosedBy (f : Fence) (line : Text) : Bool :=
  match indented? line with
  | none => false
  | some (_, body) =>
    f.length ≤ (body.takeWhile (· == f.mark)).length &&
      (body.dropWhile (· == f.mark)).all isSpace

/-- A line of the content of a fence, less the indentation that it shares with the fence. A last line
without a line break gets one. -/
def Fence.contentLine (f : Fence) (line : Text) : Text :=
  let shared := ((line.takeWhile (· == ' '.toUInt8)).length).min f.indent
  let content := line.drop shared
  if Text.endsWith content "\n" then content else content ++ "\n"

/-! ### Documents -/

/-- The blocks of some lines, the first of them having the given number. -/
def blocksFrom (number : Nat) (lines : List Text) : List Block :=
  match lines with
  | [] => []
  | line :: rest =>
    match Fence.ofLine? line with
    | some f =>
      let body := rest.takeWhile (!f.isClosedBy ·)
      let found := if body.isEmpty then 1 else number + 1
      .fence found f.language (body.flatMap f.contentLine) ::
        blocksFrom (number + body.length + 2) (rest.drop (body.length + 1))
    | none =>
      match heading? line with
      | some text => .heading number text :: blocksFrom (number + 1) rest
      | none => blocksFrom (number + 1) rest
termination_by lines.length
decreasing_by
  all_goals
    simp only [List.length_cons, List.length_drop]
    omega

/-- The lines of a document, each with its line break; a line break at the end begins no further
line. -/
def documentLines : Text → List Text
  | [] => []
  | b :: rest =>
    if b = '\n'.toUInt8 then [b] :: documentLines rest
    else match documentLines rest with
      | [] => [[b]]
      | line :: lines => (b :: line) :: lines

/-- The blocks of a document. -/
def blocks (t : Text) : List Block :=
  blocksFrom 1 (documentLines t)

end Pocket.Markdown

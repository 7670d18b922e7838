import Pocket.Asm.Listing

/-!
# Writing a listing

A sink takes bytes until its room is used up; then it refuses, or it silently takes less than it is
given. A listing is written item by item with a newline after each; a raw block that ends in a
newline gets no second one. After a refusal nothing more is written, but where the raw blocks would
lie is still recorded.
-/

namespace Pocket.Asm

/-- A receiver of bytes. -/
structure Sink where
  /-- How many more bytes are taken; unlimited if absent. -/
  room : Option Nat
  /-- Whether text that does not fit is cut off without a word. -/
  silent : Bool
  written : Text
  deriving DecidableEq, Repr

namespace Sink

/-- How a sink words its refusal. -/
def refusal : Text := "sink full"

/-- A sink without a limit. -/
def unlimited : Sink := ⟨none, false, []⟩

/-- Writes a text: the sink afterwards, how many bytes it took, and whether it refused. -/
def write (s : Sink) (t : Text) : Sink × Nat × Bool :=
  match s.room with
  | none => ({ s with written := s.written ++ t }, t.length, false)
  | some room =>
    let taken := min t.length room
    ({ s with room := some (room - taken), written := s.written ++ t.take taken },
      taken, taken < t.length && !s.silent)

end Sink

/-- Where a raw block lies in the written text: the byte range from `first` up to `last`. -/
structure Span where
  first : Nat
  last : Nat
  deriving DecidableEq, Repr

/-- The state of writing a listing. -/
structure Emission where
  sink : Sink
  /-- The number of bytes the sink took so far. -/
  size : Nat
  refused : Bool
  /-- The spans of the raw blocks by owner, the newest first. -/
  blocks : List (Text × Span)
  deriving DecidableEq, Repr

namespace Emission

/-- Nothing written yet. -/
def start (sink : Sink) : Emission := ⟨sink, 0, false, []⟩

/-- Writes a text unless the sink refused before. -/
def write (e : Emission) (t : Text) : Emission :=
  if e.refused then e
  else
    let (sink, taken, refused) := e.sink.write t
    { e with sink, size := e.size + taken, refused }

/-- Writes an item with the newline that ends it. -/
def item (e : Emission) (it : Item) : Emission :=
  match it.kind with
  | .raw =>
    let span := ⟨e.size, e.size + it.text.length⟩
    let e := { e.write it.text with blocks := (it.owner, span) :: e.blocks }
    if it.text.endsWith "\n" then e else e.write "\n"
  | _ => (e.write it.render).write "\n"

/-- The span of the block that was last recorded for an owner. -/
def span? (e : Emission) (owner : Text) : Option Span :=
  e.blocks.lookup owner

end Emission

namespace Listing

/-- Writes a listing to a sink. -/
def emit (l : Listing) (sink : Sink) : Emission :=
  l.foldl Emission.item (.start sink)

/-- The whole text of a listing. -/
def render (l : Listing) : Text :=
  (l.emit .unlimited).sink.written

end Listing

end Pocket.Asm

import Pocket.Asm.Emit
import Pocket.Program.Listing
import Pocket.Token.Lexer

/-!
# Compilation

From source text to assembly text under one profile. The profile is checked first, and the first
fault of the source ends the compilation.
-/

namespace Pocket

open Asm

/-- The result of a successful compilation. -/
structure Output where
  program : Program
  listing : Listing
  /-- The listing as it was written to an unlimited sink. -/
  emission : Emission
  deriving DecidableEq, Repr

/-- Why there is no output. -/
inductive Refusal where
  | profile (flaw : Profile.Flaw)
  | source (fault : Fault)
  deriving DecidableEq, Repr

namespace Output

/-- The assembly text. -/
def text (o : Output) : Text :=
  o.emission.sink.written

/-- The emitted text of the raw body of a function. -/
def block? (o : Output) (name : Text) : Option Text :=
  (o.emission.span? name).map fun s => (o.text.drop s.first).take (s.last - s.first)

/-- Writes the assembly text to a sink in one piece: the sink afterwards, how many bytes it took, and
what went wrong. A sink that silently takes less counts as a failure, too. -/
def writeTo (o : Output) (sink : Sink) : Sink × Nat × Option Fault :=
  let (after, taken, refused) := sink.write o.text
  (after, taken,
    if refused then some (.emit (.refused Sink.refusal))
    else if taken < o.text.length then some (.emit .shortWrite)
    else none)

end Output

/-- Compiles a source text. -/
def compile (p : Profile) (source : Text) : Except Refusal Output := do
  match p.flaw? with
  | some flaw => .error (.profile flaw)
  | none =>
    let tokens ← source.lex.mapError .source
    let program ← (Program.ofTokens p tokens).mapError .source
    let listing ← (program.listing p).mapError .source
    .ok ⟨program, listing, listing.emit .unlimited⟩

end Pocket

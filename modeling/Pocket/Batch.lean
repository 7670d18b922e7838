import Pocket.Output

/-!
# Batches

Several sources compiled under one profile. The compilations share nothing, so that one failure does
not affect the others, and the results are in the order of the sources. A batch that is cancelled
before it begins compiles nothing.
-/

namespace Pocket

/-- A named source text. -/
structure Source where
  name : Text
  text : Text
  deriving DecidableEq, Repr

namespace Batch

/-- Why a source of a batch has no output. -/
inductive Trouble where
  | refused (r : Refusal)
  | cancelled
  deriving DecidableEq, Repr

/-- The wording of a trouble that no source is to blame for; a refusal has its own. -/
def Trouble.message : Trouble → Text
  | .refused (.profile flaw) => flaw.message
  | .refused (.source fault) => fault.report.message
  | .cancelled => "context canceled"

/-- What became of one source. -/
structure Result where
  name : Text
  outcome : Except Trouble Output

/-- Compiles one source of a batch. -/
def compileOne (p : Profile) (cancelled : Bool) (s : Source) : Result :=
  ⟨s.name, if cancelled then .error .cancelled else (compile p s.text).mapError .refused⟩

/-- Compiles every source of a batch. -/
def compileAll (p : Profile) (cancelled : Bool) (sources : List Source) : List Result :=
  sources.map (compileOne p cancelled)

end Batch

end Pocket

import Pocket.Target.Pattern
import Pocket.Text.Blank
import Pocket.Text.LowerCase
import Pocket.Text.Quoted

/-!
# Target profiles

A profile holds every target-specific word of the generated assembly: the dialect of the assembler
and the calling convention of the calculator.
-/

namespace Pocket

/-- The description of a target. -/
structure Profile where
  name : Text
  /-- Lines copied before and after the generated code. -/
  header : List Text
  footer : List Text
  /-- The function the program starts in, and the label it is emitted under. -/
  entry : Text
  startLabel : Text
  /-- The instructions that end the entry function. -/
  exit : List Text
  /-- The register that carries the one implicit argument of every call. -/
  accumulator : Text
  load : Text
  call : Text
  osCall : Text
  ret : Text
  /-- Mnemonics that leave a function for good when they stand without a condition. -/
  transfers : List Text
  /-- Patterns of the names that belong to the operating system. -/
  external : List Text
  /-- The external names that exist; consulted only if `strict`. -/
  symbols : List Text
  strict : Bool
  labelPrefix : Text
  comments : Bool
  stripUnused : Bool
  deriving DecidableEq, Repr

namespace Profile

/-- The profile of the TI-83 Plus and TI-84 Plus. -/
def standard : Profile where
  name := "ti83plus"
  header := [".nolist", "#include \"ti83plus.inc\"", ".list", ".org userMem-2",
    ".db t2ByteTok, tAsmCmp"]
  footer := [".end"]
  entry := "main"
  startLabel := "ProgramStart"
  exit := ["ret"]
  accumulator := "hl"
  load := "ld"
  call := "call"
  osCall := "b_call"
  ret := "ret"
  transfers := ["ret", "reti", "retn", "jp", "jr", "b_jump", "bjump"]
  external := ["_*"]
  symbols := []
  strict := false
  labelPrefix := []
  comments := true
  stripUnused := false

/-- Why a profile cannot be used. -/
inductive Flaw where
  | emptyField (key : Text)
  | badPattern (pattern : Text)
  deriving DecidableEq, Repr

/-- The wording of a flaw. -/
def Flaw.message : Flaw → Text
  | .emptyField key => "target profile: " ++ key ++ " must not be empty"
  | .badPattern pattern =>
    "target profile: bad external pattern " ++ pattern.quote ++ ": syntax error in pattern"

/-- The fields that must not be blank, with their keys. -/
def required (p : Profile) : List (Text × Text) :=
  [("entry", p.entry), ("start_label", p.startLabel), ("accumulator", p.accumulator),
   ("load", p.load), ("call", p.call), ("os_call", p.osCall), ("return", p.ret)]

/-- The first flaw of a profile: blank fields come before malformed patterns. -/
def flaw? (p : Profile) : Option Flaw :=
  match p.required.find? fun (_, value) => value.trim.isEmpty with
  | some (key, _) => some (.emptyField key)
  | none => (p.external.find? fun t => (Pattern.ofText? t).isNone).map .badPattern

/-- Whether some pattern fits a name. A malformed pattern fits none. -/
def matchesExternal (p : Profile) (name : Text) : Bool :=
  p.external.any fun t => (Pattern.ofText? t).any (·.fits name)

/-- Whether a name belongs to the operating system. -/
def isExternal (p : Profile) (name : Text) : Bool :=
  p.matchesExternal name && (!p.strict || p.symbols.contains name)

/-- Whether a mnemonic with so many operands always leaves the function: a return must have no
condition, and a jump nothing but its target. -/
def isTransfer (p : Profile) (mnemonic : Text) (operands : Int) : Bool :=
  let m := mnemonic.toLower
  if p.transfers.any (·.toLower = m) then
    if m = "ret" || m = "reti" || m = "retn" then operands == 0
    else if m = "jp" || m = "jr" then operands == 1
    else true
  else false

/-- The label of the function with a given name. -/
def label (p : Profile) (name : Text) : Text :=
  if name = p.entry then p.startLabel else p.labelPrefix ++ name

end Profile

end Pocket

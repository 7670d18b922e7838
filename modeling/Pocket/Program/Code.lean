import Pocket.Asm.Line
import Pocket.Asm.Listing
import Pocket.Program.Basic
import Pocket.Target.Profile

/-!
# Code of a function

A function becomes its label, its body and its exit. A statement loads the accumulator if it has a
value, and then calls. A raw body is copied; it gets an exit only if it can fall off its end.
-/

namespace Pocket

open Asm

namespace Profile

/-- Loads the accumulator. -/
def loadItem (p : Profile) (value : Word) : Item :=
  .instr false p.load [p.accumulator, value.render]

/-- Calls a function or a routine. -/
def callItem (p : Profile) (c : Call) : Item :=
  match c.target with
  | .external => .instr true p.osCall [c.callee]
  | _ => .instr false p.call [p.label c.callee]

/-- An instruction of the exit sequence, written in the profile as assembler text. -/
def exitItem (text : Text) : Item :=
  let line := Line.ofText 0 (indent ++ text)
  .instr line.parens line.mnemonic line.operands

/-- How the function with a given name ends: the entry with the exit sequence, any other with a
return. -/
def exitCode (p : Profile) (name : Text) : Listing :=
  if name = p.entry then p.exit.map exitItem else [.instr false p.ret []]

/-- Whether a raw text ends with an instruction that leaves the function. -/
def leaves (p : Profile) (text : Text) : Bool :=
  match lastInstruction? text with
  | some line => p.isTransfer line.mnemonic line.operands.length
  | none => false

end Profile

/-- The items of a statement, under a comment that shows it. -/
def Stmt.code (p : Profile) (s : Stmt) : Listing :=
  let remark := if p.comments then [Item.comment s.render] else []
  match s with
  | .call c =>
    remark ++ (if c.arg.isSome then [p.loadItem c.value] else []) ++ [p.callItem c]
  | .expr _ value _ => remark ++ [p.loadItem value]

namespace Decl

/-- The items of a body, with its exit. -/
def bodyCode (p : Profile) (d : Decl) : Listing :=
  match d.body with
  | .stmts ss => ss.flatMap (Stmt.code p) ++ p.exitCode d.name
  | .asm text _ => .raw d.name text :: if p.leaves text then [] else p.exitCode d.name

/-- The items of a function. -/
def code (p : Profile) (d : Decl) : Listing :=
  .label (p.label d.name) :: d.bodyCode p

end Decl

end Pocket

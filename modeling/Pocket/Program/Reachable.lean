import Pocket.Asm.Line
import Pocket.Program.Basic
import Pocket.Visited

/-!
# Reachable functions

A function mentions the functions it calls; a raw body mentions every name that is an operand of one
of its lines. The functions that can be reached from the entry along mentions are kept, in source
order.
-/

namespace Pocket

/-- The names a function may pass control to. -/
def Decl.mentions (d : Decl) : List Text :=
  match d.body with
  | .stmts _ => d.calls.map (·.callee)
  | .asm text _ => (Asm.readText text).flatMap (·.operands)

namespace Reachable

/-- The names among `known` that can be reached from `todo`, added to those already seen. -/
def closure (known : List Text) (mentions : Text → List Text) :
    List Text → List Text → List Text
  | [], seen => seen
  | name :: todo, seen =>
    if _h : name ∈ known ∧ name ∉ seen then
      closure known mentions (mentions name ++ todo) (name :: seen)
    else closure known mentions todo seen
termination_by todo seen => (unvisited known seen, todo.length)
decreasing_by
  · exact Prod.Lex.left _ _ (unvisited_cons_lt _h.1 _h.2)
  · exact Prod.Lex.right _ (by simp)

end Reachable

/-- The functions that can be reached from the entry, in source order. -/
def reachableDecls (decls : List Decl) (entry : Text) : List Decl :=
  let mentions (name : Text) : List Text :=
    match decls.find? (·.name = name) with
    | some d => d.mentions
    | none => []
  let kept := Reachable.closure (decls.map (·.name)) mentions [entry] []
  decls.filter fun d => kept.contains d.name

end Pocket

import Pocket.Token.Basic

/-!
# Constant expressions

Expressions over integer literals. Every node keeps its position: an operator node that of its
operator. Printing puts parentheses around every operator node.
-/

namespace Pocket

/-- The content of the accumulator: sixteen bits, read as a signed number. -/
abbrev Word := BitVec 16

/-- A constant expression. The parser builds only the operators of the grammar. -/
inductive Expr where
  | literal (value : Word) (text : Text) (pos : Position)
  | unary (op : Token.Kind) (right : Expr) (pos : Position)
  | binary (op : Token.Kind) (left right : Expr) (pos : Position)
  deriving DecidableEq, Repr

namespace Expr

/-- Where an expression stands: a literal at its first digit, any other at its operator. -/
def pos : Expr → Position
  | .literal _ _ p => p
  | .unary _ _ p => p
  | .binary _ _ _ p => p

/-- An expression with every operator node in parentheses. -/
def render : Expr → Text
  | .literal _ text _ => text
  | .unary op right _ => "(" ++ op.symbol ++ right.render ++ ")"
  | .binary op left right _ =>
    "(" ++ left.render ++ " " ++ op.symbol ++ " " ++ right.render ++ ")"

/-- An expression without its outermost parentheses. -/
def renderBare (e : Expr) : Text :=
  let t := e.render
  if t.startsWith "(" && t.endsWith ")" then t.tail.dropLast else t

end Expr

end Pocket

import Pocket.Expr.Basic
import Pocket.Fault
import Pocket.Text.Numeral

/-!
# Folding constant expressions

The value of an expression is computed with the sixteen bits of the accumulator: results wrap around
in two's complement, division and remainder go toward zero, and a right shift keeps the sign. The
only expressions without a value divide by zero or shift by a negative count. The first operator in
the order of evaluation that cannot be applied is the one that is reported.
-/

namespace Pocket

namespace Word

/-- The base of an integer literal and its digits. Leading zeros do not change the base. -/
def literalDigits (lexeme : Text) : Nat × Text :=
  match lexeme with
  | zero :: mark :: digits =>
    if zero = '0'.toUInt8 ∧ (mark = 'x'.toUInt8 ∨ mark = 'X'.toUInt8) then (16, digits)
    else if zero = '0'.toUInt8 ∧ (mark = 'b'.toUInt8 ∨ mark = 'B'.toUInt8) then (2, digits)
    else (10, lexeme)
  | _ => (10, lexeme)

/-- The sixteen bits that an integer literal stands for, if it fits. -/
def ofLiteral? (lexeme : Text) : Option Word :=
  let (base, digits) := literalDigits lexeme
  match Text.numeral? base digits with
  | some n => if n < 0x10000 then some (.ofNat 16 n) else none
  | none => none

/-- The signed number a word stands for, in decimal. -/
def render (w : Word) : Text :=
  .ofInt w.toInt

end Word

namespace Expr

/-- The value of a unary operator. -/
def foldUnary (op : Token.Kind) (v : Word) : Except EvalCause Word :=
  match op with
  | .minus => .ok (-v)
  | .plus => .ok v
  | .tilde => .ok (~~~v)
  | _ => .error (.unknownUnary op)

/-- The value of a binary operator. -/
def foldBinary (op : Token.Kind) (l r : Word) : Except EvalCause Word :=
  match op with
  | .plus => .ok (l + r)
  | .minus => .ok (l - r)
  | .star => .ok (l * r)
  | .slash => if r = 0 then .error .divisionByZero else .ok (l.sdiv r)
  | .percent => if r = 0 then .error .moduloByZero else .ok (l.srem r)
  | .amp => .ok (l &&& r)
  | .pipe => .ok (l ||| r)
  | .caret => .ok (l ^^^ r)
  | .shiftLeft => if r.toInt < 0 then .error .negativeShift else .ok (l <<< r.toNat)
  | .shiftRight => if r.toInt < 0 then .error .negativeShift else .ok (l.sshiftRight r.toNat)
  | _ => .error (.unknownBinary op)

/-- The value of an expression: operands first, from left to right. -/
def fold : Expr → Except Fault Word
  | .literal value _ _ => .ok value
  | .unary op right pos =>
    match right.fold with
    | .error e => .error e
    | .ok v => (foldUnary op v).mapError (.eval pos)
  | .binary op left right pos =>
    match left.fold with
    | .error e => .error e
    | .ok l =>
      match right.fold with
      | .error e => .error e
      | .ok r => (foldBinary op l r).mapError (.eval pos)

end Expr

end Pocket

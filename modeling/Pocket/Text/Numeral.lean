import Pocket.Text.Basic

/-!
# Numerals

Numbers as they are written: digits in some base, and the beginnings that tell the base.
-/

namespace Pocket.Text

/-- Whether a byte is a decimal digit. -/
def isDigitByte (b : UInt8) : Bool :=
  '0'.toUInt8 ≤ b && b ≤ '9'.toUInt8

/-- Whether a text consists of decimal digits, at least one. -/
def isDigits (t : Text) : Bool :=
  !t.isEmpty && t.all isDigitByte

/-- The value of a digit, or of a letter that is used as a digit. -/
def digitValue? (b : UInt8) : Option Nat :=
  if '0'.toUInt8 ≤ b ∧ b ≤ '9'.toUInt8 then some (b.toNat - '0'.toNat)
  else if 'a'.toUInt8 ≤ b ∧ b ≤ 'z'.toUInt8 then some (b.toNat - 'a'.toNat + 10)
  else if 'A'.toUInt8 ≤ b ∧ b ≤ 'Z'.toUInt8 then some (b.toNat - 'A'.toNat + 10)
  else none

/-- The number written by digits, continuing from `n`. -/
def numeralFrom? (base n : Nat) : Text → Option Nat
  | [] => some n
  | b :: digits =>
    match digitValue? b with
    | some d => if d < base then numeralFrom? base (n * base + d) digits else none
    | none => none

/-- The number written by one or more digits of a base. -/
def numeral? (base : Nat) (digits : Text) : Option Nat :=
  if digits.isEmpty then none else numeralFrom? base 0 digits

/-- The value of a number without sign, whose base its beginning tells: `0x`, `0o` or a bare `0`, and
`0b`. -/
def natural? (t : Text) : Option Nat :=
  match t with
  | [] => none
  | [b] => numeral? 10 [b]
  | a :: b :: rest =>
    if a = '0'.toUInt8 then
      let isBase (lower upper : Char) : Bool :=
        (b == lower.toUInt8 || b == upper.toUInt8) && !rest.isEmpty
      if isBase 'x' 'X' then numeral? 16 rest
      else if isBase 'o' 'O' then numeral? 8 rest
      else if isBase 'b' 'B' then numeral? 2 rest
      else numeral? 8 (b :: rest)
    else numeral? 10 t

/-- Whether a byte is a sign. -/
def isSign (b : UInt8) : Bool :=
  b == '+'.toUInt8 || b == '-'.toUInt8

/-- The text without the sign it may begin with. -/
def dropSign (t : Text) : Text :=
  match t with
  | [] => []
  | b :: rest => if isSign b then rest else t

/-- The value of an integer of 64 bits with or without a sign; `magnitude?` reads what stands behind the
sign. -/
def signed? (magnitude? : Text → Option Nat) (t : Text) : Option Int :=
  match t with
  | [] => none
  | b :: rest =>
    if b = '-'.toUInt8 then
      ((magnitude? rest).filter (· ≤ 0x8000000000000000)).map fun n => .neg (.ofNat n)
    else ((magnitude? (dropSign t)).filter (· < 0x8000000000000000)).map .ofNat

/-- The value of an integer of 64 bits with or without a sign, whose base its beginning tells. -/
def integer? (t : Text) : Option Int :=
  signed? natural? t

end Pocket.Text

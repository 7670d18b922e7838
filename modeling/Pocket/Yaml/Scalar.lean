import Pocket.Text.Numeral

/-!
# YAML scalars

A scalar is a text, written plain or in quotes. A plain one may mean something else than its text:
nothing, a truth value, a number or a date. A quoted one always means its text.
-/

namespace Pocket.Yaml

open Text (isDigitByte isDigits numeral? isSign dropSign)

/-- A scalar as it was written. -/
structure Scalar where
  plain : Bool
  text : Text
  deriving DecidableEq, Repr

/-! ### Words -/

/-- The plain scalars that mean nothing at all. -/
def nullWords : List Text :=
  ["", "~", "null", "Null", "NULL"]

/-- The plain scalars that mean true. -/
def trueWords : List Text :=
  ["y", "Y", "yes", "Yes", "YES", "true", "True", "TRUE", "on", "On", "ON"]

/-- The plain scalars that mean false. -/
def falseWords : List Text :=
  ["n", "N", "no", "No", "NO", "false", "False", "FALSE", "off", "Off", "OFF"]

/-- The plain scalars that mean a number without digits. -/
def numberWords : List Text :=
  [".nan", ".NaN", ".NAN", ".inf", ".Inf", ".INF", "+.inf", "+.Inf", "+.INF", "-.inf", "-.Inf",
   "-.INF"]

namespace Scalar

/-- Whether the scalar means nothing at all. -/
def isNull (s : Scalar) : Bool :=
  s.plain && nullWords.contains s.text

/-- The truth value that the scalar means. -/
def bool? (s : Scalar) : Option Bool :=
  if !s.plain then none
  else if trueWords.contains s.text then some true
  else if falseWords.contains s.text then some false
  else none

end Scalar

/-! ### Numbers -/

/-- The text without underscores, which may stand anywhere in a number. -/
def withoutUnderscores (t : Text) : Text :=
  t.filter (· != '_'.toUInt8)

/-- Whether a text consists of decimal digits, perhaps with single underscores between them. -/
def isSpacedDigits (t : Text) : Bool :=
  (Text.split '_'.toUInt8 t).all isDigits

/-- Whether a text is an integer of 64 bits; without a sign, an unsigned one is enough. The sign of a
binary number may also stand behind its beginning. -/
def isInteger (t : Text) : Bool :=
  t.integer?.isSome || t.natural?.any (· < 0x10000000000000000) ||
    (Text.after? "0b" t).any fun digits => (Text.signed? (numeral? 2) digits).isSome

/-- A decimal number without its sign: its digits, how many of them stand behind the point, and its
exponent, which is empty if there is none. -/
structure Decimal where
  digits : Text
  places : Nat
  exponent : Text

/-- The value of an exponent without its sign. From the fifth digit on it does not grow any more. -/
def exponentValue (digits : Text) : Nat :=
  digits.foldl (fun e b => if e < 10000 then e * 10 + (b.toNat - '0'.toNat) else e) 0

/-- The least number that is too large for a floating-point number of 64 bits. It lies half a step above
the largest one. -/
def floatLimit : Nat := (Nat.pow 2 54 - 1) * Nat.pow 2 970

/-- Whether a decimal number is small enough for a floating-point number of 64 bits. -/
def Decimal.isFinite (d : Decimal) : Bool :=
  let n := (numeral? 10 d.digits).getD 0
  let e := exponentValue (dropSign d.exponent)
  if d.exponent.head? == some '-'.toUInt8 then n < floatLimit * Nat.pow 10 (d.places + e)
  else n * Nat.pow 10 e < floatLimit * Nat.pow 10 d.places

/-- The exponent that a text is, without its letter; it may be missing. `areDigits` tells the digits it
may have, and `signed` whether it needs a sign. -/
def exponent? (signed : Bool) (areDigits : Text → Bool) (t : Text) : Option Text :=
  match t with
  | [] => some []
  | e :: rest =>
    if (e == 'e'.toUInt8 || e == 'E'.toUInt8) && (!signed || rest.head?.any isSign) &&
        areDigits (dropSign rest) then some rest
    else none

/-- Whether a text is a decimal number that is not too large: perhaps a sign, digits with at most one
point among or before them, and perhaps an exponent with a sign. -/
def isDecimal (t : Text) : Bool :=
  let body := dropSign t
  let whole := body.takeWhile isDigitByte
  match body.dropWhile isDigitByte with
  | [] => !whole.isEmpty && Decimal.isFinite ⟨whole, 0, []⟩
  | b :: rest =>
    if b = '.'.toUInt8 then
      let fraction := rest.takeWhile isDigitByte
      !fraction.isEmpty && (exponent? true isDigits (rest.dropWhile isDigitByte)).any fun e =>
        Decimal.isFinite ⟨whole ++ fraction, fraction.length, e⟩
    else
      !whole.isEmpty && (exponent? true isDigits (b :: rest)).any fun e =>
        Decimal.isFinite ⟨whole, 0, e⟩

/-- Whether a text is a fraction that begins with its point and is not too large. Underscores may stand
between digits only, and the exponent needs no sign. -/
def isFraction (t : Text) : Bool :=
  let isFiller (b : UInt8) : Bool := isDigitByte b || b == '_'.toUInt8
  match t with
  | [] => false
  | b :: rest =>
    let fraction := rest.takeWhile isFiller
    let digits := withoutUnderscores fraction
    b == '.'.toUInt8 && isSpacedDigits fraction &&
      (exponent? false isSpacedDigits (rest.dropWhile isFiller)).any fun e =>
        Decimal.isFinite ⟨digits, digits.length, withoutUnderscores e⟩

/-- Whether a text is one or two digits, of a number below sixty. -/
def isSexagesimalDigit (t : Text) : Bool :=
  isDigits t && (t.length == 1 || (t.length == 2 && t.head?.any (· ≤ '5'.toUInt8)))

/-- Whether a text is a number in base sixty, such as `190:20:30`. -/
def isSexagesimal (t : Text) : Bool :=
  let isFiller (b : UInt8) : Bool := isDigitByte b || b == '_'.toUInt8
  match Text.split ':'.toUInt8 (dropSign t) with
  | first :: (second :: more) =>
    let digits := second :: more
    let last := digits.getLast (by simp [digits])
    let (whole, fraction) := Text.cut '.'.toUInt8 last
    first.head?.any isDigitByte && first.all isFiller &&
      digits.dropLast.all isSexagesimalDigit && isSexagesimalDigit whole && fraction.all isFiller
  | _ => false

/-! ### Dates -/

/-- Cuts off a number of one or two digits. -/
def shortNumber? (t : Text) : Option (Nat × Text) :=
  match t.takeWhile isDigitByte with
  | [] => none
  | [a] => (numeral? 10 [a]).map (·, t.drop 1)
  | a :: b :: _ => (numeral? 10 [a, b]).map (·, t.drop 2)

/-- Cuts off one byte. -/
def mark? (c : Char) (t : Text) : Option Text :=
  Text.after? [c.toUInt8] t

/-- The number of days of a month. -/
def daysIn (year month : Nat) : Nat :=
  if month = 2 then
    if year % 4 = 0 && (year % 100 != 0 || year % 400 = 0) then 29 else 28
  else if month = 4 || month = 6 || month = 9 || month = 11 then 30
  else 31

/-- Cuts off a date: a year of four digits, a month and a day. -/
def date? (t : Text) : Option Text := do
  let year := t.takeWhile isDigitByte
  if year.length != 4 then none
  let (month, rest) ← shortNumber? (← mark? '-' (t.drop 4))
  let (day, rest) ← shortNumber? (← mark? '-' rest)
  let y ← numeral? 10 year
  if 1 ≤ month && month ≤ 12 && 1 ≤ day && day ≤ daysIn y month then some rest else none

/-- Cuts off a time of the day, perhaps with a fraction of a second. -/
def time? (t : Text) : Option Text := do
  let (hour, rest) ← shortNumber? t
  let (minute, rest) ← shortNumber? (← mark? ':' rest)
  let (second, rest) ← shortNumber? (← mark? ':' rest)
  if hour < 24 && minute < 60 && second < 60 then
    match rest with
    | point :: a :: more =>
      if (point == '.'.toUInt8 || point == ','.toUInt8) && isDigitByte a then
        some (more.dropWhile isDigitByte)
      else some rest
    | _ => some rest
  else none

/-- Whether a text is an offset from universal time. -/
def isOffset (t : Text) : Bool :=
  match t with
  | [z] => z == 'Z'.toUInt8
  | [sign, a, b, colon, c, d] =>
    isSign sign && colon == ':'.toUInt8 && isDigits [a, b, c, d] &&
      (numeral? 10 [a, b]).any (· ≤ 24) && (numeral? 10 [c, d]).any (· ≤ 60)
  | _ => false

/-- Whether a text is a date, perhaps with a time: after spaces without an offset, after a `T` with
one. -/
def isDate (t : Text) : Bool :=
  match date? t with
  | none => false
  | some [] => true
  | some (b :: rest) =>
    if b = ' '.toUInt8 then time? (rest.dropWhile (· == ' '.toUInt8)) == some []
    else if b = 'T'.toUInt8 || b = 't'.toUInt8 then (time? rest).any isOffset
    else false

/-! ### Meaning -/

/-- Whether a plain scalar of this text would mean the text itself. -/
def meansText (t : Text) : Bool :=
  if nullWords.contains t || trueWords.contains t || falseWords.contains t ||
      numberWords.contains t then false
  else match t with
    | [] => false
    | b :: _ =>
      if b = '.'.toUInt8 then !isFraction t
      else if isDigitByte b || isSign b then
        let digits := withoutUnderscores t
        !isDate t && !isInteger digits && !isDecimal digits && !isSexagesimal t
      else true

/-- Numbers and dates do not mean their text. -/
example : ([".5_0", ".5e1_0", "0b-1", "0b+1", "1_0", "1.5e+3", "1:30", "2001-1-1  1:1:1",
      "2001-1-1t1:1:1.1234567890Z"] : List Text).all (!meansText ·) = true := by
  decide +kernel

/-- What is only similar to a number, or too large for one, means its text. -/
example : (["._5", ".5_", ".5__0", "0b", "-0b+1", "1e+999", ".5e999", "1:60", "2001-2-29"] :
      List Text).all meansText = true := by
  decide +kernel

end Pocket.Yaml

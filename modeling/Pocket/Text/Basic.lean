/-!
# Text

A text is the list of bytes it is stored in. Nothing requires the bytes to be valid UTF-8: a source
file, a raw assembler block or a file name may hold any bytes, and they have to come out as they
went in. String literals of this library are read as their UTF-8 bytes.
-/

namespace Pocket

/-- A piece of text, byte by byte. -/
abbrev Text := List UInt8

namespace Text

/-- The UTF-8 bytes of a string. -/
def ofString (s : String) : Text :=
  s.toUTF8.data.toList

instance : Coe String Text := ⟨ofString⟩

/-! ### Splitting and joining -/

/-- The pieces between the occurrences of a byte; there is always at least one. -/
def split (sep : UInt8) : Text → List Text
  | [] => [[]]
  | b :: rest =>
    if b = sep then [] :: split sep rest
    else match split sep rest with
      | [] => [[b]]
      | piece :: pieces => (b :: piece) :: pieces

/-- The lines of a text: its pieces between newlines. -/
def lines (t : Text) : List Text :=
  t.split '\n'.toUInt8

/-- The pieces put together with a separator between them. -/
def join (sep : Text) (pieces : List Text) : Text :=
  sep.intercalate pieces

/-- What stands before and after the first occurrence of a byte, if there is one. -/
def cut? (sep : UInt8) (t : Text) : Option (Text × Text) :=
  match t.dropWhile (· != sep) with
  | [] => none
  | _ :: rest => some (t.takeWhile (· != sep), rest)

/-- Cuts at the first occurrence of a byte; without one, everything stands before it. -/
def cut (sep : UInt8) (t : Text) : Text × Text :=
  (t.cut? sep).getD (t, [])

/-- What follows the given beginning, if the text begins so. -/
def after? : Text → Text → Option Text
  | [], t => some t
  | _ :: _, [] => none
  | b :: start, c :: t => if b = c then after? start t else none

/-- Whether the text begins with `start`. -/
def startsWith (t start : Text) : Bool :=
  (after? start t).isSome

/-- Whether the text ends with `tail`. -/
def endsWith (t tail : Text) : Bool :=
  startsWith t.reverse tail.reverse

/-- The text without the given ending; unchanged if it does not end so. -/
def dropEnding (t tail : Text) : Text :=
  match after? tail.reverse t.reverse with
  | some rest => rest.reverse
  | none => t

/-- Every byte `old` replaced by `new`. -/
def replaceByte (old new : UInt8) (t : Text) : Text :=
  t.map fun b => if b = old then new else b

/-! ### Numbers -/

/-- A natural number in decimal digits. -/
def ofNat (n : Nat) : Text :=
  (Nat.toDigits 10 n).map Char.toUInt8

/-- An integer in decimal digits, after a minus sign if it is negative. -/
def ofInt : Int → Text
  | .ofNat n => ofNat n
  | .negSucc n => '-'.toUInt8 :: ofNat (n + 1)

/-- A natural number in lower-case hexadecimal, filled up with zeros to a width. -/
def ofHex (width n : Nat) : Text :=
  let digits := (Nat.toDigits 16 n).map Char.toUInt8
  List.replicate (width - digits.length) '0'.toUInt8 ++ digits

/-! ### Order -/

/-- Bytewise order: the first byte that differs decides, and a beginning comes first. -/
def before : Text → Text → Bool
  | [], [] => false
  | [], _ :: _ => true
  | _ :: _, [] => false
  | a :: s, b :: t => a < b || (a == b && before s t)

/-- The texts in bytewise order. -/
def sort (ts : List Text) : List Text :=
  ts.mergeSort fun a b => !before b a

/-- `n` spaces. -/
def spaces (n : Nat) : Text :=
  List.replicate n ' '.toUInt8

end Text

end Pocket

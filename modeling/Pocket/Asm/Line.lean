import Pocket.Text.Blank
import Pocket.Text.LowerCase

/-!
# Assembler lines

The shape of a line of assembler source: labels, a mnemonic and operands. Reading never fails; what
is not recognised counts as an instruction, so that the last instruction of any text can be found.
A label is a word before a colon, or a word at the very beginning of a line that is no directive.
-/

namespace Pocket.Asm

/-- The shape of one line. The mnemonic is in lower case, and empty on a line without one. -/
structure Line where
  number : Int
  labels : List Text
  mnemonic : Text
  operands : List Text
  /-- The operands stand in parentheses directly behind the mnemonic. -/
  parens : Bool
  deriving DecidableEq, Repr

/-- Whether a byte may begin the name of a label or a mnemonic. -/
def startsName (b : UInt8) : Bool :=
  b == '_'.toUInt8 || b == '.'.toUInt8 || ('a'.toUInt8 ≤ b && b ≤ 'z'.toUInt8) ||
    ('A'.toUInt8 ≤ b && b ≤ 'Z'.toUInt8)

/-- Whether a text is a name: letters, digits, underscores and points, no digit in front. -/
def isName : Text → Bool
  | [] => false
  | b :: rest =>
    startsName b && rest.all fun c => startsName c || ('0'.toUInt8 ≤ c && c ≤ '9'.toUInt8)

/-- Whether a line is an instruction to the assembler itself. -/
def isDirective (t : Text) : Bool :=
  t.startsWith "." || t.startsWith "#"

/-- A line without its comment. A semicolon between double quotes begins none. -/
def withoutComment (quoted : Bool) : Text → Text
  | [] => []
  | b :: rest =>
    if b = '"'.toUInt8 then b :: withoutComment (!quoted) rest
    else if b = ';'.toUInt8 ∧ !quoted then []
    else b :: withoutComment quoted rest

/-- The pieces of a text between its commas, those inside quotes or parentheses not counted.
`quote` is the quote being open and `depth` the number of open parentheses. -/
def splitArgs (quote : Option UInt8) (depth : Nat) : Text → List Text
  | [] => [[]]
  | b :: rest =>
    let (cut, quote, depth) : Bool × Option UInt8 × Nat :=
      match quote with
      | some q => (false, if b = q then none else some q, depth)
      | none =>
        if b = '"'.toUInt8 ∨ b = '\''.toUInt8 then (false, some b, depth)
        else if b = '('.toUInt8 then (false, none, depth + 1)
        else if b = ')'.toUInt8 then (false, none, depth - 1)
        else (b = ','.toUInt8 ∧ depth = 0, none, depth)
    let pieces := splitArgs quote depth rest
    if cut then [] :: pieces
    else match pieces with
      | [] => [[b]]
      | piece :: more => (b :: piece) :: more

/-- The operands of an instruction. -/
def operands (t : Text) : List Text :=
  let t := t.trim
  if t.isEmpty then [] else (splitArgs none 0 t).map Text.trim

/-- Takes the labels off a line that is split at its colons, and gives the rest of the line. -/
def takeLabels : List Text → List Text × Text
  | [] => ([], [])
  | [last] => ([], last.trim)
  | piece :: more =>
    let word := piece.trim
    if isName word then
      let (labels, rest) := takeLabels more
      (word :: labels, rest)
    else ([], (Text.join ":" (piece :: more)).trim)

/-- Takes a label without a colon off a line: its first word, if that is a name. -/
def takeWord (t : Text) : List Text × Text :=
  let (word, rest) := t.cut ' '.toUInt8
  if isName word then ([word], rest.trim) else ([], t)

/-- The mnemonic, the operands and whether these stand in parentheses. -/
def instruction (t : Text) : Text × List Text × Bool :=
  let (head, tail) := t.cut '('.toUInt8
  if isName head.trim && t.endsWith ")" && t.contains '('.toUInt8 &&
      !head.contains ' '.toUInt8 && !head.contains '\t'.toUInt8 then
    (head.toLower, operands tail.dropLast, true)
  else
    let (word, rest) := t.cut ' '.toUInt8
    match word.cut? '\t'.toUInt8 with
    | some (mnemonic, more) => (mnemonic.toLower, operands (more ++ " " ++ rest), false)
    | none => (word.toLower, operands rest, false)

/-- Reads one line. -/
def Line.ofText (number : Int) (raw : Text) : Line :=
  let code := withoutComment false raw
  let (labels, rest) := takeLabels (code.trim.split ':'.toUInt8)
  let (bare, rest) :=
    if labels.isEmpty && !code.startsWith " " && !code.startsWith "\t" && !isDirective rest
    then takeWord rest
    else ([], rest)
  let (mnemonic, operands, parens) := if rest.isEmpty then ([], [], false) else instruction rest
  ⟨number, labels ++ bare, mnemonic, operands, parens⟩

/-- Reads every line of a text. -/
def readText (t : Text) : List Line :=
  t.lines.mapIdx fun i raw => Line.ofText (i + 1) raw

/-- The last line of a text that carries an instruction. -/
def lastInstruction? (t : Text) : Option Line :=
  (readText t).reverse.find? fun l => !l.mnemonic.isEmpty

end Pocket.Asm

import Pocket.Text.Glyph
import Pocket.Text.Ranges
import Pocket.Yaml.Scalar

/-!
# Reading YAML

Documents whose top level is a mapping from scalars to scalars and lists of scalars, in block or flow
style, with comments. Deeper collections are recognised and passed over. Everything is read off the
text from the front: a reader returns what it has read together with the rest of the text, or nothing
if the text is malformed. Line breaks are newlines here; `Document.ofText?` sees to that.
-/

namespace Pocket.Yaml

open Text (isDigitByte digitValue? numeral?)

/-- The value of a key. -/
inductive Value where
  | scalar (s : Scalar)
  /-- A list; an item that is a collection itself is passed over. -/
  | list (items : List (Option Scalar))
  /-- A mapping. -/
  | nested
  deriving DecidableEq, Repr

/-- What stands where nothing is written. -/
def Scalar.missing : Scalar := ⟨true, []⟩

/-- A document. -/
inductive Document where
  /-- The text holds nothing but blanks and comments. -/
  | empty
  /-- The document means nothing at all. -/
  | null
  | mapping (entries : List (Text × Value))
  deriving DecidableEq, Repr

/-! ### Blanks -/

/-- Whether a byte is a space or a tab. -/
def isBlankByte (b : UInt8) : Bool :=
  b == ' '.toUInt8 || b == '\t'.toUInt8

/-- Whether a byte is a space, a tab or a newline. -/
def isGapByte (b : UInt8) : Bool :=
  isBlankByte b || b == '\n'.toUInt8

/-- Whether the text is at an end or before a gap. -/
def endsHere (t : Text) : Bool :=
  t.head?.all isGapByte

/-- What follows the line that the text begins in. -/
def nextLine (t : Text) : Text :=
  (t.dropWhile (· != '\n'.toUInt8)).drop 1

/-- Whether a line begins with the mark that starts or ends a document. -/
def atMarker (line : Text) : Bool :=
  (Text.startsWith line "---" || Text.startsWith line "...") && endsHere (line.drop 3)

theorem length_dropWhile_le (p : UInt8 → Bool) (t : Text) :
    (t.dropWhile p).length ≤ t.length :=
  List.IsSuffix.length_le (List.dropWhile_suffix _)

theorem length_nextLine_le (t : Text) : (nextLine t).length ≤ t.length := by
  have := length_dropWhile_le (· != '\n'.toUInt8) t
  simp only [nextLine, List.length_drop]
  omega

/-- Looks for the next content from the start of a line: its column and the text from there on, which
is empty at the end of the document. Blank lines and comments are passed over; a tab in front of the
content is malformed. -/
def content? (t : Text) : Option (Nat × Text) :=
  if atMarker t then some (0, [])
  else
    match _h : t.dropWhile (· == ' '.toUInt8) with
    | [] => some (0, [])
    | b :: rest =>
      if b = '\n'.toUInt8 then content? rest
      else if b = '#'.toUInt8 then content? (nextLine rest)
      else if b = '\t'.toUInt8 then none
      else some ((t.takeWhile (· == ' '.toUInt8)).length, b :: rest)
termination_by t.length
decreasing_by
  all_goals
    have h₁ := length_dropWhile_le (· == ' '.toUInt8) t
    have h₂ := length_nextLine_le rest
    rw [_h, List.length_cons] at h₁
    omega

/-- Passes over the rest of a line that may hold only blanks and a comment. -/
def endLine? (t : Text) : Option Text :=
  match t.dropWhile isBlankByte with
  | [] => some []
  | b :: rest =>
    if b = '\n'.toUInt8 then some rest
    else if b = '#'.toUInt8 then some (nextLine rest)
    else none

/-- Passes over the lines that are blank or indented deeper than a column. -/
def skipDeeper (column : Nat) (t : Text) : Text :=
  match _h : t.dropWhile (· == ' '.toUInt8) with
  | [] => []
  | b :: _ =>
    if b = '\n'.toUInt8 || column < (t.takeWhile (· == ' '.toUInt8)).length then
      skipDeeper column (nextLine t)
    else t
termination_by t.length
decreasing_by
  have h₁ := length_dropWhile_le (· == ' '.toUInt8) t
  have h₂ := length_dropWhile_le (· != '\n'.toUInt8) t
  rw [_h, List.length_cons] at h₁
  simp only [nextLine, List.length_drop]
  omega

/-! ### Scalars -/

/-- What a gap inside a scalar stands for: blanks for themselves, one line break for a space, and
several line breaks for one less. -/
def foldGap (gap : Text) : Text :=
  match gap.count '\n'.toUInt8 with
  | 0 => gap
  | 1 => " "
  | n + 2 => List.replicate (n + 1) '\n'.toUInt8

/-- Whether the text after a gap starts a new document. -/
def breaksOff (gap next : Text) : Bool :=
  gap.getLast? == some '\n'.toUInt8 && atMarker next

/-- Reads a scalar in single quotes, after the opening one. A quote inside is written twice. -/
def single? (t : Text) : Option (Text × Text) :=
  match t with
  | [] => none
  | b :: rest =>
    if b = '\''.toUInt8 then
      match rest with
      | [] => some ([], [])
      | c :: more =>
        if c = '\''.toUInt8 then (single? more).map fun (s, after) => (c :: s, after)
        else some ([], rest)
    else if isGapByte b then
      let gap := b :: rest.takeWhile isGapByte
      let next := rest.dropWhile isGapByte
      if breaksOff gap next then none
      else (single? next).map fun (s, after) => (foldGap gap ++ s, after)
    else (single? rest).map fun (s, after) => (b :: s, after)
termination_by t.length
decreasing_by
  · exact Nat.lt_succ_of_lt (Nat.lt_succ_self _)
  · exact Nat.lt_succ_of_le (length_dropWhile_le isGapByte rest)
  · exact Nat.lt_succ_self _

/-- The character that a single letter stands for after a backslash. -/
def escape? (b : UInt8) : Option Char :=
  match Char.ofUInt8 b with
  | '0' => some '\x00'
  | 'a' => some '\x07'
  | 'b' => some '\x08'
  | 't' => some '\t'
  | '\t' => some '\t'
  | 'n' => some '\n'
  | 'v' => some '\x0b'
  | 'f' => some '\x0c'
  | 'r' => some '\r'
  | 'e' => some '\x1b'
  | ' ' => some ' '
  | '"' => some '"'
  | '\'' => some '\''
  | '\\' => some '\\'
  | 'N' => some '\u0085'
  | '_' => some '\u00a0'
  | 'L' => some '\u2028'
  | 'P' => some '\u2029'
  | _ => none

/-- How many hexadecimal digits follow a letter after a backslash. -/
def escapeDigits (b : UInt8) : Nat :=
  match Char.ofUInt8 b with
  | 'x' => 2
  | 'u' => 4
  | 'U' => 8
  | _ => 0

/-- The character with a code that is written in hexadecimal. -/
def codedChar? (width : Nat) (digits : Text) : Option Char := do
  let n ← numeral? 16 digits
  if digits.length = width && n.isValidChar then some (Char.ofNat n) else none

/-- Reads a scalar in double quotes, after the opening one. -/
def double? (t : Text) : Option (Text × Text) :=
  match t with
  | [] => none
  | b :: rest =>
    if b = '"'.toUInt8 then some ([], rest)
    else if b = '\\'.toUInt8 then
      match rest with
      | [] => none
      | c :: more =>
        if c = '\n'.toUInt8 then
          let gap := more.takeWhile isGapByte
          let next := more.dropWhile isGapByte
          if breaksOff (c :: gap) next then none
          else (double? next).map fun (s, after) =>
            (List.replicate (gap.count '\n'.toUInt8) '\n'.toUInt8 ++ s, after)
        else match escape? c with
          | some char => (double? more).map fun (s, after) => (Text.ofChar char ++ s, after)
          | none =>
            if escapeDigits c = 0 then none
            else match codedChar? (escapeDigits c) (more.take (escapeDigits c)) with
              | none => none
              | some char => (double? (more.drop (escapeDigits c))).map fun (s, after) =>
                (Text.ofChar char ++ s, after)
    else if isGapByte b then
      let gap := b :: rest.takeWhile isGapByte
      let next := rest.dropWhile isGapByte
      if breaksOff gap next then none
      else (double? next).map fun (s, after) => (foldGap gap ++ s, after)
    else (double? rest).map fun (s, after) => (b :: s, after)
termination_by t.length
decreasing_by
  · exact Nat.lt_succ_of_le (Nat.le_succ_of_le (length_dropWhile_le isGapByte more))
  · exact Nat.lt_succ_of_lt (Nat.lt_succ_self _)
  · simp only [List.length_cons, List.length_drop]
    omega
  · exact Nat.lt_succ_of_le (length_dropWhile_le isGapByte rest)
  · exact Nat.lt_succ_self _

/-- Where a plain scalar stands, which tells where it ends. -/
inductive Plain where
  /-- As a key: it stays on its line. -/
  | key
  /-- In block style: further lines belong to it if they are indented at least so far. -/
  | block (indent : Nat)
  /-- In flow style: further lines belong to it, and the signs of the flow style end it. -/
  | flow
  deriving DecidableEq, Repr

/-- Whether a byte is one of the signs of the flow style that end a plain scalar. -/
def isFlowSign (b : UInt8) : Bool :=
  (",?[]\x7b\x7d" : Text).contains b

/-- The first stretch of a plain scalar without gaps. -/
def plainRun (flow : Bool) : Text → Text × Text
  | [] => ([], [])
  | b :: rest =>
    if isGapByte b || (b == ':'.toUInt8 && endsHere rest) || (flow && isFlowSign b) then
      ([], b :: rest)
    else
      let (run, after) := plainRun flow rest
      (b :: run, after)

/-- Whether every further line of a gap is indented far enough in front of its tabs. -/
def gapIndented (indent : Nat) (gap : Text) : Bool :=
  (Text.lines gap).tail.all fun line =>
    indent ≤ (line.takeWhile (· == ' '.toUInt8)).length || !line.contains '\t'.toUInt8

/-- Whether a plain scalar goes on after a gap. -/
def plainGoesOn (place : Plain) (gap next : Text) : Bool :=
  let column := (gap.reverse.takeWhile (· != '\n'.toUInt8)).length
  let broken := gap.contains '\n'.toUInt8
  !gap.isEmpty && next.head? != some '#'.toUInt8 && !(plainRun (place == .flow) next).1.isEmpty &&
    match place with
    | .key => !broken
    | .block indent =>
      !broken || (indent ≤ column && gapIndented indent gap && !breaksOff gap next)
    | .flow => !breaksOff gap next

/-- Reads a plain scalar. -/
def plain (place : Plain) (t : Text) : Text × Text :=
  let (run, after) := plainRun (place == .flow) t
  let gap := after.takeWhile isGapByte
  let next := after.dropWhile isGapByte
  if _h : next.length < t.length ∧ plainGoesOn place gap next then
    let (more, rest) := plain place next
    (run ++ foldGap gap ++ more, rest)
  else (run, after)
termination_by t.length
decreasing_by exact _h.1

/-- Whether a plain scalar may begin so. -/
def startsPlain (flow : Bool) (t : Text) : Bool :=
  match t with
  | [] => false
  | b :: rest =>
    if isGapByte b then false
    else if b = '-'.toUInt8 then !endsHere rest
    else if b = '?'.toUInt8 || b = ':'.toUInt8 then !flow && !endsHere rest
    else !(",[]\x7b\x7d#&*!|>'\"%@`" : Text).contains b

/-! ### Flow style -/

/-- Passes over blanks, line breaks and comments between the signs of the flow style. -/
def flowGap? (t : Text) : Option Text :=
  let gap := t.takeWhile isGapByte
  match _h : t.dropWhile isGapByte with
  | [] => some []
  | b :: rest =>
    if breaksOff gap (b :: rest) then none
    else if b = '#'.toUInt8 then flowGap? (nextLine rest)
    else some (b :: rest)
termination_by t.length
decreasing_by
  have h₁ := length_dropWhile_le isGapByte t
  have h₂ := length_nextLine_le rest
  rw [_h, List.length_cons] at h₁
  omega

/-- Reads a scalar in flow style. -/
def flowScalar? (t : Text) : Option (Scalar × Text) :=
  match t with
  | [] => none
  | b :: rest =>
    if b = '"'.toUInt8 then (double? rest).map fun (s, after) => (⟨false, s⟩, after)
    else if b = '\''.toUInt8 then (single? rest).map fun (s, after) => (⟨false, s⟩, after)
    else if startsPlain true t then
      let (s, after) := plain .flow t
      some (⟨true, s⟩, after)
    else none

/-- Passes over a collection in flow style. `closers` holds the signs that have to close it and the
collections around it, the innermost first. -/
def skipFlow? (closers : List UInt8) (t : Text) : Option Text :=
  match closers with
  | [] => some t
  | closer :: outer =>
    match flowGap? t with
    | none => none
    | some [] => none
    | some (b :: rest) =>
      let go (closers : List UInt8) (after : Text) : Option Text :=
        if _h : after.length < t.length then skipFlow? closers after else none
      if b = closer then go outer rest
      else if b = '['.toUInt8 then go (']'.toUInt8 :: closers) rest
      else if b = '\x7b'.toUInt8 then go ('\x7d'.toUInt8 :: closers) rest
      else if b = ','.toUInt8 || b = ':'.toUInt8 then go closers rest
      else match flowScalar? (b :: rest) with
        | none => none
        | some (_, after) => go closers after
termination_by t.length

/-- Reads a value in flow style that is not a list: a scalar, or a collection that is passed over. -/
def flowItem? (t : Text) : Option (Option Scalar × Text) :=
  match t with
  | [] => none
  | b :: rest =>
    if b = '['.toUInt8 then (skipFlow? [']'.toUInt8] rest).map (none, ·)
    else if b = '\x7b'.toUInt8 then (skipFlow? ['\x7d'.toUInt8] rest).map (none, ·)
    else (flowScalar? t).map fun (s, after) => (some s, after)

/-- Reads the items of a list in flow style, after the opening bracket or a comma. -/
def flowList? (t : Text) : Option (List (Option Scalar) × Text) := do
  let t' ← flowGap? t
  if t'.head? == some ']'.toUInt8 then some ([], t'.drop 1)
  else
    let (item, after) ← flowItem? t'
    let after ← flowGap? after
    -- A colon makes the item a mapping of a single pair.
    let (item, after) ←
      if after.head? == some ':'.toUInt8 then do
        let next ← flowGap? (after.drop 1)
        if next.head?.all isFlowSign && next.head? != some '['.toUInt8 &&
            next.head? != some '\x7b'.toUInt8 then some (none, next)
        else do
          let (_, after) ← flowItem? next
          some (none, ← flowGap? after)
      else some (item, after)
    if after.head? == some ']'.toUInt8 then some ([item], after.drop 1)
    else if after.head? == some ','.toUInt8 then
      if _h : (after.drop 1).length < t.length then
        let (items, rest) ← flowList? (after.drop 1)
        some (item :: items, rest)
      else none
    else none
termination_by t.length
decreasing_by all_goals exact _h

/-- Reads a value in flow style. -/
def flowValue? (t : Text) : Option (Value × Text) :=
  match t with
  | [] => none
  | b :: rest =>
    if b = '['.toUInt8 then (flowList? rest).map fun (items, after) => (.list items, after)
    else (flowItem? t).map fun (item, after) =>
      ((item.map Value.scalar).getD .nested, after)

/-- Reads the entries of a mapping in flow style, after the opening brace or a comma. -/
def flowMapping? (t : Text) : Option (List (Text × Value) × Text) := do
  let t' ← flowGap? t
  if t'.head? == some '\x7d'.toUInt8 then some ([], t'.drop 1)
  else
    let (key, after) ← flowScalar? t'
    let after ← flowGap? after
    let (value, after) ←
      if after.head? == some ':'.toUInt8 then do
        let next ← flowGap? (after.drop 1)
        if next.head? == some ','.toUInt8 || next.head? == some '\x7d'.toUInt8 then
          some (.scalar .missing, next)
        else do
          let (value, after) ← flowValue? next
          some (value, ← flowGap? after)
      else some (.scalar .missing, after)
    if after.head? == some '\x7d'.toUInt8 then some ([(key.text, value)], after.drop 1)
    else if after.head? == some ','.toUInt8 then
      if _h : (after.drop 1).length < t.length then
        let (entries, rest) ← flowMapping? (after.drop 1)
        some ((key.text, value) :: entries, rest)
      else none
    else none
termination_by t.length
decreasing_by all_goals exact _h

/-! ### Literal blocks -/

/-- What becomes of the line breaks at the end of a literal block. -/
inductive Chomp where
  | strip
  | clip
  | keep
  deriving DecidableEq, Repr

/-- Reads what may follow the bar of a literal block: a sign for its last line breaks and a digit for
its indentation, in either order. -/
def literalHeader (t : Text) : Chomp × Option Nat × Text :=
  let chomp? (b : UInt8) : Option Chomp :=
    if b = '-'.toUInt8 then some .strip else if b = '+'.toUInt8 then some .keep else none
  let digit? (b : UInt8) : Option Nat :=
    if isDigitByte b && b != '0'.toUInt8 then digitValue? b else none
  match t with
  | [] => (.clip, none, t)
  | a :: rest =>
    match chomp? a, digit? a with
    | some chomp, _ =>
      match rest.head?.bind digit? with
      | some n => (chomp, some n, rest.drop 1)
      | none => (chomp, none, rest)
    | none, some n =>
      match rest.head?.bind chomp? with
      | some chomp => (chomp, some n, rest.drop 1)
      | none => (.clip, some n, rest)
    | none, none => (.clip, none, t)

/-- Whether a line holds nothing but spaces. -/
def isBlankLine (line : Text) : Bool :=
  line.all (· == ' '.toUInt8)

/-- The number of spaces that a line begins with. -/
def indentation (line : Text) : Nat :=
  (line.takeWhile (· == ' '.toUInt8)).length

/-- Reads a literal block after its bar; its lines are indented deeper than `column`. -/
def literal? (column : Nat) (t : Text) : Option (Text × Text) := do
  let (chomp, explicit, rest) := literalHeader t
  let body ← endLine? rest
  let lines := Text.lines body
  let first := lines.dropWhile isBlankLine
  let leading := (lines.takeWhile isBlankLine).map indentation
  let found := (first.head?.map indentation).getD 0
  let indent := match explicit with
    | some n => column + n
    | none => (leading.foldl max found).max (column + 1)
  let belongs (line : Text) : Bool :=
    indent ≤ indentation line || (isBlankLine line && indentation line < indent)
  let block := lines.takeWhile belongs
  let after := lines.drop block.length
  -- The piece after the last line break of the text is no line.
  let ended := !after.isEmpty || block.getLast? == some []
  let kept := if after.isEmpty && ended then block.dropLast else block
  let texts := kept.map (List.drop indent)
  let trailing := (texts.reverse.takeWhile (·.isEmpty)).length
  let core := Text.join "\n" (texts.take (texts.length - trailing))
  let breaks := match chomp with
    | .strip => 0
    | .clip => if core.isEmpty || (trailing = 0 && !ended) then 0 else 1
    | .keep => if core.isEmpty then trailing else if ended then trailing + 1 else trailing
  some (core ++ List.replicate breaks '\n'.toUInt8, Text.join "\n" after)

/-! ### Block style -/

/-- Whether the text begins with the dash of a list item. -/
def atItem (t : Text) : Bool :=
  t.head? == some '-'.toUInt8 && endsHere (t.drop 1)

/-- Reads a key and the colon after it, all on one line. -/
def key? (t : Text) : Option (Text × Text) := do
  let (key, after) ← match t with
    | [] => none
    | b :: rest =>
      if b = '"'.toUInt8 then double? rest
      else if b = '\''.toUInt8 then single? rest
      else if startsPlain false t then some (plain .key t)
      else none
  let read := t.take (t.length - after.length)
  match after.dropWhile isBlankByte with
  | [] => none
  | b :: rest =>
    if b = ':'.toUInt8 && endsHere rest && !read.contains '\n'.toUInt8 then some (key, rest)
    else none

/-- Reads a value that begins on this line inside a collection at a column, up to the end of its last
line. -/
def inlineValue? (column : Nat) (t : Text) : Option (Value × Text) :=
  let scalar (isPlain : Bool) (read : Option (Text × Text)) : Option (Value × Text) := do
    let (s, after) ← read
    some (.scalar ⟨isPlain, s⟩, ← endLine? after)
  match t with
  | [] => none
  | b :: rest =>
    if b = '"'.toUInt8 then scalar false (double? rest)
    else if b = '\''.toUInt8 then scalar false (single? rest)
    else if b = '['.toUInt8 || b = '\x7b'.toUInt8 then do
      let (value, after) ← flowValue? t
      some (value, ← endLine? after)
    else if b = '|'.toUInt8 then
      (literal? column rest).map fun (s, after) => (.scalar ⟨false, s⟩, after)
    else if startsPlain false t then scalar true (some (plain (.block (column + 1)) t))
    else none

/-- Reads a value whose lines are indented deeper than a column, from its first content on. Block
collections are passed over. -/
def deeperValue? (column : Nat) (t : Text) : Option (Value × Text) :=
  if atItem t || (key? t).isSome then some (.nested, skipDeeper column (nextLine t))
  else inlineValue? column t

/-- Reads one item of a block list at a column, after its dash, up to the start of a line. -/
def blockItem? (column : Nat) (t : Text) : Option (Option Scalar × Text) :=
  let item (value : Value) : Option Scalar :=
    match value with
    | .scalar s => some s
    | _ => none
  match t.dropWhile (· == ' '.toUInt8) with
  | [] => some (some .missing, [])
  | b :: rest =>
    if b = '\n'.toUInt8 || b = '#'.toUInt8 then do
      let line := if b = '\n'.toUInt8 then rest else nextLine rest
      let (found, body) ← content? line
      if column < found then
        let (value, after) ← deeperValue? column body
        some (item value, after)
      else some (some .missing, line)
    else do
      let (value, after) ← deeperValue? column (b :: rest)
      some (item value, after)

/-- Reads the items of a block list at a column, from the start of a line on. A list that is the value
of a key in the same column ends where the next key begins. -/
def blockList? (column : Nat) (shared : Bool) (t : Text) :
    Option (List (Option Scalar) × Text) := do
  let (found, body) ← content? t
  if body.isEmpty || found < column then some ([], t)
  else if found = column && atItem body then
    let (item, after) ← blockItem? column (body.drop 1)
    if _h : after.length < t.length then
      let (items, rest) ← blockList? column shared after
      some (item :: items, rest)
    else none
  else if found = column && shared then some ([], t)
  else none
termination_by t.length

/-- Reads the value of a key at a column, after the colon, up to the start of a line. -/
def blockValue? (column : Nat) (t : Text) : Option (Value × Text) :=
  match t.dropWhile isBlankByte with
  | [] => some (.scalar .missing, [])
  | b :: rest =>
    if b = '\n'.toUInt8 || b = '#'.toUInt8 then do
      let line := if b = '\n'.toUInt8 then rest else nextLine rest
      let (found, body) ← content? line
      if column ≤ found && atItem body then
        let (items, after) ← blockList? found (found == column) line
        some (.list items, after)
      else if column < found then deeperValue? column body
      else some (.scalar .missing, line)
    else inlineValue? column (b :: rest)

/-- Reads the entries of a block mapping at a column, from the start of a line on. -/
def blockMapping? (column : Nat) (t : Text) : Option (List (Text × Value)) := do
  let (found, body) ← content? t
  if body.isEmpty then some []
  else if found = column then
    let (key, after) ← key? body
    let (value, rest) ← blockValue? column after
    if _h : rest.length < t.length then
      let entries ← blockMapping? column rest
      some ((key, value) :: entries)
    else none
  else none
termination_by t.length

/-! ### Documents -/

/-- The code points that may stand in a document. -/
def allowedRanges : Ranges :=
  [(0x09, 0x0A), (0x0D, 0x0D), (0x20, 0x7E), (0x85, 0x85), (0xA0, 0xD7FF), (0xE000, 0xFEFE),
   (0xFF00, 0xFFFD), (0x10000, 0x10FFFF)]

/-- Whether a glyph may stand in a document. -/
def isAllowed (g : Glyph) : Bool :=
  !g.isIllFormed && allowedRanges.contains g.char.toNat

/-- The text of some glyphs with every kind of line break written as a newline. -/
def withNewlines : List Glyph → Text
  | [] => []
  | g :: rest =>
    if g.char = '\r' then
      match rest with
      | h :: more => if h.char = '\n' then '\n'.toUInt8 :: withNewlines more
        else '\n'.toUInt8 :: withNewlines (h :: more)
      | [] => ['\n'.toUInt8]
    else if g.char = '\u0085' || g.char = '\u2028' || g.char = '\u2029' then
      '\n'.toUInt8 :: withNewlines rest
    else g.bytes ++ withNewlines rest

/-- Reads a document from its first content on; `line` is the text from the start of that line. -/
def document? (line : Text) (column : Nat) (body : Text) : Option Document :=
  if body.head? == some '\x7b'.toUInt8 then do
    let (entries, after) ← flowMapping? (body.drop 1)
    let (_, rest) ← content? (← endLine? after)
    if rest.isEmpty then some (.mapping entries) else none
  else if (key? body).isSome then (blockMapping? column line).map .mapping
  else match inlineValue? 0 body with
    | some (.scalar s, after) =>
      if s.isNull && (content? after).any (·.2.isEmpty) then some .null else none
    | _ => none

/-- The text from its first line on that is neither blank nor a comment. -/
def firstLine (t : Text) : Text :=
  match _h : t.dropWhile (· == ' '.toUInt8) with
  | [] => []
  | b :: rest =>
    if b = '\n'.toUInt8 then firstLine rest
    else if b = '#'.toUInt8 then firstLine (nextLine rest)
    else t
termination_by t.length
decreasing_by
  all_goals
    have h₁ := length_dropWhile_le (· == ' '.toUInt8) t
    have h₂ := length_nextLine_le rest
    rw [_h, List.length_cons] at h₁
    omega

/-- The text without the mark of byte order it may begin with. -/
def dropByteOrderMark (glyphs : List Glyph) : List Glyph :=
  match glyphs with
  | [] => []
  | g :: rest => if g.char = '\ufeff' then rest else glyphs

/-- Reads the first document of a text. -/
def Document.ofText? (t : Text) : Option Document :=
  let glyphs := dropByteOrderMark t.glyphs
  let line := firstLine (withNewlines glyphs)
  if !glyphs.all isAllowed then none
  else if line.isEmpty then some .empty
  else if !atMarker line then do
    let (column, body) ← content? line
    document? line column body
  else if !Text.startsWith line "-" then some .null
  else match endLine? (line.drop 3) with
    | some line => do
      let (column, body) ← content? line
      if body.isEmpty then some .null else document? line column body
    | none =>
      -- No key may follow the mark on its line.
      let body := (line.drop 3).dropWhile isBlankByte
      if (key? body).isSome then none else document? body 0 body

end Pocket.Yaml

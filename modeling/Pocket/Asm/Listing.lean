import Pocket.Text.Basic

/-!
# Listings

The generated assembly as a sequence of items, one line each. The exception is a raw block, which
may hold many lines and is written byte for byte.
-/

namespace Pocket.Asm

/-- What an item is. Kinds are numbered from zero in the order given here; `other` stands for a
number beyond the list. -/
inductive Kind where
  | directive
  | label
  | instr
  | raw
  | comment
  | blank
  | other (code : Int)
  deriving DecidableEq, Repr

namespace Kind

/-- The kind with a given number. -/
def ofCode : Int → Kind
  | 0 => .directive
  | 1 => .label
  | 2 => .instr
  | 3 => .raw
  | 4 => .comment
  | 5 => .blank
  | code => .other code

/-- The name of a kind. -/
def name : Kind → Text
  | .directive => "directive"
  | .label => "label"
  | .instr => "instr"
  | .raw => "raw"
  | .comment => "comment"
  | .blank => "blank"
  | .other code => "Kind(" ++ .ofInt code ++ ")"

end Kind

/-- An item of a listing. -/
structure Item where
  kind : Kind
  /-- The directive, label name, raw block or comment. -/
  text : Text := []
  /-- The mnemonic of an instruction and its arguments. -/
  op : Text := []
  args : List Text := []
  /-- The arguments are written in parentheses directly behind the mnemonic. -/
  parens : Bool := false
  /-- The function a raw block belongs to. -/
  owner : Text := []
  deriving DecidableEq, Repr

/-- What stands in front of every generated instruction. -/
def indent : Text := "    "

namespace Item

/-- A line copied as it is. -/
def directive (text : Text) : Item := { kind := .directive, text }

/-- A label. -/
def label (name : Text) : Item := { kind := .label, text := name }

/-- An instruction; with `parens`, one written like a call. -/
def instr (parens : Bool) (op : Text) (args : List Text) : Item :=
  { kind := .instr, op, args, parens }

/-- A verbatim block of a function. -/
def raw (owner text : Text) : Item := { kind := .raw, text, owner }

/-- A comment line. -/
def comment (text : Text) : Item := { kind := .comment, text }

/-- An empty line. -/
def blank : Item := { kind := .blank }

/-- An item as it is written, without the newline at its end. -/
def render (it : Item) : Text :=
  match it.kind with
  | .directive => it.text
  | .label => it.text ++ ":"
  | .instr =>
    let args := Text.join ", " it.args
    if it.parens then indent ++ it.op ++ "(" ++ args ++ ")"
    else if it.args.isEmpty then indent ++ it.op
    else indent ++ it.op ++ " " ++ args
  | .raw => it.text.dropEnding "\n"
  | .comment => indent ++ "; " ++ it.text
  | .blank => []
  | .other _ => []

end Item

/-- The items of an assembly text, in order. -/
abbrev Listing := List Item

/-- The instructions of a listing. -/
def Listing.instructions (l : Listing) : List Item :=
  l.filter (·.kind == .instr)

end Pocket.Asm

import Pocket.Text.Numeral

/-!
# Flags

Flags stand in front of the other arguments: `-name` or `--name`, with a value after an equals sign or
in the next argument. The first argument that is no flag ends them, and so does a bare `--`.
-/

namespace Pocket

/-- What a flag takes. -/
inductive FlagKind where
  | switch
  | text
  | number
  deriving DecidableEq, Repr

/-- A flag: its name, its short form if it has one, and what it takes. -/
structure Flag where
  name : Text
  short : Option Text
  kind : FlagKind
  deriving DecidableEq, Repr

namespace Flag

/-- Why arguments cannot be understood. -/
inductive Misuse where
  | badSyntax (arg : Text)
  | unknown (name : Text)
  | noValue (name : Text)
  | badValue (name value : Text)
  deriving DecidableEq, Repr

/-- The wording of a misuse. -/
def Misuse.message : Misuse → Text
  | .badSyntax arg => "bad flag syntax: " ++ arg
  | .unknown name => "flag provided but not defined: -" ++ name
  | .noValue name => "flag needs an argument: -" ++ name
  | .badValue name value => "invalid value " ++ value ++ " for flag -" ++ name

/-- Whether a flag goes by a name. -/
def isNamed (f : Flag) (name : Text) : Bool :=
  f.name = name || f.short = some name

/-- The words that turn a switch on. -/
def onWords : List Text := ["1", "t", "T", "true", "TRUE", "True"]

/-- The words that turn a switch off. -/
def offWords : List Text := ["0", "f", "F", "false", "FALSE", "False"]

/-- Whether a flag can take a value. -/
def admits (f : Flag) (value : Text) : Bool :=
  match f.kind with
  | .switch => onWords.contains value || offWords.contains value
  | .text => true
  | .number => (Text.integer? value).isSome

/-- What stands after the dashes of an argument; nothing if it is no flag. -/
def body? (arg : Text) : Option Text :=
  match arg with
  | a :: b :: rest =>
    if a != '-'.toUInt8 then none
    else if b = '-'.toUInt8 then some rest
    else some (b :: rest)
  | _ => none

/-- The flags given by their names, with their values, in the order of the arguments. -/
abbrev Given := List (Text × Text)

/-- Splits arguments into the flags in front and the rest. -/
def parse (flags : List Flag) : List Text → Except Misuse (Given × List Text)
  | [] => .ok ([], [])
  | arg :: rest =>
    match body? arg with
    | none => .ok ([], arg :: rest)
    | some [] => .ok ([], rest)
    | some body =>
      let name := body.takeWhile (· != '='.toUInt8)
      let value := Text.cut? '='.toUInt8 body
      if name.isEmpty || body.head? == some '-'.toUInt8 then .error (.badSyntax arg)
      else match flags.find? (·.isNamed name) with
        | none => .error (.unknown name)
        | some f =>
          let give (value : Text) (others : Except Misuse (Given × List Text)) :
              Except Misuse (Given × List Text) :=
            if f.admits value then
              others.map fun (given, left) => ((f.name, value) :: given, left)
            else .error (.badValue name value)
          match value, f.kind with
          | some (_, v), _ => give v (parse flags rest)
          | none, .switch => give "true" (parse flags rest)
          | none, _ => match rest with
            | [] => .error (.noValue name)
            | v :: more => give v (parse flags more)

namespace Given

/-- The value of a flag; of several the last counts. -/
def text (g : Given) (name : Text) : Text :=
  (List.lookup name g.reverse).getD []

/-- All values of a flag. -/
def texts (g : Given) (name : Text) : List Text :=
  (g.filter (·.1 = name)).map (·.2)

/-- Whether a switch is on. -/
def isOn (g : Given) (name : Text) : Bool :=
  onWords.contains (text g name)

end Given

end Flag

end Pocket

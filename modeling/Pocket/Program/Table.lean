import Pocket.Program.Basic
import Pocket.Target.Profile

/-!
# Declaration tables

The functions declared so far, in source order, and the operating-system routines called so far, each
with the place of its first call. No two functions share a name, and no function other than the entry
takes the label that the entry is emitted under. An operation that fails leaves the table as it was.
-/

namespace Pocket

/-- Declared functions and called routines under one profile. -/
structure DeclTable where
  profile : Profile
  decls : List Decl
  /-- Called routines with the places of their first calls, in the order of these. -/
  externals : List (Text × Position)
  deriving DecidableEq, Repr

namespace DeclTable

/-- The table without entries. -/
def empty (profile : Profile) : DeclTable := ⟨profile, [], []⟩

/-- The function with a given name. -/
def lookup? (t : DeclTable) (name : Text) : Option Decl :=
  t.decls.find? (·.name = name)

/-- Adds a function. -/
def declare (t : DeclTable) (d : Decl) : Except Fault DeclTable :=
  match t.lookup? d.name with
  | some first => .error (.parse d.pos (.redeclared d.name first.pos))
  | none =>
    let p := t.profile
    if d.name ≠ p.entry ∧ p.label d.name = p.startLabel then
      .error (.parse d.pos (.labelTaken d.name p.startLabel p.entry))
    else
      .ok { t with decls := t.decls ++ [d] }

/-- Finds out what a called name stands for. A declared function comes before a routine. -/
def resolve (t : DeclTable) (name : Text) (pos : Position) : Except Fault (Binding × DeclTable) :=
  if (t.lookup? name).isSome then .ok (.declared, t)
  else if t.profile.isExternal name then
    .ok (.external,
      if (t.externals.lookup name).isSome then t
      else { t with externals := t.externals ++ [(name, pos)] })
  else
    .error (.parse pos (.undeclared name (t.profile.strict && !t.profile.symbols.isEmpty)))

/-- The names of the called routines in bytewise order. -/
def externalNames (t : DeclTable) : List Text :=
  Text.sort (t.externals.map (·.1))

/-- Where a routine was first called. -/
def externalPos? (t : DeclTable) (name : Text) : Option Position :=
  t.externals.lookup name

/-- The line that shows a function. -/
def functionLine (d : Decl) : Text :=
  "  " ++ d.name.padRight 20 ++ "  " ++ d.convention.name.padRight 6 ++ "  " ++ d.returns.padRight 5 ++
    "  at " ++ d.pos.render ++ "\n"

/-- The line that shows a routine and where it was first called. -/
def routineLine (name : Text) (pos : Position) : Text :=
  "  " ++ name.padRight 20 ++ "  first call at " ++ pos.render ++ "\n"

/-- The table as text, names in bytewise order. -/
def render (t : DeclTable) : Text :=
  let function (name : Text) : Text := ((t.lookup? name).map functionLine).getD []
  let routine (name : Text) : Text := ((t.externalPos? name).map (routineLine name)).getD []
  let functions : Text :=
    if t.decls.isEmpty then "Functions: (empty)\n"
    else "Functions:\n" ++ ((Text.sort (t.decls.map (·.name))).flatMap function : Text)
  let routines : Text :=
    if t.externals.isEmpty then "" else "Externals:\n" ++ (t.externalNames.flatMap routine : Text)
  functions ++ routines

end DeclTable

end Pocket

import Pocket.Expr.Fold

/-!
# Programs

A program is a list of functions without parameters. The body of a function is a sequence of
statements or one block of raw assembly. A statement computes a constant into the accumulator or
calls a function, whose one argument travels in the accumulator.
-/

namespace Pocket

/-- What the name in a call stands for. -/
inductive Binding where
  | unresolved
  /-- A function of this program. -/
  | declared
  /-- A routine of the operating system. -/
  | external
  deriving DecidableEq, Repr

namespace Binding

/-- The binding with a given number. -/
def ofCode : Int → Binding
  | 1 => .declared
  | 2 => .external
  | _ => .unresolved

/-- The name of a binding. -/
def name : Binding → Text
  | .unresolved => "unresolved"
  | .declared => "local"
  | .external => "external"

end Binding

/-- How the body of a function is turned into code: a sequence of calls, or a block copied as it
is. -/
inductive Convention where
  | normal
  | raw
  deriving DecidableEq, Repr

namespace Convention

/-- The convention with a given number. -/
def ofCode : Int → Convention
  | 1 => .raw
  | _ => .normal

/-- The name of a convention. -/
def name : Convention → Text
  | .normal => "normal"
  | .raw => "raw"

end Convention

/-- A call of a function. Without an argument the accumulator keeps what it holds, and `value` is
zero. -/
structure Call where
  callee : Text
  arg : Option Expr
  value : Word
  target : Binding
  pos : Position
  deriving DecidableEq, Repr

/-- A statement: a call, or a constant left in the accumulator. -/
inductive Stmt where
  | call (c : Call)
  | expr (e : Expr) (value : Word) (pos : Position)
  deriving DecidableEq, Repr

/-- A call as it is written. -/
def Call.render (c : Call) : Text :=
  match c.arg with
  | none => c.callee ++ "()"
  | some e => c.callee ++ "(" ++ e.renderBare ++ ")"

namespace Stmt

/-- Where a statement begins. -/
def pos : Stmt → Position
  | .call c => c.pos
  | .expr _ _ p => p

/-- The value a statement loads; zero for a call without an argument. -/
def value : Stmt → Word
  | .call c => c.value
  | .expr _ v _ => v

/-- A statement as it is written, without the semicolon. -/
def render : Stmt → Text
  | .call c => c.render
  | .expr e _ _ => e.renderBare

end Stmt

/-- The body of a function. -/
inductive Body where
  | stmts (ss : List Stmt)
  /-- A raw block: its text and where that begins. -/
  | asm (text : Text) (pos : Position)
  deriving DecidableEq, Repr

/-- A function. The return type is accepted and never checked. -/
structure Decl where
  name : Text
  returns : Text
  body : Body
  /-- The position of the name. -/
  pos : Position
  deriving DecidableEq, Repr

namespace Decl

/-- How the body of a function is turned into code. -/
def convention (d : Decl) : Convention :=
  match d.body with
  | .stmts _ => .normal
  | .asm _ _ => .raw

/-- The calls of a function in source order. -/
def calls (d : Decl) : List Call :=
  match d.body with
  | .stmts ss => ss.filterMap fun
    | .call c => some c
    | .expr .. => none
  | .asm _ _ => []

/-- A function in one line. -/
def describe (d : Decl) : Text :=
  "FunctionDecl(" ++ d.returns ++ " " ++ d.name ++
    match d.body with
    | .stmts ss => ", " ++ .ofNat ss.length ++ " stmts)"
    | .asm text _ => ", raw, " ++ .ofNat text.length ++ " bytes)"

end Decl

end Pocket

import Pocket.Proofs.Trees

/-!
# Running a program

What a program does, told from its functions. All that can be seen from outside is when control passes
to a raw block or to a routine, and with which accumulator. How deep calls may nest is limited; a run
that needs more is cut off there, so a run that never ends is the limit of its cuts.
-/

namespace Pocket

namespace Execution

/-- Control passes to a raw block or a routine, with an accumulator. -/
structure Event where
  routine : Text
  accumulator : Word
  deriving DecidableEq, Repr

/-- The accumulator with which raw blocks and routines return, by everything that happened up to
then. -/
abbrev World := List Event → Word

/-- How far a run has come: the events, oldest first, and the accumulator. -/
structure State where
  events : List Event
  accumulator : Word
  deriving DecidableEq, Repr

namespace State

/-- Nothing has happened yet. -/
def start (accumulator : Word) : State := ⟨[], accumulator⟩

/-- Another value in the accumulator. -/
def load (s : State) (value : Word) : State := { s with accumulator := value }

/-- Control passes to a raw block or a routine and comes back. -/
def visit (w : World) (name : Text) (s : State) : State :=
  let events := s.events ++ [⟨name, s.accumulator⟩]
  ⟨events, w events⟩

theorem events_visit (w : World) (name : Text) (s : State) : s.events <+: (s.visit w name).events :=
  List.prefix_append _ _

end State

/-- How a run ends: it returns, it is cut off because calls nest too deeply, or it comes to an
expression without a value. -/
inductive Outcome where
  | done (s : State)
  | cut (s : State)
  | stuck (s : State)
  deriving DecidableEq, Repr

namespace Outcome

/-- How far a run came. -/
def state : Outcome → State
  | .done s | .cut s | .stuck s => s

/-- Goes on after a return. -/
def andThen (o : Outcome) (next : State → Outcome) : Outcome :=
  match o with
  | .done s => next s
  | .cut s => .cut s
  | .stuck s => .stuck s

end Outcome

/-- Puts the value of the expression of a statement into the accumulator; without an expression the
accumulator keeps what it holds. -/
def loadExpr (stmt : Stmt) (s : State) : Outcome :=
  match stmt.expr? with
  | none => .done s
  | some e =>
    match e.fold with
    | .ok value => .done (s.load value)
    | .error _ => .stuck s

/-- Runs statements in order, given what calls do. -/
def runStmts (call : Text → State → Outcome) : List Stmt → State → Outcome
  | [], s => .done s
  | stmt :: stmts, s =>
    (loadExpr stmt s).andThen fun s =>
      match stmt.call? with
      | some c => (call c.callee s).andThen (runStmts call stmts)
      | none => runStmts call stmts s

/-- Runs what a name stands for: the function of that name if it has statements, and otherwise a raw
block or a routine. -/
def run (w : World) (decls : List Decl) : Nat → Text → State → Outcome
  | 0, _, s => .cut s
  | depth + 1, name, s =>
    match (decls.find? (·.name = name)).map Decl.body with
    | some (.stmts stmts) => runStmts (run w decls depth) stmts s
    | _ => .done (s.visit w name)

section Run

variable {w : World} {decls : List Decl} {d : Decl} {s : State}

theorem run_stmts (hfound : decls.find? (·.name = d.name) = some d) {stmts : List Stmt}
    (hbody : d.body = .stmts stmts) (depth : Nat) :
    run w decls (depth + 1) d.name s = runStmts (run w decls depth) stmts s := by
  simp [run, hfound, hbody]

theorem run_asm (hfound : decls.find? (·.name = d.name) = some d) {text : Text} {pos : Position}
    (hbody : d.body = .asm text pos) (depth : Nat) :
    run w decls (depth + 1) d.name s = .done (s.visit w d.name) := by
  simp [run, hfound, hbody]

theorem run_routine {name : Text} (hname : name ∉ decls.map (·.name)) (depth : Nat) :
    run w decls (depth + 1) name s = .done (s.visit w name) := by
  have hnone : decls.find? (·.name = name) = none := by
    rw [List.find?_eq_none]
    intro d hd he
    have hd' : d.name = name := by simpa using he
    exact hname (hd' ▸ List.mem_map_of_mem hd)
  simp [run, hnone]

end Run

end Execution

end Pocket

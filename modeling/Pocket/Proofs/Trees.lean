import Pocket.Program.Parser

/-!
# Views of syntax trees

What the theory asks about expressions, statements and functions: their parts in source order, whether
the expressions have values, and the same tree with its calls bound.
-/

namespace Pocket

namespace Expr

/-- The value of an expression; zero if it has none. -/
def value (e : Expr) : Word :=
  match e.fold with
  | .ok v => v
  | .error _ => 0

/-- Every literal of an expression fits into sixteen bits and has the value of its text. -/
def LiteralsFit : Expr → Prop
  | .literal v text _ => Word.ofLiteral? text = some v
  | .unary _ right _ => right.LiteralsFit
  | .binary _ left right _ => left.LiteralsFit ∧ right.LiteralsFit

instance decidableLiteralsFit : (e : Expr) → Decidable e.LiteralsFit
  | .literal v text _ => inferInstanceAs (Decidable (Word.ofLiteral? text = some v))
  | .unary _ right _ => decidableLiteralsFit right
  | .binary _ left right _ =>
    have := decidableLiteralsFit left
    have := decidableLiteralsFit right
    inferInstanceAs (Decidable (left.LiteralsFit ∧ right.LiteralsFit))

theorem value_of_fold {e : Expr} {v : Word} (h : e.fold = .ok v) : e.value = v := by
  simp [value, h]

/-- Every operator of an expression is one that the grammar has in its place. -/
def Grammatical : Expr → Prop
  | .literal _ _ _ => True
  | .unary op right _ => Parser.isUnary op = true ∧ right.Grammatical
  | .binary op left right _ =>
    op ∈ Parser.operatorLevels.flatten ∧ left.Grammatical ∧ right.Grammatical

instance decidableGrammatical : (e : Expr) → Decidable e.Grammatical
  | .literal _ _ _ => inferInstanceAs (Decidable True)
  | .unary op right _ =>
    have := decidableGrammatical right
    inferInstanceAs (Decidable (Parser.isUnary op = true ∧ right.Grammatical))
  | .binary op left right _ =>
    have := decidableGrammatical left
    have := decidableGrammatical right
    inferInstanceAs (Decidable
      (op ∈ Parser.operatorLevels.flatten ∧ left.Grammatical ∧ right.Grammatical))

/-- The expressions that an expression consists of, itself included: operands before their operator,
from left to right. -/
def nodes : Expr → List Expr
  | .literal value text pos => [.literal value text pos]
  | .unary op right pos => right.nodes ++ [.unary op right pos]
  | .binary op left right pos => left.nodes ++ right.nodes ++ [.binary op left right pos]

end Expr

namespace Stmt

/-- The expression in a statement, if there is one. -/
def expr? : Stmt → Option Expr
  | .call c => c.arg
  | .expr e _ _ => some e

/-- The call in a statement, if it is one. -/
def call? : Stmt → Option Call
  | .call c => some c
  | .expr .. => none

/-- The expression in a statement has a value. -/
def Folds (s : Stmt) : Prop :=
  ∀ e, s.expr? = some e → ∃ v, e.fold = .ok v

end Stmt

namespace Decl

/-- The statements of a function; a raw block has none. -/
def stmts (d : Decl) : List Stmt :=
  match d.body with
  | .stmts ss => ss
  | .asm _ _ => []

/-- The expressions of a function in source order. -/
def exprs (d : Decl) : List Expr :=
  d.stmts.filterMap Stmt.expr?

/-- Every expression of a function has a value. -/
def Folds (d : Decl) : Prop :=
  ∀ e ∈ d.exprs, ∃ v, e.fold = .ok v

theorem folds_iff {d : Decl} : d.Folds ↔ ∀ s ∈ d.stmts, s.Folds := by
  simp only [Folds, Stmt.Folds, exprs, List.mem_filterMap]
  constructor
  · intro h s hs e he
    exact h e ⟨s, hs, he⟩
  · rintro h e ⟨s, hs, he⟩
    exact h s hs e he

theorem calls_eq_filterMap (d : Decl) : d.calls = d.stmts.filterMap Stmt.call? := by
  unfold calls stmts
  cases d.body <;> rfl

end Decl

/-! ### Binding calls -/

/-- A call bound to what its name stands for among the declared names. -/
def Call.bind (names : List Text) (c : Call) : Call :=
  { c with target := if c.callee ∈ names then .declared else .external }

/-- A statement with its call bound. -/
def Stmt.bind (names : List Text) : Stmt → Stmt
  | .call c => .call (c.bind names)
  | .expr e v pos => .expr e v pos

/-- A function with its calls bound. -/
def Decl.bind (names : List Text) (d : Decl) : Decl :=
  match d.body with
  | .stmts ss => { d with body := .stmts (ss.map (Stmt.bind names)) }
  | .asm _ _ => d

section Bind

variable (names : List Text)

@[simp] theorem Stmt.expr?_bind (s : Stmt) : (s.bind names).expr? = s.expr? := by
  cases s <;> rfl

@[simp] theorem Stmt.value_bind (s : Stmt) : (s.bind names).value = s.value := by
  cases s <;> rfl

theorem Stmt.call?_bind (s : Stmt) : (s.bind names).call? = s.call?.map (Call.bind names) := by
  cases s <;> rfl

@[simp] theorem Decl.name_bind (d : Decl) : (d.bind names).name = d.name := by
  unfold Decl.bind
  split <;> rfl

theorem Decl.stmts_bind (d : Decl) : (d.bind names).stmts = d.stmts.map (Stmt.bind names) := by
  cases hb : d.body <;> simp [Decl.bind, Decl.stmts, hb]

theorem Decl.calls_bind (d : Decl) : (d.bind names).calls = d.calls.map (Call.bind names) := by
  rw [calls_eq_filterMap, calls_eq_filterMap, stmts_bind, List.filterMap_map, List.map_filterMap]
  congr 1
  funext s
  exact Stmt.call?_bind names s

end Bind

end Pocket

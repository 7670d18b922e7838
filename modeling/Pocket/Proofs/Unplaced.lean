import Pocket.Proofs.Readers

/-!
# Positions do not steer the parser

A thing is unplaced when every position in it is replaced by the beginning of a source. Reading
unplaced tokens yields what reading the tokens yields, unplaced: the same tree, or the same cause of
failure. So no decision of a reader, of the table or of the folder depends on a position.
-/

namespace Pocket

/-! ### Unplaced things -/

def Token.unplaced (t : Token) : Token :=
  { t with pos := .start }

def Expr.unplaced : Expr → Expr
  | .literal value text _ => .literal value text .start
  | .unary op right _ => .unary op right.unplaced .start
  | .binary op left right _ => .binary op left.unplaced right.unplaced .start

def Call.unplaced (c : Call) : Call :=
  { c with arg := c.arg.map Expr.unplaced, pos := .start }

def Stmt.unplaced : Stmt → Stmt
  | .call c => .call c.unplaced
  | .expr e value _ => .expr e.unplaced value .start

def Body.unplaced : Body → Body
  | .stmts ss => .stmts (ss.map Stmt.unplaced)
  | .asm text _ => .asm text .start

def Decl.unplaced (d : Decl) : Decl :=
  { d with body := d.body.unplaced, pos := .start }

def DeclTable.unplaced (t : DeclTable) : DeclTable :=
  { t with
    decls := t.decls.map Decl.unplaced
    externals := t.externals.map fun called => (called.1, .start) }

def Program.unplaced (prog : Program) : Program :=
  ⟨prog.decls.map Decl.unplaced, prog.table.unplaced⟩

/-- A cause names the tokens it complains about, and a redeclaration the place of the first one. -/
def ParseCause.unplaced : ParseCause → ParseCause
  | .expectedDeclaration got => .expectedDeclaration got.unplaced
  | .expected what got => .expected what got.unplaced
  | .unknownStatement got => .unknownStatement got.unplaced
  | .expectedExpression got => .expectedExpression got.unplaced
  | .redeclared name _ => .redeclared name .start
  | cause => cause

def Fault.unplaced : Fault → Fault
  | .lex _ cause => .lex .start cause
  | .parse _ cause => .parse .start cause.unplaced
  | .eval _ cause => .eval .start cause
  | .emit cause => .emit cause

/-! ### Unplaced outcomes -/

section Outcome

variable {α α' β β' : Type}

/-- An outcome with its fault unplaced and its value changed by a function. -/
def outcomeBy (f : α → α') : Except Fault α → Except Fault α'
  | .ok a => .ok (f a)
  | .error e => .error e.unplaced

/-- Two steps agree with two unplaced steps if the first and the second do. -/
theorem outcomeBy_bind {x : Except Fault α} {x' : Except Fault α'} {g : α → Except Fault β}
    {g' : α' → Except Fault β'} {f : α → α'} {h : β → β'} (hx : x' = outcomeBy f x)
    (hg : ∀ a, x = .ok a → g' (f a) = outcomeBy h (g a)) :
    (x' >>= g') = outcomeBy h (x >>= g) := by
  subst hx
  cases x with
  | error e => rfl
  | ok a => exact hg a rfl

theorem outcomeBy_ite {c c' : Prop} [Decidable c] [Decidable c'] {x y : Except Fault α}
    {x' y' : Except Fault α'} {f : α → α'} (hc : c' ↔ c) (hx : c → x' = outcomeBy f x)
    (hy : ¬c → y' = outcomeBy f y) :
    (if c' then x' else y') = outcomeBy f (if c then x else y) := by
  by_cases h : c
  · rw [if_pos h, if_pos (hc.mpr h), hx h]
  · rw [if_neg h, if_neg (fun h' => h (hc.mp h')), hy h]

end Outcome

/-- Tokens without their positions. -/
def unplacedAll (ts : List Token) : List Token :=
  ts.map Token.unplaced

/-- What a reader yields, unplaced. -/
abbrev readBy {α : Type} (f : α → α) (r : Except Fault (α × List Token)) :
    Except Fault (α × List Token) :=
  outcomeBy (Prod.map f unplacedAll) r

theorem unplacedAll_cons (t : Token) (ts : List Token) :
    unplacedAll (t :: ts) = t.unplaced :: unplacedAll ts := rfl

theorem head?_unplacedAll (ts : List Token) :
    (unplacedAll ts).head? = ts.head?.map Token.unplaced := by
  cases ts <;> rfl

/-- What holds of the kind of the first token holds of it unplaced. -/
theorem forall_head?_unplacedAll {ts : List Token} (P : Token.Kind → Prop)
    (h : ∀ t ∈ ts.head?, P t.kind) : ∀ t ∈ (unplacedAll ts).head?, P t.kind := by
  intro t ht
  rw [head?_unplacedAll] at ht
  obtain ⟨u, hu, rfl⟩ := Option.map_eq_some_iff.mp ht
  exact h u hu

namespace Parser

variable {stop : Token} {ts : List Token}

theorem peek_unplaced (stop : Token) (ts : List Token) :
    peek stop.unplaced (unplacedAll ts) = (peek stop ts).unplaced := by
  cases ts <;> rfl

theorem peek_kind_unplaced (stop : Token) (ts : List Token) :
    (peek stop.unplaced (unplacedAll ts)).kind = (peek stop ts).kind := by
  rw [peek_unplaced]
  rfl

theorem expect_unplaced (stop : Token) (what : Wanted) (ts : List Token) :
    bare (expect stop.unplaced what (unplacedAll ts)) =
      readBy Token.unplaced (bare (expect stop what ts)) := by
  cases ts with
  | nil =>
    rw [bare_expect_nil]
    exact bare_expect_nil stop.unplaced what
  | cons t ts =>
    rw [unplacedAll_cons, bare_expect_cons, bare_expect_cons]
    exact outcomeBy_ite Iff.rfl (fun _ => rfl) fun _ => rfl

/-! ### Expressions -/

/-- Reading an expression of some levels from fewer than `n` tokens is the same without positions. -/
def UnplacedBelow (stop : Token) (levels : List (List Token.Kind)) (n : Nat) : Prop :=
  ∀ ts : List Token, ts.length < n →
    bare (binary stop.unplaced levels (unplacedAll ts)) =
      readBy Expr.unplaced (bare (binary stop levels ts))

theorem primary_unplaced {n : Nat} (ih : UnplacedBelow stop operatorLevels n)
    (hlen : ts.length < n + 1) :
    bare (primary stop.unplaced (unplacedAll ts)) =
      readBy Expr.unplaced (bare (primary stop ts)) := by
  cases ts with
  | nil =>
    rw [bare_primary_nil]
    exact bare_primary_nil stop.unplaced
  | cons t rest =>
    have hrest : rest.length < n := by simpa using hlen
    rw [unplacedAll_cons]
    -- The kind of the token decides how it goes on, and a kind has no place.
    by_cases hi : t.kind = .integer
    · rw [bare_primary_integer stop hi, bare_primary_integer stop.unplaced (t := t.unplaced) hi]
      simp only [Token.unplaced]
      cases Word.ofLiteral? t.lexeme <;> rfl
    · by_cases hp : t.kind = .leftParen
      · rw [bare_primary_leftParen stop hp, bare_primary_leftParen stop.unplaced (t := t.unplaced) hp]
        refine outcomeBy_bind (ih rest hrest) ?_
        rintro ⟨e, rest₁⟩ _
        exact outcomeBy_bind (expect_unplaced stop .rightParen rest₁) fun _ _ => rfl
      · by_cases hs : t.kind = .string
        · rw [bare_primary_string stop hs, bare_primary_string stop.unplaced (t := t.unplaced) hs]
          rfl
        · by_cases hn : t.kind = .identifier
          · rw [bare_primary_identifier stop hn,
              bare_primary_identifier stop.unplaced (t := t.unplaced) hn]
            rfl
          · rw [bare_primary_other stop hi hp hs hn,
              bare_primary_other stop.unplaced (t := t.unplaced) hi hp hs hn]
            rfl

theorem unary_unplaced {n : Nat} (ih : UnplacedBelow stop [] n)
    (hprimary : UnplacedBelow stop operatorLevels n) (hlen : ts.length < n + 1) :
    bare (unary stop.unplaced (unplacedAll ts)) = readBy Expr.unplaced (bare (unary stop ts)) := by
  by_cases hs : ∀ t ∈ ts.head?, isUnary t.kind = false
  · rw [bare_unary_operand stop hs,
      bare_unary_operand stop.unplaced (forall_head?_unplacedAll (isUnary · = false) hs)]
    exact primary_unplaced hprimary hlen
  · cases ts with
    | nil => simp at hs
    | cons t rest =>
      have ht : isUnary t.kind = true := by simpa using hs
      have hrest : rest.length < n := by simpa using hlen
      have hread := ih rest hrest
      rw [bare_binary_nil, bare_binary_nil] at hread
      rw [unplacedAll_cons, bare_unary_sign stop ht,
        bare_unary_sign stop.unplaced (t := t.unplaced) ht]
      exact outcomeBy_bind hread fun _ _ => rfl

/-- The induction is on a bound for the number of tokens, since the chain goes on behind an operand. -/
theorem chain_unplaced {n : Nat} {ops : List Token.Kind} {tighter : List (List Token.Kind)}
    (ih : UnplacedBelow stop tighter n) (k : Nat) : ∀ (ts : List Token) (left : Expr),
      ts.length ≤ k → ts.length ≤ n →
      bare (chain stop.unplaced ops tighter left.unplaced (unplacedAll ts)) =
        readBy Expr.unplaced (bare (chain stop ops tighter left ts)) := by
  induction k with
  | zero =>
    intro ts left hk _
    obtain rfl : ts = [] := List.eq_nil_of_length_eq_zero (by omega)
    rw [bare_chain_stop stop (by simp)]
    exact bare_chain_stop stop.unplaced (by simp [unplacedAll]) tighter left.unplaced
  | succ k ihk =>
    intro ts left hk hn
    by_cases hs : ∀ t ∈ ts.head?, t.kind ∉ ops
    · rw [bare_chain_stop stop hs]
      exact bare_chain_stop stop.unplaced (forall_head?_unplacedAll (· ∉ ops) hs) tighter left.unplaced
    · cases ts with
      | nil => simp at hs
      | cons t rest =>
        have ht : t.kind ∈ ops := by simpa using hs
        simp only [List.length_cons] at hk hn
        rw [unplacedAll_cons, bare_chain_operator stop ht,
          bare_chain_operator stop.unplaced (t := t.unplaced) ht]
        refine outcomeBy_bind (ih rest (by omega)) ?_
        rintro ⟨right, rest₁⟩ h₁
        -- An operand has at least one token, so the chain comes closer to its end.
        have hlt : rest₁.length < rest.length := prop_of_bare h₁
        exact ihk rest₁ (.binary t.kind left right t.pos) (by omega) (by omega)

theorem binary_unplaced {n : Nat} {ops : List Token.Kind} {tighter : List (List Token.Kind)}
    (ih : UnplacedBelow stop tighter n) : UnplacedBelow stop (ops :: tighter) n := by
  intro ts hlen
  rw [bare_binary_cons, bare_binary_cons]
  refine outcomeBy_bind (ih ts hlen) ?_
  rintro ⟨left, rest⟩ h
  have hlt : rest.length < ts.length := prop_of_bare h
  exact chain_unplaced ih rest.length rest left (Nat.le_refl _) (by omega)

theorem unplacedBelow (stop : Token) (n : Nat) : ∀ levels, UnplacedBelow stop levels n := by
  induction n with
  | zero =>
    intro levels ts hlen
    exact absurd hlen (Nat.not_lt_zero _)
  | succ n ih =>
    intro levels
    induction levels with
    | nil =>
      intro ts hlen
      rw [bare_binary_nil, bare_binary_nil]
      exact unary_unplaced (ih []) (ih operatorLevels) hlen
    | cons ops tighter ihlevels => exact binary_unplaced ihlevels

end Parser

/-- Folding looks at operators and operands only. -/
theorem Expr.fold_unplaced (e : Expr) : e.unplaced.fold = outcomeBy id e.fold := by
  induction e with
  | literal value text pos => rfl
  | unary op right pos ih =>
    simp only [Expr.unplaced, Expr.fold, ih]
    cases right.fold with
    | error fault => rfl
    | ok v =>
      simp only [outcomeBy, id_eq]
      cases Expr.foldUnary op v <;> rfl
  | binary op left right pos ihl ihr =>
    simp only [Expr.unplaced, Expr.fold, ihl, ihr]
    cases left.fold with
    | error fault => rfl
    | ok l =>
      cases right.fold with
      | error fault => rfl
      | ok r =>
        simp only [outcomeBy, id_eq]
        cases Expr.foldBinary op l r <;> rfl

namespace Parser

theorem folded_unplaced (stop : Token) (ts : List Token) :
    bare (folded stop.unplaced (unplacedAll ts)) =
      readBy (Prod.map Expr.unplaced id) (bare (folded stop ts)) := by
  rw [bare_folded, bare_folded]
  refine outcomeBy_bind (unplacedBelow stop _ operatorLevels ts (Nat.lt_succ_self _)) ?_
  rintro ⟨e, rest⟩ _
  exact outcomeBy_bind e.fold_unplaced fun _ _ => rfl

/-! ### Statements -/

theorem callRest_unplaced (stop name : Token) (ts : List Token) :
    bare (callRest stop.unplaced name.unplaced (unplacedAll ts)) =
      readBy Call.unplaced (bare (callRest stop name ts)) := by
  by_cases h : (peek stop ts).kind = .rightParen
  · rw [bare_callRest_empty stop name h,
      bare_callRest_empty stop.unplaced name.unplaced ((peek_kind_unplaced stop ts).trans h)]
    refine outcomeBy_bind (expect_unplaced stop .rightParen ts) ?_
    rintro ⟨_, rest⟩ _
    exact outcomeBy_bind (expect_unplaced stop .semicolon rest) fun _ _ => rfl
  · have h' : (peek stop.unplaced (unplacedAll ts)).kind ≠ .rightParen := by
      rwa [peek_kind_unplaced]
    rw [bare_callRest_argument stop name h, bare_callRest_argument stop.unplaced name.unplaced h']
    refine outcomeBy_bind (folded_unplaced stop ts) ?_
    rintro ⟨⟨e, value⟩, rest⟩ _
    refine outcomeBy_ite (by simp [peek_kind_unplaced]) (fun _ => ?_) fun _ => ?_
    · rw [peek_unplaced]
      rfl
    · refine outcomeBy_bind (expect_unplaced stop .rightParen rest) ?_
      rintro ⟨_, rest⟩ _
      exact outcomeBy_bind (expect_unplaced stop .semicolon rest) fun _ _ => rfl

theorem statement_unplaced (stop : Token) (ts : List Token) :
    bare (statement stop.unplaced (unplacedAll ts)) =
      readBy Stmt.unplaced (bare (statement stop ts)) := by
  cases ts with
  | nil =>
    rw [bare_statement_nil]
    exact bare_statement_nil stop.unplaced
  | cons t rest =>
    rw [unplacedAll_cons]
    by_cases hexpr : startsExpression t.kind = true
    · rw [bare_statement_expr stop hexpr,
        bare_statement_expr stop.unplaced (t := t.unplaced) hexpr]
      refine outcomeBy_bind (folded_unplaced stop (t :: rest)) ?_
      rintro ⟨⟨e, value⟩, rest⟩ _
      exact outcomeBy_bind (expect_unplaced stop .semicolon rest) fun _ _ => rfl
    · have hexpr : startsExpression t.kind = false := by simpa using hexpr
      by_cases hcall : t.kind = .identifier → ∀ paren ∈ rest.head?, paren.kind ≠ .leftParen
      · rw [bare_statement_unknown stop hcall hexpr,
          bare_statement_unknown stop.unplaced (t := t.unplaced)
            (fun ht => forall_head?_unplacedAll (· ≠ .leftParen) (hcall ht)) hexpr]
        rfl
      · cases rest with
        | nil => simp at hcall
        | cons paren args =>
          obtain ⟨ht, hp⟩ : t.kind = .identifier ∧ paren.kind = .leftParen := by simpa using hcall
          have ht' : t.unplaced.kind = .identifier := ht
          have hp' : paren.unplaced.kind = .leftParen := hp
          rw [unplacedAll_cons, bare_statement_call stop ht hp, bare_statement_call stop.unplaced ht' hp']
          exact outcomeBy_bind (callRest_unplaced stop t args) fun _ _ => rfl

theorem statements_unplaced (stop : Token) (name : Text) (k : Nat) : ∀ ts : List Token,
    ts.length ≤ k →
      bare (statements stop.unplaced name (unplacedAll ts)) =
        readBy (List.map Stmt.unplaced) (bare (statements stop name ts)) := by
  induction k using Nat.strongRecOn with
  | ind k ih =>
    intro ts hk
    -- What the next token is does not depend on places, so both sides take the same branch.
    have hkind := peek_kind_unplaced stop ts
    by_cases hb : (peek stop ts).kind = .rightBrace
    · rw [bare_statements_end stop name hb, bare_statements_end stop.unplaced name (hkind.trans hb)]
      rfl
    · by_cases he : (peek stop ts).kind = .eof
      · rw [bare_statements_eof stop name he,
          bare_statements_eof stop.unplaced name (hkind.trans he), peek_unplaced]
        rfl
      · by_cases ha : (peek stop ts).kind = .asm
        · rw [bare_statements_asm stop name ha,
            bare_statements_asm stop.unplaced name (hkind.trans ha), peek_unplaced]
          rfl
        · rw [bare_statements_more stop name hb he ha,
            bare_statements_more stop.unplaced name (hkind ▸ hb) (hkind ▸ he) (hkind ▸ ha)]
          refine outcomeBy_bind (statement_unplaced stop ts) ?_
          rintro ⟨s, rest⟩ h
          have hlt : rest.length < ts.length := prop_of_bare h
          exact outcomeBy_bind (ih rest.length (by omega) rest (Nat.le_refl _)) fun _ _ => rfl

/-! ### Declarations -/

theorem dropSemicolon_unplaced (ts : List Token) :
    dropSemicolon (unplacedAll ts) = unplacedAll (dropSemicolon ts) := by
  cases ts with
  | nil => rfl
  | cons t ts =>
    by_cases ht : t.kind = .semicolon <;> simp [unplacedAll, dropSemicolon, Token.unplaced, ht]

theorem emptyParameters_unplaced (ts : List Token) :
    (emptyParameters (unplacedAll ts)).val = unplacedAll (emptyParameters ts).val := by
  match ts with
  | [] => rfl
  | [t] => rfl
  | v :: paren :: rest =>
    change (emptyParameters (v.unplaced :: paren.unplaced :: unplacedAll rest)).val = _
    by_cases h : v.kind = .void ∧ paren.kind = .rightParen <;>
      simp [unplacedAll, emptyParameters, Token.unplaced, h]

theorem asmBody_unplaced (stop : Token) (ts : List Token) :
    bare (asmBody stop.unplaced (unplacedAll ts)) =
      readBy Body.unplaced (bare (asmBody stop ts)) := by
  rw [bare_asmBody, bare_asmBody]
  refine outcomeBy_bind (expect_unplaced stop .asmLeftBrace ts) ?_
  rintro ⟨_, rest₁⟩ _
  refine outcomeBy_bind (expect_unplaced stop .asmText rest₁) ?_
  rintro ⟨text, rest₂⟩ _
  refine outcomeBy_bind (expect_unplaced stop .asmRightBrace rest₂) ?_
  rintro ⟨_, rest₃⟩ _
  simp only [Prod.map_apply, dropSemicolon_unplaced, peek_unplaced]
  exact outcomeBy_ite Iff.rfl (fun _ => rfl) fun _ => rfl

theorem body_unplaced (stop : Token) (name : Text) (ts : List Token) :
    bare (body stop.unplaced name (unplacedAll ts)) =
      readBy Body.unplaced (bare (body stop name ts)) := by
  by_cases h : ∀ t ∈ ts.head?, t.kind ≠ .asm
  · rw [bare_body_stmts stop name h,
      bare_body_stmts stop.unplaced name (forall_head?_unplacedAll (· ≠ .asm) h)]
    exact outcomeBy_bind (statements_unplaced stop name _ ts (Nat.le_refl _)) fun _ _ => rfl
  · cases ts with
    | nil => simp at h
    | cons t rest =>
      have ht : t.kind = .asm := by simpa using h
      rw [unplacedAll_cons, bare_body_asm stop name ht,
        bare_body_asm stop.unplaced name (t := t.unplaced) ht]
      exact asmBody_unplaced stop rest

theorem declaration_unplaced (stop : Token) (ts : List Token) :
    bare (declaration stop.unplaced (unplacedAll ts)) =
      readBy Decl.unplaced (bare (declaration stop ts)) := by
  cases ts with
  | nil =>
    rw [bare_declaration_nil]
    exact bare_declaration_nil stop.unplaced
  | cons type rest =>
    rw [unplacedAll_cons]
    cases ht : type.kind.isType with
    | false =>
      rw [bare_declaration_other stop ht, bare_declaration_other stop.unplaced (t := type.unplaced) ht]
      rfl
    | true =>
      have ht' : type.unplaced.kind.isType = true := ht
      rw [bare_declaration stop ht, bare_declaration stop.unplaced ht']
      refine outcomeBy_bind (expect_unplaced stop .functionName rest) ?_
      rintro ⟨name, rest₁⟩ _
      refine outcomeBy_bind (expect_unplaced stop .leftParen rest₁) ?_
      rintro ⟨_, rest₂⟩ _
      -- From here on every part is read and passed on without its place.
      dsimp only [Prod.map_apply]
      rw [emptyParameters_unplaced, peek_unplaced]
      refine outcomeBy_ite Iff.rfl (fun _ => ?_) fun _ => rfl
      refine outcomeBy_bind (expect_unplaced stop .rightParen _) ?_
      rintro ⟨_, rest₃⟩ _
      refine outcomeBy_bind (expect_unplaced stop .leftBrace rest₃) ?_
      rintro ⟨_, rest₄⟩ _
      refine outcomeBy_bind (body_unplaced stop name.lexeme rest₄) ?_
      rintro ⟨b, rest₅⟩ _
      exact outcomeBy_bind (expect_unplaced stop .rightBrace rest₅) fun _ _ => rfl

end Parser

/-! ### The table -/

namespace DeclTable

variable {t : DeclTable}

theorem lookup?_unplaced (t : DeclTable) (name : Text) :
    t.unplaced.lookup? name = (t.lookup? name).map Decl.unplaced := by
  rw [lookup?, lookup?, DeclTable.unplaced, List.find?_map]
  rfl

theorem declare_unplaced (t : DeclTable) (d : Decl) :
    t.unplaced.declare d.unplaced = outcomeBy DeclTable.unplaced (t.declare d) := by
  unfold declare
  rw [show d.unplaced.name = d.name from rfl, lookup?_unplaced]
  cases t.lookup? d.name with
  | some first => rfl
  | none =>
    refine outcomeBy_ite Iff.rfl (fun _ => rfl) fun _ => ?_
    simp [outcomeBy, DeclTable.unplaced]

theorem lookup_externals_unplaced (t : DeclTable) (name : Text) :
    (t.unplaced.externals.lookup name).isSome = (t.externals.lookup name).isSome := by
  rw [DeclTable.unplaced]
  induction t.externals with
  | nil => rfl
  | cons called externals ih =>
    obtain ⟨other, pos⟩ := called
    simp only [List.map_cons, List.lookup_cons]
    cases name == other with
    | true => rfl
    | false => exact ih

theorem resolve_unplaced (t : DeclTable) (name : Text) (pos : Position) :
    t.unplaced.resolve name .start =
      outcomeBy (Prod.map id DeclTable.unplaced) (t.resolve name pos) := by
  unfold resolve
  rw [lookup?_unplaced, Option.isSome_map, lookup_externals_unplaced]
  refine outcomeBy_ite Iff.rfl (fun _ => rfl) fun _ => ?_
  refine outcomeBy_ite Iff.rfl (fun _ => ?_) fun _ => rfl
  by_cases hcalled : (t.externals.lookup name).isSome = true
  · simp [hcalled, outcomeBy]
  · simp [hcalled, outcomeBy, DeclTable.unplaced]

end DeclTable

namespace Parser

theorem declarations_unplaced (stop : Token) (k : Nat) : ∀ (ts : List Token) (table : DeclTable),
    ts.length ≤ k →
      declarations stop.unplaced table.unplaced (unplacedAll ts) =
        outcomeBy (Prod.map DeclTable.unplaced Token.unplaced) (declarations stop table ts) := by
  induction k using Nat.strongRecOn with
  | ind k ih =>
    intro ts table hk
    have hkind := peek_kind_unplaced stop ts
    by_cases he : (peek stop ts).kind = .eof
    · rw [declarations_end stop he, declarations_end stop.unplaced (hkind.trans he), peek_unplaced]
      rfl
    · rw [declarations_more stop he, declarations_more stop.unplaced (hkind ▸ he)]
      refine outcomeBy_bind (declaration_unplaced stop ts) ?_
      rintro ⟨d, rest⟩ h
      have hlt : rest.length < ts.length := prop_of_bare h
      refine outcomeBy_bind (table.declare_unplaced d) fun table' _ => ?_
      exact ih rest.length (by omega) rest table' (Nat.le_refl _)

theorem resolveStmts_unplaced (ss : List Stmt) : ∀ table : DeclTable,
    resolveStmts table.unplaced (ss.map Stmt.unplaced) =
      outcomeBy (Prod.map (List.map Stmt.unplaced) DeclTable.unplaced) (resolveStmts table ss) := by
  induction ss with
  | nil => exact fun _ => rfl
  | cons s ss ih =>
    intro table
    cases s with
    | call c =>
      refine outcomeBy_bind (table.resolve_unplaced c.callee c.pos) ?_
      rintro ⟨target, table₁⟩ _
      exact outcomeBy_bind (ih table₁) fun _ _ => rfl
    | expr e value pos => exact outcomeBy_bind (ih table) fun _ _ => rfl

theorem resolveDecls_unplaced (ds : List Decl) : ∀ table : DeclTable,
    resolveDecls table.unplaced (ds.map Decl.unplaced) =
      outcomeBy (Prod.map (List.map Decl.unplaced) DeclTable.unplaced) (resolveDecls table ds) := by
  induction ds with
  | nil => exact fun _ => rfl
  | cons d ds ih =>
    intro table
    rw [List.map_cons, resolveDecls, resolveDecls]
    cases hb : d.body with
    | stmts ss =>
      simp only [Decl.unplaced, hb, Body.unplaced]
      refine outcomeBy_bind (resolveStmts_unplaced ss table) ?_
      rintro ⟨ss', table₁⟩ _
      exact outcomeBy_bind (ih table₁) fun _ _ => rfl
    | asm text pos =>
      simp only [Decl.unplaced, hb, Body.unplaced]
      refine outcomeBy_bind (ih table) ?_
      rintro ⟨ds', table₁⟩ _
      simp [outcomeBy, Decl.unplaced, hb, Body.unplaced]

end Parser

/-- A program is read from unplaced tokens exactly as from the tokens themselves. -/
theorem Program.ofTokens_unplaced (p : Profile) (ts : List Token) :
    Program.ofTokens p (unplacedAll ts) = outcomeBy Program.unplaced (Program.ofTokens p ts) := by
  have hstop : Parser.stopOf (unplacedAll ts) = (Parser.stopOf ts).unplaced := by
    unfold Parser.stopOf unplacedAll
    rw [List.getLast?_map]
    cases ts.getLast? <;> rfl
  rw [Program.ofTokens, Program.ofTokens, hstop]
  refine outcomeBy_bind (Parser.declarations_unplaced _ _ ts (.empty p) (Nat.le_refl _)) ?_
  rintro ⟨table, last⟩ _
  refine outcomeBy_bind (Parser.resolveDecls_unplaced table.decls table) ?_
  rintro ⟨decls, table₁⟩ _
  simp only [Prod.map_apply, DeclTable.lookup?_unplaced, Option.isNone_map]
  exact outcomeBy_ite Iff.rfl (fun _ => rfl) fun _ => rfl

end Pocket

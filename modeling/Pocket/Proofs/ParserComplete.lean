import Pocket.Proofs.ParserSound

/-!
# What is grammatical is read

On tokens that derive, followed by tokens that cannot belong to the derivation, a reader returns the
derived tree and leaves the rest, as long as the integers fit. The only thing that can still go wrong
inside a function is an expression without a value; `check` looks for the first of these.
-/

namespace Pocket

open Pocket.Parser Grammar

variable {stop : Token} {l m : Level}

/-! ### Expressions -/

namespace Grammar

/-- Tokens that do not continue an expression of a sort. -/
def Ends (l : Level) (rest : List Token) : Prop :=
  ∀ t ∈ rest.head?, t.kind ∉ l.levels.flatten

theorem ends_iff (hm : l.tighter? = some m) (hl : l ≠ .unary) {rest : List Token} :
    Ends l rest ↔ (∀ t ∈ rest.head?, t.kind ∉ l.operators) ∧ Ends m rest := by
  simp only [Ends, Level.levels_eq hm hl, List.flatten_cons, List.mem_append, not_or]
  exact ⟨fun h => ⟨fun t ht => (h t ht).1, fun t ht => (h t ht).2⟩,
    fun h t ht => ⟨h.1 t ht, h.2 t ht⟩⟩

/-- An operator ends the tighter expression on its left. -/
theorem ends_operator (hm : l.tighter? = some m) {op : Token} (hop : op.kind ∈ l.operators)
    (rest : List Token) : Ends m (op :: rest) := by
  intro t ht
  obtain rfl : op = t := by simpa using ht
  revert hop
  cases l <;> simp only [Level.tighter?, Option.some.injEq, reduceCtorEq] at hm <;> subst hm <;>
    generalize op.kind = k <;> revert k <;> simp [Level.operators, Level.levels, operatorLevels]

theorem ends_of_kind {t : Token} {k : Token.Kind} (ht : t.kind = k)
    (rest : List Token) (hk : k ∉ operatorLevels.flatten) :
    Ends .bitwiseOr (t :: rest) := by
  intro u hu
  obtain rfl : t = u := by simpa using hu
  rw [ht]
  exact hk

theorem Expression.primary_starts {ts : List Token} {e : Expr} (h : Expression .primary ts e)
    (rest : List Token) : ∀ t ∈ (ts ++ rest).head?, isUnary t.kind = false := by
  cases h with
  | tighter hm => cases hm
  | join hm => cases hm
  | literal ht =>
    intro t ht'
    cases ht'
    rw [ht]
    rfl
  | parens hl =>
    intro t ht'
    cases ht'
    rw [hl]
    rfl

/-- The second part is what the induction needs for operators that join from the left: after the
tokens of an expression the parser stands in the chain of its sort, with that expression on the
left. -/
theorem Expression.read {ts : List Token} {e : Expr} (h : Expression l ts e) (hfit : Fits ts) :
    (∀ rest, Ends l rest → l.read stop (ts ++ rest) = .ok (e, rest)) ∧
      ∀ m, l.tighter? = some m → l ≠ .unary → ∀ rest, Ends m rest →
        l.read stop (ts ++ rest) = bare (chain stop l.operators m.levels e rest) := by
  induction h with
  | @tighter l m ts e hm he ih =>
    by_cases hl : l = .unary
    · subst hl
      cases hm
      refine ⟨fun rest hrest => ?_, fun _ _ hl => absurd rfl hl⟩
      rw [Level.read_unary, bare_unary_operand stop (he.primary_starts rest)]
      exact (ih hfit).1 rest hrest
    -- Any other level reads the tighter expression and then stands at the start of its own chain.
    · have hchain : ∀ m', l.tighter? = some m' → l ≠ .unary → ∀ rest, Ends m' rest →
          l.read stop (ts ++ rest) = bare (chain stop l.operators m'.levels e rest) := by
        intro m' hm' _ rest hrest
        obtain rfl : m = m' := Option.some.inj (hm.symm.trans hm')
        rw [Level.read_binary hm hl, (ih hfit).1 rest hrest]
        rfl
      refine ⟨fun rest hrest => ?_, hchain⟩
      obtain ⟨hops, hrest'⟩ := (ends_iff hm hl).mp hrest
      rw [hchain m hm hl rest hrest', bare_chain_stop stop hops]
  | @join l m left right op a b hm hop ha hb iha ihb =>
    have hl : l ≠ .unary := by
      rintro rfl
      cases hop
    have hmp : m ≠ .primary := Level.tighter_ne_primary hm hl
    obtain ⟨hfita, hfitb⟩ := fits_append.mp hfit
    have hfitb := (fits_cons.mp hfitb).2
    -- The left operand leaves the parser in the chain, which takes the operator and the right operand.
    have hchain : ∀ m', l.tighter? = some m' → l ≠ .unary → ∀ rest, Ends m' rest →
        l.read stop (left ++ op :: right ++ rest)
          = bare (chain stop l.operators m'.levels (.binary op.kind a b op.pos) rest) := by
      intro m' hm' _ rest hrest
      obtain rfl : m = m' := Option.some.inj (hm.symm.trans hm')
      rw [List.append_assoc, List.cons_append,
        (iha hfita).2 m hm hl _ (ends_operator hm hop _), bare_chain_operator stop hop,
        ← Level.read_eq hmp, (ihb hfitb).1 rest hrest]
      rfl
    refine ⟨fun rest hrest => ?_, hchain⟩
    -- Nothing of this level follows, so the chain ends here.
    obtain ⟨hops, hrest'⟩ := (ends_iff hm hl).mp hrest
    rw [hchain m hm hl rest hrest', bare_chain_stop stop hops]
  | @sign op ts e hop he ih =>
    refine ⟨fun rest hrest => ?_, fun _ _ hl => absurd rfl hl⟩
    rw [Level.read_unary, List.cons_append, bare_unary_sign stop (isUnary_iff.mpr hop),
      ← Level.read_unary, (ih (fits_cons.mp hfit).2).1 rest hrest]
    rfl
  | @literal t ht =>
    refine ⟨fun rest _ => ?_, fun _ hm => by cases hm⟩
    obtain ⟨v, hv⟩ := (fits_cons.mp hfit).1 ht
    change bare (primary stop (t :: rest)) = _
    rw [bare_primary_integer stop ht, hv]
    rfl
  | @parens lparen rparen ts e hl hr he ih =>
    refine ⟨fun rest _ => ?_, fun _ hm => by cases hm⟩
    have hfit' : Fits ts := (fits_append.mp (fits_cons.mp hfit).2).1
    change bare (primary stop (lparen :: (ts ++ [rparen] ++ rest))) = _
    -- A closing parenthesis ends expressions of every level.
    have hread : bare (binary stop operatorLevels (ts ++ rparen :: rest)) = .ok (e, rparen :: rest) :=
      (ih hfit').1 (rparen :: rest) (ends_of_kind hr rest (by decide))
    rw [bare_primary_leftParen stop hl, List.append_assoc, List.singleton_append, hread]
    change (bare (expect stop .rightParen (rparen :: rest)) >>= _) = _
    rw [bare_expect_of_kind stop .rightParen hr]
    rfl

theorem Expression.folded {ts : List Token} {e : Expr} (h : Expression .bitwiseOr ts e)
    (hfit : Fits ts) {rest : List Token} (hrest : Ends .bitwiseOr rest) :
    bare (folded stop (ts ++ rest)) = e.fold.map fun v => ((e, v), rest) := by
  have hread : bare (binary stop operatorLevels (ts ++ rest)) = .ok (e, rest) :=
    (h.read hfit).1 rest hrest
  rw [bare_folded, hread]
  change (e.fold >>= _) = _
  cases e.fold <;> rfl

end Grammar

/-! ### Statements -/

/-- Folds the expression of a statement, for the fault that may come of it. -/
def Stmt.check (s : Stmt) : Except Fault Unit :=
  match s.expr? with
  | none => .ok ()
  | some e => e.fold.map fun _ => ()

/-- Folds the expressions of some statements in order. -/
def Stmt.checkAll : List Stmt → Except Fault Unit
  | [] => .ok ()
  | s :: ss => do
    s.check
    checkAll ss

/-- Folds the expressions of a function in source order. -/
def Decl.check (d : Decl) : Except Fault Unit :=
  Stmt.checkAll d.stmts

theorem Stmt.check_of_expr {s : Stmt} {e : Expr} (h : s.expr? = some e) :
    s.check = e.fold.map fun _ => () := by
  simp only [Stmt.check, h]

theorem Stmt.check_of_folds {s : Stmt} (h : s.Folds) : s.check = .ok () := by
  cases he : s.expr? with
  | none => simp only [Stmt.check, he]
  | some e =>
    obtain ⟨v, hv⟩ := h e he
    rw [Stmt.check_of_expr he, hv]
    rfl

theorem Decl.check_of_folds {d : Decl} (h : d.Folds) : d.check = .ok () := by
  rw [Decl.folds_iff] at h
  unfold Decl.check
  generalize d.stmts = ss at h
  induction ss with
  | nil => rfl
  | cons s ss ih =>
    rw [Stmt.checkAll, Stmt.check_of_folds (h s (by simp))]
    exact ih fun s' hs' => h s' (by simp [hs'])

namespace Grammar

theorem Statement.starts {ts : List Token} {s : Stmt} (h : Statement ts s) :
    ∃ first more, ts = first :: more ∧ first.kind ≠ .rightBrace ∧ first.kind ≠ .eof ∧
      first.kind ≠ .asm := by
  cases h with
  | @call name lparen rparen semi hname => exact ⟨name, _, rfl, by simp [hname]⟩
  | @callWith name lparen rparen semi ts e hname => exact ⟨name, _, rfl, by simp [hname]⟩
  | @expr first semi ts e hs he =>
    refine ⟨first, ts ++ [semi], rfl, ?_⟩
    obtain ⟨_, _, hcons, hstart⟩ := he.starts
    cases hcons
    revert hstart
    cases first.kind <;> simp [startsExpression]

theorem Statement.read {ts : List Token} {s : Stmt} (h : Statement ts s) (hfit : Fits ts)
    (rest : List Token) :
    bare (statement stop (ts ++ rest)) = s.check.map fun _ => (s, rest) := by
  cases h with
  | @call name lparen rparen semi hname hl hr hs =>
    change bare (statement stop (name :: lparen :: rparen :: semi :: rest)) = _
    have hpeek : (peek stop (rparen :: semi :: rest)).kind = .rightParen := hr
    rw [bare_statement_call stop hname hl, bare_callRest_empty stop name hpeek,
      bare_expect_of_kind stop .rightParen hr]
    change (bare (expect stop .semicolon (semi :: rest)) >>= _) >>= _ = _
    rw [bare_expect_of_kind stop .semicolon hs]
    rfl
  | @callWith name lparen rparen semi ts e hname hl hr hs he =>
    have hfit' : Fits ts := (fits_append.mp (fits_cons.mp (fits_cons.mp hfit).2).2).1
    -- An expression does not begin with a parenthesis that closes, so the call is read as one with an argument.
    have hpeek : (peek stop (ts ++ rparen :: semi :: rest)).kind ≠ .rightParen := by
      obtain ⟨first, more, rfl, hstart⟩ := he.starts
      intro hk
      change first.kind = .rightParen at hk
      rw [hk] at hstart
      cases hstart
    have hcomma : (peek stop (rparen :: semi :: rest)).kind ≠ .comma := by
      change rparen.kind ≠ .comma
      rw [hr]
      decide
    have hts : name :: lparen :: ts ++ [rparen, semi] ++ rest
        = name :: lparen :: (ts ++ rparen :: semi :: rest) := by simp
    rw [hts, bare_statement_call stop hname hl, bare_callRest_argument stop name hpeek,
      he.folded hfit' (ends_of_kind hr _ (by decide)), Stmt.check_of_expr (s := .call _) rfl]
    -- The argument is folded as it is read: a fault there is the fault of the statement.
    cases hv : e.fold with
    | error fault => rfl
    | ok v =>
      change ((if (peek stop (rparen :: semi :: rest)).kind = .comma then _ else _) >>= _) = _
      rw [if_neg hcomma, bare_expect_of_kind stop .rightParen hr]
      change ((bare (expect stop .semicolon (semi :: rest)) >>= _) >>= _) = _
      rw [bare_expect_of_kind stop .semicolon hs, Expr.value_of_fold hv]
      rfl
  | @expr first semi ts e hs he =>
    have hfit' : Fits (first :: ts) := (fits_append.mp hfit).1
    obtain ⟨_, _, hcons, hstart⟩ := he.starts
    cases hcons
    have hts : first :: ts ++ [semi] ++ rest = first :: (ts ++ semi :: rest) := by simp
    rw [hts, bare_statement_expr stop hstart, ← List.cons_append,
      he.folded hfit' (ends_of_kind hs _ (by decide)), Stmt.check_of_expr (s := .expr _ _ _) rfl]
    cases hv : e.fold with
    | error fault => rfl
    | ok v =>
      change (bare (expect stop .semicolon (semi :: rest)) >>= _) = _
      rw [bare_expect_of_kind stop .semicolon hs, Expr.value_of_fold hv]
      rfl

theorem Sequence.readStatements {ts : List Token} {ss : List Stmt} (h : Sequence Statement ts ss)
    (hfit : Fits ts) {rest : List Token} (hrest : (peek stop rest).kind = .rightBrace) (name : Text) :
    bare (statements stop name (ts ++ rest)) = (Stmt.checkAll ss).map fun _ => (ss, rest) := by
  induction h with
  | nil => exact bare_statements_end stop name hrest
  | @cons ts us s ss hs _ ih =>
    obtain ⟨hfit₁, hfit₂⟩ := fits_append.mp hfit
    obtain ⟨first, more, hts, hb, he, ha⟩ := hs.starts
    have hpeek : peek stop (ts ++ us ++ rest) = first := by rw [hts]; rfl
    rw [bare_statements_more stop name (by rw [hpeek]; exact hb) (by rw [hpeek]; exact he)
      (by rw [hpeek]; exact ha), List.append_assoc, hs.read hfit₁, Stmt.checkAll]
    cases s.check with
    | error fault => rfl
    | ok _ =>
      change (bare (statements stop name (us ++ rest)) >>= _) = _
      rw [ih hfit₂]
      change _ = Except.map _ (Stmt.checkAll ss)
      cases Stmt.checkAll ss <;> rfl

/-! ### Declarations -/

theorem FunctionBody.read {ts : List Token} {b : Body} (h : FunctionBody ts b) (hfit : Fits ts)
    {rbrace : Token} (hr : rbrace.kind = .rightBrace) (name returns : Text) (pos : Position)
    (rest : List Token) :
    bare (body stop name (ts ++ rbrace :: rest))
      = (Decl.check ⟨name, returns, b, pos⟩).map fun _ => (b, rbrace :: rest) := by
  cases h with
  | @asm key lbrace text close semi hkey hl ht hc hs =>
    -- The semicolon behind a block is optional, and both forms leave the brace that closes the function.
    have hdrop : dropSemicolon (semi ++ rbrace :: rest) = rbrace :: rest := by
      rcases hs with rfl | ⟨s, hs, rfl⟩
      · simp [dropSemicolon, hr]
      · simp [dropSemicolon, hs]
    have hpeek : (peek stop (rbrace :: rest)).kind = .rightBrace ∨
      (peek stop (rbrace :: rest)).kind = .eof := Or.inl hr
    simp only [List.cons_append]
    rw [bare_body_asm stop name hkey, bare_asmBody, bare_expect_of_kind stop .asmLeftBrace hl]
    change (bare (expect stop .asmText (text :: _)) >>= _) = _
    rw [bare_expect_of_kind stop .asmText ht]
    change (bare (expect stop .asmRightBrace (close :: _)) >>= _) = _
    rw [bare_expect_of_kind stop .asmRightBrace hc]
    change (if (peek stop (dropSemicolon _)).kind = .rightBrace ∨ _ then _ else _) = _
    rw [hdrop, if_pos hpeek]
    rfl
  | @stmts ts ss hss =>
    -- No statement begins with the keyword, so the body is not taken for a raw one.
    have hasm : ∀ t ∈ (ts ++ rbrace :: rest).head?, t.kind ≠ .asm := by
      intro t ht
      cases hss with
      | nil =>
        cases ht
        rw [hr]
        decide
      | cons hs _ =>
        obtain ⟨first, more, rfl, -, -, ha⟩ := hs.starts
        cases ht
        exact ha
    have hpeek : (peek stop (rbrace :: rest)).kind = .rightBrace := hr
    rw [bare_body_stmts stop name hasm, hss.readStatements hfit hpeek name]
    change _ = Except.map _ (Stmt.checkAll ss)
    cases Stmt.checkAll ss <;> rfl

theorem Declaration.read {ts : List Token} {d : Decl} (h : Declaration ts d) (hfit : Fits ts)
    (rest : List Token) :
    bare (declaration stop (ts ++ rest)) = d.check.map fun _ => (d, rest) := by
  cases h with
  | @function type name lparen rparen lbrace rbrace params ts b htype hname hl hparams hr hlb hrb
      hb =>
    have hfit' : Fits ts := by
      have h₁ := (fits_append.mp (fits_append.mp hfit).1).2
      exact (fits_cons.mp (fits_cons.mp h₁).2).2
    -- The word that stands for an empty list is dropped before the parenthesis is looked for.
    have hempty : (emptyParameters (params ++ rparen :: lbrace :: (ts ++ rbrace :: rest))).val
        = rparen :: lbrace :: (ts ++ rbrace :: rest) := by
      rcases hparams with rfl | ⟨v, hv, rfl⟩
      · simp [emptyParameters, hr]
      · simp [emptyParameters, hv, hr]
    have hpeek : (peek stop (rparen :: lbrace :: (ts ++ rbrace :: rest))).kind = .rightParen := hr
    have hts : type :: name :: lparen :: params ++ rparen :: lbrace :: ts ++ [rbrace] ++ rest
        = type :: name :: lparen :: (params ++ rparen :: lbrace :: (ts ++ rbrace :: rest)) := by
      simp
    rw [hts, bare_declaration stop (isType_iff.mpr htype),
      bare_expect_of_kind stop .functionName hname]
    change (bare (expect stop .leftParen (lparen :: _)) >>= _) = _
    rw [bare_expect_of_kind stop .leftParen hl]
    change (if (peek stop (emptyParameters _).val).kind = .rightParen then _ else _) = _
    rw [hempty, if_pos hpeek, bare_expect_of_kind stop .rightParen hr]
    change (bare (expect stop .leftBrace (lbrace :: _)) >>= _) = _
    rw [bare_expect_of_kind stop .leftBrace hlb]
    change (bare (body stop name.lexeme _) >>= _) = _
    rw [hb.read hfit' hrb name.lexeme type.lexeme name.pos rest]
    -- The body says whether its statements fold; only then does the last brace matter.
    cases Decl.check ⟨name.lexeme, type.lexeme, b, name.pos⟩ with
    | error fault => rfl
    | ok _ =>
      change (bare (expect stop .rightBrace (rbrace :: rest)) >>= _) = _
      rw [bare_expect_of_kind stop .rightBrace hrb]
      rfl

theorem Declaration.starts {ts : List Token} {d : Decl} (h : Declaration ts d) :
    ∃ first more, ts = first :: more ∧ first.kind ≠ .eof := by
  cases h with
  | @function type name lparen rparen lbrace rbrace params ts b htype =>
    refine ⟨type, _, rfl, ?_⟩
    intro he
    rw [he] at htype
    simp at htype

/-- Enters a function into a table after its expressions have been folded. -/
def checkIn (table : DeclTable) (d : Decl) : Except Fault DeclTable := do
  d.check
  table.declare d

theorem Sequence.readDeclarations {ts : List Token} {ds : List Decl} (h : Sequence Declaration ts ds)
    (hfit : Fits ts) {last : Token} (hlast : last.kind = .eof) (table : DeclTable) :
    declarations stop table (ts ++ [last])
      = (ds.foldlM checkIn table).map fun table' => (table', last) := by
  induction h generalizing table with
  | nil => exact declarations_end stop hlast
  | @cons ts us d ds hd _ ih =>
    obtain ⟨hfit₁, hfit₂⟩ := fits_append.mp hfit
    obtain ⟨first, more, hts, he⟩ := hd.starts
    have hpeek : peek stop (ts ++ us ++ [last]) = first := by rw [hts]; rfl
    rw [declarations_more stop (by rw [hpeek]; exact he), List.append_assoc, hd.read hfit₁,
      List.foldlM_cons, checkIn]
    cases d.check with
    | error fault => rfl
    | ok _ =>
      change (table.declare d >>= _) = Except.map _ (table.declare d >>= _)
      cases table.declare d with
      | error fault => rfl
      | ok table' => exact ih hfit₂ table'

end Grammar

end Pocket

import Pocket.Proofs.Trees

/-!
# The grammar

    program        = declaration* end
    declaration    = type IDENTIFIER "(" ["void"] ")" "{" body "}"
    type           = "void" | "int" | "char"
    body           = "asm" "{" RAWTEXT "}" [";"] | statement*
    statement      = IDENTIFIER "(" [expression] ")" ";" | expression ";"
    expression     = bitwise_or
    bitwise_or     = bitwise_xor ("|" bitwise_xor)*
    bitwise_xor    = bitwise_and ("^" bitwise_and)*
    bitwise_and    = shift ("&" shift)*
    shift          = additive (("<<" | ">>") additive)*
    additive       = multiplicative (("+" | "-") multiplicative)*
    multiplicative = unary (("*" | "/" | "%") unary)*
    unary          = ("-" | "+" | "~") unary | primary
    primary        = INTEGER | "(" expression ")"

Every rule relates the tokens it spans to the tree they stand for. The rules are about shape only: a
literal or an expression without a value has the value zero in the tree, and calls are unresolved.
What an accepted program needs besides its shape is said by `Accepted`.
-/

namespace Pocket

namespace Grammar

/-! ### Expressions -/

/-- The sorts of expressions, from the loosest to the tightest. -/
inductive Level where
  | bitwiseOr
  | bitwiseXor
  | bitwiseAnd
  | shift
  | additive
  | multiplicative
  | unary
  | primary
  deriving DecidableEq, Repr

namespace Level

/-- The next tighter sort. -/
def tighter? : Level → Option Level
  | .bitwiseOr => some .bitwiseXor
  | .bitwiseXor => some .bitwiseAnd
  | .bitwiseAnd => some .shift
  | .shift => some .additive
  | .additive => some .multiplicative
  | .multiplicative => some .unary
  | .unary => some .primary
  | .primary => none

/-- The binary operators that join expressions of a sort. -/
def operators : Level → List Token.Kind
  | .bitwiseOr => [.pipe]
  | .bitwiseXor => [.caret]
  | .bitwiseAnd => [.amp]
  | .shift => [.shiftLeft, .shiftRight]
  | .additive => [.plus, .minus]
  | .multiplicative => [.star, .slash, .percent]
  | .unary => []
  | .primary => []

theorem tighter_ne_primary {l m : Level} (hm : l.tighter? = some m) (hl : l ≠ .unary) : m ≠ .primary := by
  rintro rfl
  cases l <;> simp [tighter?] at hm hl

end Level

/-- The unary operators. -/
def signs : List Token.Kind := [.minus, .plus, .tilde]

/-- Tokens that form an expression of a sort, and the expression. Binary operators join from the
left: the left operand is of the same sort, and the right one is tighter. -/
inductive Expression : Level → List Token → Expr → Prop where
  | tighter {l m : Level} {ts : List Token} {e : Expr} (hm : l.tighter? = some m) :
      Expression m ts e → Expression l ts e
  | join {l m : Level} {left right : List Token} {op : Token} {a b : Expr}
      (hm : l.tighter? = some m) (hop : op.kind ∈ l.operators) :
      Expression l left a → Expression m right b →
      Expression l (left ++ op :: right) (.binary op.kind a b op.pos)
  | sign {op : Token} {ts : List Token} {e : Expr} (hop : op.kind ∈ signs) :
      Expression .unary ts e → Expression .unary (op :: ts) (.unary op.kind e op.pos)
  | literal {t : Token} (ht : t.kind = .integer) :
      Expression .primary [t] (.literal ((Word.ofLiteral? t.lexeme).getD 0) t.lexeme t.pos)
  | parens {lparen rparen : Token} {ts : List Token} {e : Expr} (hl : lparen.kind = .leftParen)
      (hr : rparen.kind = .rightParen) :
      Expression .bitwiseOr ts e → Expression .primary (lparen :: ts ++ [rparen]) e

/-! ### Statements and declarations -/

/-- Tokens that form a statement, and the statement. -/
inductive Statement : List Token → Stmt → Prop where
  | call {name lparen rparen semi : Token} (hname : name.kind = .identifier)
      (hl : lparen.kind = .leftParen) (hr : rparen.kind = .rightParen)
      (hs : semi.kind = .semicolon) :
      Statement [name, lparen, rparen, semi] (.call ⟨name.lexeme, none, 0, .unresolved, name.pos⟩)
  | callWith {name lparen rparen semi : Token} {ts : List Token} {e : Expr}
      (hname : name.kind = .identifier) (hl : lparen.kind = .leftParen)
      (hr : rparen.kind = .rightParen) (hs : semi.kind = .semicolon) :
      Expression .bitwiseOr ts e →
      Statement (name :: lparen :: ts ++ [rparen, semi])
        (.call ⟨name.lexeme, some e, e.value, .unresolved, name.pos⟩)
  | expr {first semi : Token} {ts : List Token} {e : Expr} (hs : semi.kind = .semicolon) :
      Expression .bitwiseOr (first :: ts) e →
      Statement (first :: ts ++ [semi]) (.expr e e.value first.pos)

/-- Tokens that form any number of things, one after the other. -/
inductive Sequence {α : Type} (Form : List Token → α → Prop) : List Token → List α → Prop where
  | nil : Sequence Form [] []
  | cons {ts us : List Token} {x : α} {xs : List α} :
      Form ts x → Sequence Form us xs → Sequence Form (ts ++ us) (x :: xs)

/-- Tokens that form the body of a function: a raw block, perhaps with a semicolon behind it, or
statements. -/
inductive FunctionBody : List Token → Body → Prop where
  | asm {key lbrace text rbrace : Token} {semi : List Token} (hkey : key.kind = .asm)
      (hl : lbrace.kind = .leftBrace) (ht : text.kind = .rawText)
      (hr : rbrace.kind = .rightBrace) (hs : semi = [] ∨ ∃ s, s.kind = .semicolon ∧ semi = [s]) :
      FunctionBody (key :: lbrace :: text :: rbrace :: semi) (.asm text.lexeme text.pos)
  | stmts {ts : List Token} {ss : List Stmt} :
      Sequence Statement ts ss → FunctionBody ts (.stmts ss)

/-- Tokens that form a declaration. The parameter list is empty, or the word `void`. -/
inductive Declaration : List Token → Decl → Prop where
  | function {type name lparen rparen lbrace rbrace : Token} {params ts : List Token} {b : Body}
      (htype : type.kind ∈ [.void, .int, .char]) (hname : name.kind = .identifier)
      (hl : lparen.kind = .leftParen)
      (hparams : params = [] ∨ ∃ v, v.kind = .void ∧ params = [v])
      (hr : rparen.kind = .rightParen) (hlb : lbrace.kind = .leftBrace)
      (hrb : rbrace.kind = .rightBrace) :
      FunctionBody ts b →
      Declaration (type :: name :: lparen :: params ++ rparen :: lbrace :: ts ++ [rbrace])
        ⟨name.lexeme, type.lexeme, b, name.pos⟩

/-- Tokens that form a program: declarations up to the token that ends the source. -/
inductive ProgramOf : List Token → List Decl → Prop where
  | program {ts : List Token} {stop : Token} {ds : List Decl} (hstop : stop.kind = .eof) :
      Sequence Declaration ts ds → ProgramOf (ts ++ [stop]) ds

/-! ### The tokens of a derivation

An end token occurs in no derivation but that of a whole program, and raw text only in a raw body. -/

/-- Tokens among which there is no end and no raw text. -/
def Plain (ts : List Token) : Prop :=
  ∀ t ∈ ts, t.kind ≠ .eof ∧ t.kind ≠ .rawText

theorem plain_nil : Plain [] := by
  intro t ht
  cases ht

theorem plain_append {ts us : List Token} : Plain (ts ++ us) ↔ Plain ts ∧ Plain us :=
  List.forall_mem_append

theorem plain_cons {t : Token} {ts : List Token} :
    Plain (t :: ts) ↔ (t.kind ≠ .eof ∧ t.kind ≠ .rawText) ∧ Plain ts :=
  List.forall_mem_cons

theorem plain_cons_kind {t : Token} {k : Token.Kind} {ts : List Token} (ht : t.kind = k)
    (hk : (k == .eof || k == .rawText) = false) : Plain (t :: ts) ↔ Plain ts := by
  rw [plain_cons, ht]
  simp_all

theorem Level.operators_class {l : Level} {k : Token.Kind} (h : k ∈ l.operators) :
    k ≠ .eof ∧ k ≠ .rawText ∧ k ≠ .integer := by
  refine ⟨?_, ?_, ?_⟩ <;> rintro rfl <;> cases l <;> simp [Level.operators] at h

theorem signs_class {k : Token.Kind} (h : k ∈ signs) : k ≠ .eof ∧ k ≠ .rawText ∧ k ≠ .integer := by
  refine ⟨?_, ?_, ?_⟩ <;> rintro rfl <;> simp [signs] at h

theorem Expression.plain {l : Level} {ts : List Token} {e : Expr} (h : Expression l ts e) :
    Plain ts := by
  induction h with
  | tighter _ _ ih => exact ih
  | join hm hop _ _ iha ihb =>
    obtain ⟨heof, hraw, -⟩ := Level.operators_class hop
    exact plain_append.mpr ⟨iha, plain_cons.mpr ⟨⟨heof, hraw⟩, ihb⟩⟩
  | sign hop _ ih =>
    obtain ⟨heof, hraw, -⟩ := signs_class hop
    exact plain_cons.mpr ⟨⟨heof, hraw⟩, ih⟩
  | literal ht => exact (plain_cons_kind ht rfl).mpr plain_nil
  | parens hl hr _ ih =>
    exact (plain_cons_kind hl rfl).mpr (plain_append.mpr ⟨ih, (plain_cons_kind hr rfl).mpr plain_nil⟩)

theorem Statement.plain {ts : List Token} {s : Stmt} (h : Statement ts s) : Plain ts := by
  cases h with
  | call hname hl hr hs =>
    rw [plain_cons_kind hname rfl, plain_cons_kind hl rfl, plain_cons_kind hr rfl, plain_cons_kind hs rfl]
    exact plain_nil
  | callWith hname hl hr hs he =>
    rw [List.cons_append, List.cons_append, plain_cons_kind hname rfl, plain_cons_kind hl rfl, plain_append,
      plain_cons_kind hr rfl, plain_cons_kind hs rfl]
    exact ⟨he.plain, plain_nil⟩
  | expr hs he =>
    rw [plain_append, plain_cons_kind hs rfl]
    exact ⟨he.plain, plain_nil⟩

theorem Sequence.plain {ts : List Token} {ss : List Stmt} (h : Sequence Statement ts ss) :
    Plain ts := by
  induction h with
  | nil => exact plain_nil
  | cons hs _ ih => exact plain_append.mpr ⟨hs.plain, ih⟩

/-- The tokens around the body of a declaration are plain. -/
theorem Declaration.plain_around {ts : List Token} {d : Decl} (h : Declaration ts d) :
    ∃ before body rbrace, ts = before ++ body ++ [rbrace] ∧ Plain before ∧ Plain [rbrace] ∧
      FunctionBody body d.body := by
  cases h with
  | @function type name lparen rparen lbrace rbrace params ts b htype hname hl hparams hr hlb hrb hb =>
    refine ⟨type :: name :: lparen :: params ++ [rparen, lbrace], ts, rbrace, by simp, ?_,
      (plain_cons_kind hrb rfl).mpr plain_nil, hb⟩
    simp only [List.cons_append]
    rw [plain_cons, plain_cons_kind hname rfl, plain_cons_kind hl rfl, plain_append, plain_cons_kind hr rfl,
      plain_cons_kind hlb rfl]
    refine ⟨?_, ?_, plain_nil⟩
    · constructor <;> intro hk <;> rw [hk] at htype <;> simp at htype
    · rcases hparams with rfl | ⟨v, hv, rfl⟩
      · exact plain_nil
      · exact (plain_cons_kind hv rfl).mpr plain_nil

/-- No end token occurs in declarations. -/
theorem Sequence.no_eof {ts : List Token} {ds : List Decl} (h : Sequence Declaration ts ds) :
    ∀ t ∈ ts, t.kind ≠ .eof := by
  induction h with
  | nil => simp
  | @cons ts us d ds hd _ ih =>
    obtain ⟨before, body, rbrace, rfl, hbefore, hrbrace, hbody⟩ := hd.plain_around
    have hbody' : ∀ t ∈ body, t.kind ≠ .eof := by
      cases hb : d.body with
      | stmts ss =>
        rw [hb] at hbody
        cases hbody with
        | stmts hss => exact fun t ht => (hss.plain t ht).1
      | asm text pos =>
        rw [hb] at hbody
        cases hbody with
        | asm hkey hl ht hr hs =>
          rcases hs with rfl | ⟨s, hs, rfl⟩
          · simp [hkey, hl, ht, hr]
          · simp [hkey, hl, ht, hr, hs]
    simp only [List.forall_mem_append]
    exact ⟨⟨⟨fun t ht => (hbefore t ht).1, hbody'⟩, fun t ht => (hrbrace t ht).1⟩, ih⟩

end Grammar

end Pocket

import Pocket.Proofs.Readers
import Pocket.Proofs.Spans

/-!
# Where faults are found

Every fault of a source stands at a token, at the end, or where a comment or an unreadable character
begins. The parser blames only tokens that it has read, or the one that stands for the end; it never
blames raw text, since a block behind the keyword `asm` is read as a whole.

The lemmas about the readers are stated for any property of tokens, and the last section gives them
that of beginning in the source at a place where no blank stands.
-/

namespace Pocket

open Pocket.Parser

variable {P : Token → Prop}

def Position.Of (P : Token → Prop) (pos : Position) : Prop :=
  ∃ t, P t ∧ t.pos = pos

/-- A fault at a token with some property. A literal that is too large is that token. -/
def Fault.Blames (P : Token → Prop) : Fault → Prop
  | .parse pos _ => pos.Of P
  | .eval pos cause => ∃ t, P t ∧ t.pos = pos ∧
      ∀ literal, cause = .tooLarge literal → t.kind = .integer ∧ t.lexeme = literal
  | .lex _ _ => False
  | .emit _ => False

/-- Tokens with some property, except raw text, which stands only in a block of four tokens. -/
inductive Token.Regular (P : Token → Prop) : List Token → Prop where
  | nil : Regular P []
  | token {t : Token} {ts : List Token} (ht : P t) (hkind : t.kind ≠ .asm) :
      Regular P ts → Regular P (t :: ts)
  | asm {key lbrace raw rbrace : Token} {ts : List Token} (hkey : P key) (hasm : key.kind = .asm)
      (hlbrace : P lbrace) (hleft : lbrace.kind = .leftBrace) (hraw : raw.kind = .rawText)
      (hrbrace : P rbrace) (hright : rbrace.kind = .rightBrace) :
      Regular P ts → Regular P (key :: lbrace :: raw :: rbrace :: ts)

open Token (Regular)

section Regular

variable {t stop : Token} {ts : List Token}

theorem Token.Regular.head (h : Regular P (t :: ts)) : P t := by
  cases h with
  | token ht => exact ht
  | asm hkey => exact hkey

theorem Token.Regular.tail (h : Regular P (t :: ts)) (ht : t.kind ≠ .asm) : Regular P ts := by
  cases h with
  | token _ _ hts => exact hts
  | asm _ hasm => exact absurd hasm ht

theorem Token.Regular.peek (h : Regular P ts) (hstop : P stop) : P (peek stop ts) := by
  cases ts with
  | nil => exact hstop
  | cons t ts => exact h.head

theorem Token.Regular.imp {Q : Token → Prop} (h : Regular P ts) (himp : ∀ t, P t → Q t) :
    Regular Q ts := by
  induction h with
  | nil => exact .nil
  | token ht hkind _ ih => exact .token (himp _ ht) hkind ih
  | asm hkey hasm hlbrace hleft hraw hrbrace hright _ ih =>
    exact .asm (himp _ hkey) hasm (himp _ hlbrace) hleft hraw (himp _ hrbrace) hright ih

end Regular

/-! ### Outcomes -/

/-- An outcome with a value of some sort, or with a fault at some token. -/
def Careful {α : Type} (P : Token → Prop) (Q : α → Prop) : Except Fault α → Prop
  | .ok a => Q a
  | .error fault => fault.Blames P

/-- What a careful reader yields: a thing of some sort, and regular tokens that are left over. -/
abbrev Reads {α : Type} (P : Token → Prop) (Q : α → Prop) (r : Except Fault (α × List Token)) : Prop :=
  Careful P (fun x => Q x.1 ∧ Regular P x.2) r

section Careful

variable {α β : Type} {Q : α → Prop} {R : β → Prop}

theorem Careful.bind {x : Except Fault α} {f : α → Except Fault β} (hx : Careful P Q x)
    (hf : ∀ a, x = .ok a → Q a → Careful P R (f a)) : Careful P R (x >>= f) := by
  cases x with
  | error fault => exact hx
  | ok a => exact hf a rfl hx

theorem Careful.ite {c : Prop} [Decidable c] {x y : Except Fault α} (hx : c → Careful P Q x)
    (hy : ¬c → Careful P Q y) : Careful P Q (if c then x else y) := by
  split
  · next h => exact hx h
  · next h => exact hy h

theorem Careful.parse {t : Token} (cause : ParseCause) (ht : P t) :
    Careful P Q (.error (.parse t.pos cause)) :=
  ⟨t, ht, rfl⟩

end Careful

namespace Parser

variable {stop : Token} {ts : List Token}

theorem expect_careful {what : Wanted} (hstop : P stop) (h : Regular P ts) :
    Reads P P (bare (expect stop what ts)) := by
  cases ts with
  | nil => exact .parse _ hstop
  | cons t rest =>
    rw [bare_expect_cons]
    refine .ite (fun hkind => ?_) fun _ => .parse _ h.head
    refine ⟨h.head, h.tail ?_⟩
    rw [hkind]
    cases what <;> simp [Wanted.kind]

end Parser

/-! ### Expressions -/

/-- Every operator of an expression stands at a token. -/
def Expr.At (P : Token → Prop) : Expr → Prop
  | .literal _ _ _ => True
  | .unary _ right pos => right.At P ∧ pos.Of P
  | .binary _ left right pos => left.At P ∧ right.At P ∧ pos.Of P

theorem foldUnary_error {op : Token.Kind} {v : Word} {cause : EvalCause}
    (h : Expr.foldUnary op v = .error cause) (literal : Text) : cause ≠ .tooLarge literal := by
  unfold Expr.foldUnary at h
  split at h
  all_goals cases h
  all_goals simp

theorem foldBinary_error {op : Token.Kind} {l r : Word} {cause : EvalCause}
    (h : Expr.foldBinary op l r = .error cause) (literal : Text) : cause ≠ .tooLarge literal := by
  unfold Expr.foldBinary at h
  repeat' split at h
  all_goals cases h
  all_goals simp

theorem careful_mapError {pos : Position} (hpos : pos.Of P) {x : Except EvalCause Word}
    (hx : ∀ cause, x = .error cause → ∀ literal, cause ≠ .tooLarge literal) :
    Careful P (fun _ => True) (x.mapError (.eval pos)) := by
  cases x with
  | ok v => exact trivial
  | error cause =>
    obtain ⟨t, ht, hpos⟩ := hpos
    exact ⟨t, ht, hpos, fun literal hcause => absurd hcause (hx cause rfl literal)⟩

theorem Expr.At.fold {e : Expr} (h : e.At P) : Careful P (fun _ => True) e.fold := by
  induction e with
  | literal value text pos => exact trivial
  | unary op right pos ih =>
    obtain ⟨hright, hpos⟩ := h
    have hr := ih hright
    rw [Expr.fold]
    cases hfold : right.fold with
    | error fault => rwa [hfold] at hr
    | ok v => exact careful_mapError hpos fun cause => foldUnary_error
  | binary op left right pos ihl ihr =>
    obtain ⟨hleft, hright, hpos⟩ := h
    have hl := ihl hleft
    have hr := ihr hright
    rw [Expr.fold]
    cases hfoldl : left.fold with
    | error fault => rwa [hfoldl] at hl
    | ok l =>
      cases hfoldr : right.fold with
      | error fault => rwa [hfoldr] at hr
      | ok r => exact careful_mapError hpos fun cause => foldBinary_error

namespace Parser

variable {stop : Token} {ts : List Token} {n : Nat}

/-- Reading an expression of some levels from fewer than `n` regular tokens is careful. -/
def CarefulBelow (P : Token → Prop) (stop : Token) (levels : List (List Token.Kind)) (n : Nat) : Prop :=
  ∀ ts : List Token, Regular P ts → ts.length < n →
    Reads P (Expr.At P) (bare (binary stop levels ts))

theorem primary_careful (hstop : P stop) (ih : CarefulBelow P stop operatorLevels n)
    (h : Regular P ts) (hlen : ts.length < n + 1) : Reads P (Expr.At P) (bare (primary stop ts)) := by
  cases ts with
  | nil =>
    rw [bare_primary_nil]
    exact .parse _ hstop
  | cons t rest =>
    have hrest : rest.length < n := by simpa using hlen
    by_cases hi : t.kind = .integer
    · rw [bare_primary_integer stop hi]
      split
      · exact ⟨trivial, h.tail (by simp [hi])⟩
      -- A literal that is too large is blamed at its own token.
      · refine ⟨t, h.head, rfl, fun literal hcause => ⟨hi, ?_⟩⟩
        cases hcause
        rfl
    by_cases hp : t.kind = .leftParen
    · rw [bare_primary_leftParen stop hp]
      refine (ih rest (h.tail (by simp [hp])) hrest).bind ?_
      rintro ⟨e, rest₁⟩ - ⟨he, hrest₁⟩
      refine (expect_careful hstop hrest₁).bind ?_
      rintro ⟨_, rest₂⟩ - ⟨-, hrest₂⟩
      exact ⟨he, hrest₂⟩
    by_cases hs : t.kind = .string
    · rw [bare_primary_string stop hs]
      exact .parse _ h.head
    by_cases hn : t.kind = .identifier
    · rw [bare_primary_identifier stop hn]
      exact .parse _ h.head
    -- Whatever else comes here is blamed at the token that was found.
    · rw [bare_primary_other stop hi hp hs hn]
      exact .parse _ h.head

theorem isUnary_ne_asm {kind : Token.Kind} (h : isUnary kind = true) : kind ≠ .asm := by
  rintro rfl
  cases h

theorem unary_careful (hstop : P stop) (ih : CarefulBelow P stop [] n)
    (hprimary : CarefulBelow P stop operatorLevels n) (h : Regular P ts) (hlen : ts.length < n + 1) :
    Reads P (Expr.At P) (bare (unary stop ts)) := by
  by_cases hs : ∀ t ∈ ts.head?, isUnary t.kind = false
  · rw [bare_unary_operand stop hs]
    exact primary_careful hstop hprimary h hlen
  · cases ts with
    | nil => simp at hs
    | cons t rest =>
      have ht : isUnary t.kind = true := by simpa using hs
      have hread := ih rest (h.tail (isUnary_ne_asm ht)) (by simpa using hlen)
      rw [bare_binary_nil] at hread
      rw [bare_unary_sign stop ht]
      refine hread.bind ?_
      rintro ⟨e, rest₁⟩ - ⟨he, hrest₁⟩
      exact ⟨⟨he, t, h.head, rfl⟩, hrest₁⟩

/-- The induction is on a bound for the number of tokens, since the chain goes on behind an operand. -/
theorem chain_careful {ops : List Token.Kind} {tighter : List (List Token.Kind)} (hops : .asm ∉ ops)
    (ih : CarefulBelow P stop tighter n) (k : Nat) : ∀ (ts : List Token) (left : Expr),
      ts.length ≤ k → ts.length ≤ n → Regular P ts → left.At P →
      Reads P (Expr.At P) (bare (chain stop ops tighter left ts)) := by
  induction k with
  | zero =>
    intro ts left hk _ h hleft
    obtain rfl : ts = [] := List.eq_nil_of_length_eq_zero (by omega)
    rw [bare_chain_stop stop (by simp)]
    exact ⟨hleft, h⟩
  | succ k ihk =>
    intro ts left hk hn h hleft
    by_cases hs : ∀ t ∈ ts.head?, t.kind ∉ ops
    · rw [bare_chain_stop stop hs]
      exact ⟨hleft, h⟩
    · cases ts with
      | nil => simp at hs
      | cons t rest =>
        have ht : t.kind ∈ ops := by simpa using hs
        have hasm : t.kind ≠ .asm := fun hasm => hops (hasm ▸ ht)
        simp only [List.length_cons] at hk hn
        rw [bare_chain_operator stop ht]
        refine (ih rest (h.tail hasm) (by omega)).bind ?_
        rintro ⟨right, rest₁⟩ h₁ ⟨hright, hrest₁⟩
        -- An operand has at least one token, so the chain comes closer to its end.
        have hlt : rest₁.length < rest.length := prop_of_bare h₁
        exact ihk rest₁ _ (by omega) (by omega) hrest₁ ⟨hleft, hright, t, h.head, rfl⟩

theorem binary_careful {ops : List Token.Kind} {tighter : List (List Token.Kind)} (hops : .asm ∉ ops)
    (ih : CarefulBelow P stop tighter n) : CarefulBelow P stop (ops :: tighter) n := by
  intro ts h hlen
  rw [bare_binary_cons]
  refine (ih ts h hlen).bind ?_
  rintro ⟨left, rest⟩ h₁ ⟨hleft, hrest⟩
  have hlt : rest.length < ts.length := prop_of_bare h₁
  exact chain_careful hops ih rest.length rest left (Nat.le_refl _) (by omega) hrest hleft

theorem carefulBelow (hstop : P stop) (n : Nat) : ∀ levels, (∀ ops ∈ levels, .asm ∉ ops) →
    CarefulBelow P stop levels n := by
  induction n with
  | zero =>
    intro levels _ ts _ hlen
    exact absurd hlen (Nat.not_lt_zero _)
  | succ n ih =>
    intro levels hlevels
    induction levels with
    | nil =>
      intro ts h hlen
      rw [bare_binary_nil]
      exact unary_careful hstop (ih [] (by simp)) (ih operatorLevels (by decide)) h hlen
    | cons ops tighter ihlevels =>
      obtain ⟨hops, htighter⟩ := List.forall_mem_cons.mp hlevels
      exact binary_careful hops (ihlevels htighter)

theorem folded_careful (hstop : P stop) (h : Regular P ts) :
    Reads P (fun _ => True) (bare (folded stop ts)) := by
  rw [bare_folded]
  refine (carefulBelow hstop _ operatorLevels (by decide) ts h (Nat.lt_succ_self _)).bind ?_
  rintro ⟨e, rest⟩ - ⟨he, hrest⟩
  exact he.fold.bind fun _ _ _ => ⟨trivial, hrest⟩

end Parser

/-! ### Statements and declarations -/

/-- A statement whose call, if it is one, stands at a token. -/
def Stmt.At (P : Token → Prop) : Stmt → Prop
  | .call c => c.pos.Of P
  | .expr _ _ _ => True

def Body.At (P : Token → Prop) : Body → Prop
  | .stmts ss => ∀ s ∈ ss, s.At P
  | .asm _ _ => True

def Decl.At (P : Token → Prop) (d : Decl) : Prop :=
  d.pos.Of P ∧ d.body.At P

namespace Parser

variable {stop : Token} {ts : List Token}

theorem callRest_careful (hstop : P stop) {name : Token} (hname : P name) (h : Regular P ts) :
    Reads P (fun c => c.pos.Of P) (bare (callRest stop name ts)) := by
  by_cases hclose : (peek stop ts).kind = .rightParen
  · rw [bare_callRest_empty stop name hclose]
    refine (expect_careful hstop h).bind ?_
    rintro ⟨_, rest⟩ - ⟨-, hrest⟩
    refine (expect_careful hstop hrest).bind ?_
    rintro ⟨_, rest⟩ - ⟨-, hrest⟩
    exact ⟨⟨name, hname, rfl⟩, hrest⟩
  · rw [bare_callRest_argument stop name hclose]
    refine (folded_careful hstop h).bind ?_
    rintro ⟨⟨e, value⟩, rest⟩ - ⟨-, hrest⟩
    refine .ite (fun _ => .parse _ (hrest.peek hstop)) fun _ => ?_
    refine (expect_careful hstop hrest).bind ?_
    rintro ⟨_, rest⟩ - ⟨-, hrest⟩
    refine (expect_careful hstop hrest).bind ?_
    rintro ⟨_, rest⟩ - ⟨-, hrest⟩
    exact ⟨⟨name, hname, rfl⟩, hrest⟩

theorem statement_careful (hstop : P stop) (h : Regular P ts) :
    Reads P (Stmt.At P) (bare (statement stop ts)) := by
  cases ts with
  | nil =>
    rw [bare_statement_nil]
    exact .parse _ hstop
  | cons t rest =>
    by_cases hexpr : startsExpression t.kind = true
    · rw [bare_statement_expr stop hexpr]
      refine (folded_careful hstop h).bind ?_
      rintro ⟨⟨e, value⟩, rest⟩ - ⟨-, hrest⟩
      refine (expect_careful hstop hrest).bind ?_
      rintro ⟨_, rest⟩ - ⟨-, hrest⟩
      exact ⟨trivial, hrest⟩
    · by_cases hcall : t.kind = .identifier → ∀ paren ∈ rest.head?, paren.kind ≠ .leftParen
      · rw [bare_statement_unknown stop hcall (by simpa using hexpr)]
        exact .parse _ h.head
      -- What is left are calls, whose callee is the token that later faults may name.
      · cases rest with
        | nil => simp at hcall
        | cons paren args =>
          obtain ⟨ht, hp⟩ : t.kind = .identifier ∧ paren.kind = .leftParen := by simpa using hcall
          have hargs := (h.tail (by simp [ht])).tail (by simp [hp])
          rw [bare_statement_call stop ht hp]
          refine (callRest_careful hstop h.head hargs).bind ?_
          rintro ⟨c, rest⟩ - ⟨hc, hrest⟩
          exact ⟨hc, hrest⟩

theorem statements_careful (hstop : P stop) (name : Text) (k : Nat) : ∀ ts : List Token,
    ts.length ≤ k → Regular P ts →
      Reads P (fun ss => ∀ s ∈ ss, s.At P) (bare (statements stop name ts)) := by
  induction k using Nat.strongRecOn with
  | ind k ih =>
    intro ts hk h
    by_cases hb : (peek stop ts).kind = .rightBrace
    · rw [bare_statements_end stop name hb]
      exact ⟨by simp, h⟩
    by_cases he : (peek stop ts).kind = .eof
    · rw [bare_statements_eof stop name he]
      exact .parse _ (h.peek hstop)
    by_cases ha : (peek stop ts).kind = .asm
    · rw [bare_statements_asm stop name ha]
      exact .parse _ (h.peek hstop)
    rw [bare_statements_more stop name hb he ha]
    refine (statement_careful hstop h).bind ?_
    rintro ⟨s, rest⟩ h₁ ⟨hs, hrest⟩
    have hlt : rest.length < ts.length := prop_of_bare h₁
    refine (ih rest.length (by omega) rest (Nat.le_refl _) hrest).bind ?_
    rintro ⟨ss, rest⟩ - ⟨hss, hrest⟩
    exact ⟨List.forall_mem_cons.mpr ⟨hs, hss⟩, hrest⟩

theorem dropSemicolon_regular (h : Regular P ts) : Regular P (dropSemicolon ts) := by
  cases ts with
  | nil => exact h
  | cons t ts =>
    rw [dropSemicolon]
    split
    · next ht => exact h.tail (by simp [ht])
    · exact h

theorem emptyParameters_regular (h : Regular P ts) : Regular P (emptyParameters ts).val := by
  match ts, h with
  | [], h => exact h
  | [t], h => exact h
  | v :: paren :: rest, h =>
    rw [emptyParameters]
    split
    · next hv => exact h.tail (by simp [hv.1])
    · exact h

theorem body_careful (hstop : P stop) (name : Text) (h : Regular P ts) :
    Reads P (Body.At P) (bare (body stop name ts)) := by
  by_cases hs : ∀ t ∈ ts.head?, t.kind ≠ .asm
  · rw [bare_body_stmts stop name hs]
    refine (statements_careful hstop name _ ts (Nat.le_refl _) h).bind ?_
    rintro ⟨ss, rest⟩ - ⟨hss, hrest⟩
    exact ⟨hss, hrest⟩
  · cases h with
    | nil => simp at hs
    | token ht hkind => simp [hkind] at hs
    | @asm key lbrace raw rbrace ts hkey hasm hlbrace hleft hraw hrbrace hright hts =>
      have hrest := dropSemicolon_regular hts
      rw [bare_body_asm stop name hasm, bare_asmBody, bare_expect_of_kind stop .asmLeftBrace hleft]
      change Reads P _ (bare (expect stop .asmText (raw :: rbrace :: ts)) >>= _)
      rw [bare_expect_of_kind stop .asmText hraw]
      change Reads P _ (bare (expect stop .asmRightBrace (rbrace :: ts)) >>= _)
      rw [bare_expect_of_kind stop .asmRightBrace hright]
      exact .ite (fun _ => ⟨trivial, hrest⟩) fun _ => .parse _ (hrest.peek hstop)

theorem declaration_careful (hstop : P stop) (h : Regular P ts) :
    Reads P (Decl.At P) (bare (declaration stop ts)) := by
  cases ts with
  | nil =>
    rw [bare_declaration_nil]
    exact .parse _ hstop
  | cons type rest =>
    cases ht : type.kind.isType with
    | false =>
      rw [bare_declaration_other stop ht]
      exact .parse _ h.head
    | true =>
      have hasm : type.kind ≠ .asm := by
        intro hasm
        rw [hasm] at ht
        cases ht
      rw [bare_declaration stop ht]
      refine (expect_careful hstop (h.tail hasm)).bind ?_
      rintro ⟨name, rest⟩ - ⟨hname, hrest⟩
      refine (expect_careful hstop hrest).bind ?_
      rintro ⟨_, rest⟩ - ⟨-, hrest⟩
      have hrest := emptyParameters_regular hrest
      -- If the list is not closed, the token in its place is to blame.
      refine .ite (fun _ => ?_) fun _ => .parse _ (hrest.peek hstop)
      refine (expect_careful hstop hrest).bind ?_
      rintro ⟨_, rest⟩ - ⟨-, hrest⟩
      refine (expect_careful hstop hrest).bind ?_
      rintro ⟨_, rest⟩ - ⟨-, hrest⟩
      refine (body_careful hstop name.lexeme hrest).bind ?_
      rintro ⟨b, rest⟩ - ⟨hb, hrest⟩
      refine (expect_careful hstop hrest).bind ?_
      rintro ⟨_, rest⟩ - ⟨-, hrest⟩
      exact ⟨⟨⟨name, hname, rfl⟩, hb⟩, hrest⟩

/-! ### The table -/

theorem declare_careful {table : DeclTable} {d : Decl} (htable : ∀ d ∈ table.decls, d.At P)
    (hd : d.At P) : Careful P (fun t => ∀ d ∈ t.decls, d.At P) (table.declare d) := by
  obtain ⟨t, ht, hpos⟩ := hd.1
  rw [DeclTable.declare]
  split
  · exact ⟨t, ht, hpos⟩
  · refine .ite (fun _ => ⟨t, ht, hpos⟩) fun _ => ?_
    rintro d' hd'
    rcases List.mem_append.mp hd' with hd' | hd'
    · exact htable d' hd'
    · rwa [List.mem_singleton.mp hd']

theorem declarations_careful (hstop : P stop) (k : Nat) : ∀ (ts : List Token) (table : DeclTable),
    ts.length ≤ k → Regular P ts → (∀ d ∈ table.decls, d.At P) →
      Careful P (fun x => (∀ d ∈ x.1.decls, d.At P) ∧ P x.2) (declarations stop table ts) := by
  induction k using Nat.strongRecOn with
  | ind k ih =>
    intro ts table hk h htable
    by_cases he : (peek stop ts).kind = .eof
    · rw [declarations_end stop he]
      exact ⟨htable, h.peek hstop⟩
    · rw [declarations_more stop he]
      refine (declaration_careful hstop h).bind ?_
      rintro ⟨d, rest⟩ h₁ ⟨hd, hrest⟩
      have hlt : rest.length < ts.length := prop_of_bare h₁
      refine (declare_careful htable hd).bind fun table' _ htable' => ?_
      exact ih rest.length (by omega) rest table' (Nat.le_refl _) hrest htable'

theorem resolve_careful {table : DeclTable} {name : Text} {pos : Position} (hpos : pos.Of P) :
    Careful P (fun _ => True) (table.resolve name pos) := by
  rw [DeclTable.resolve]
  exact .ite (fun _ => trivial) fun _ => .ite (fun _ => trivial) fun _ => hpos

theorem resolveStmts_careful {ss : List Stmt} (h : ∀ s ∈ ss, s.At P) (table : DeclTable) :
    Careful P (fun _ => True) (resolveStmts table ss) := by
  induction ss generalizing table with
  | nil => exact trivial
  | cons s ss ih =>
    obtain ⟨hs, hss⟩ := List.forall_mem_cons.mp h
    cases s with
    | call c =>
      refine (resolve_careful hs).bind ?_
      rintro ⟨target, table⟩ - -
      exact (ih hss table).bind fun _ _ _ => trivial
    | expr e value pos => exact (ih hss table).bind fun _ _ _ => trivial

theorem resolveDecls_careful {ds : List Decl} (h : ∀ d ∈ ds, d.At P) (table : DeclTable) :
    Careful P (fun _ => True) (resolveDecls table ds) := by
  induction ds generalizing table with
  | nil => exact trivial
  | cons d ds ih =>
    obtain ⟨⟨-, hbody⟩, hds⟩ := List.forall_mem_cons.mp h
    rw [resolveDecls]
    cases hb : d.body with
    | stmts ss =>
      rw [hb] at hbody
      refine (resolveStmts_careful hbody table).bind ?_
      rintro ⟨ss, table⟩ - -
      exact (ih hds table).bind fun _ _ _ => trivial
    | asm text pos => exact (ih hds table).bind fun _ _ _ => trivial

end Parser

/-- A program that cannot be read or resolved is blamed on one of its tokens. -/
theorem Program.ofTokens_careful {p : Profile} {ts : List Token} (hstop : P (stopOf ts))
    (h : Regular P ts) : Careful P (fun _ => True) (Program.ofTokens p ts) := by
  refine (declarations_careful hstop _ ts (.empty p) (Nat.le_refl _) h (by simp [DeclTable.empty])).bind ?_
  rintro ⟨table, last⟩ - ⟨htable, hlast⟩
  refine (resolveDecls_careful htable table).bind ?_
  rintro ⟨decls, table⟩ - -
  exact .ite (fun _ => .parse _ hlast) fun _ => trivial

/-! ### Tokens in a source -/

section Source

open Lexical

variable {pos : Position} {gs tok rest : List Glyph} {ts : List Token} {source : Text}
  {e : Position × LexCause}

theorem newline_not_mem_ofChar {c : Char} (hc : c ≠ '\n') : newline ∉ Text.ofChar c := by
  have hspelled : (Glyph.of c).Spelled := .inl rfl
  exact hspelled.not_mem_bytes (by decide) hc

theorem Lexical.IsRun.one_line (h : IsRun tok rest) (hspelled : ∀ g ∈ tok, g.Spelled) :
    newline ∉ Text.ofGlyphs tok := by
  refine not_mem_ofGlyphs hspelled (by decide) fun g hg heq => ?_
  have hword := h.1 g hg
  rw [heq] at hword
  exact absurd hword (by decide)

/-- Only a string may reach over the end of a line. -/
theorem Lexical.Lexeme.one_line {kind : Token.Kind} {lexeme : Text} (h : Lexeme tok rest kind lexeme)
    (hspelled : ∀ g ∈ tok, g.Spelled) (hkind : kind ≠ .string) : newline ∉ lexeme := by
  cases h with
  | word _ hrun => exact hrun.one_line hspelled
  | integer _ _ hrun _ => exact hrun.one_line hspelled
  | string => exact absurd rfl hkind
  | single hg =>
    refine newline_not_mem_ofChar fun heq => ?_
    rw [heq] at hg
    cases hg
  | @double a b _ _ ha hb =>
    have hne : newline ∉ Text.ofChar a.char := by
      refine newline_not_mem_ofChar fun heq => ?_
      rw [heq] at ha
      cases ha
    simpa [Text.ofChars] using hne

/-- A token that begins at no blank, and stands on one line unless it is a string. -/
structure Stands (pos : Position) (gs : List Glyph) (t : Token) : Prop where
  begins : pos.Begins gs t.pos
  one_line : t.kind ≠ .string → newline ∉ t.lexeme

theorem Stands.behind {t : Token} (used : List Glyph) (h : Stands (pos.after used) gs t) :
    Stands pos (used ++ gs) t :=
  ⟨h.begins.behind used, h.one_line⟩

theorem Token.Regular.behind (used : List Glyph) (h : Regular (Stands (pos.after used) gs) ts) :
    Regular (Stands pos (used ++ gs)) ts :=
  h.imp fun _ ht => ht.behind used

theorem Lexical.Layout.regular (h : Layout pos gs ts) (hspelled : ∀ g ∈ gs, g.Spelled) :
    Regular (Stands pos gs) ts := by
  induction h with
  | @stop pos gap hgap =>
    have hbegins := hgap.begins pos
    rw [List.append_nil] at hbegins
    exact .token ⟨hbegins, by simp⟩ (by simp) .nil
  -- The token stands behind its gap, and all others stand behind both.
  | @token pos gap tok rest kind lexeme ts hgap htok hkind _ ih =>
    have hts := (ih fun g hg => hspelled g (by simp [hg])).behind (gap ++ tok)
    rw [List.append_assoc] at hts
    refine .token ⟨hgap.begins pos, fun hne => ?_⟩ hkind hts
    exact htok.one_line (fun g hg => hspelled g (by simp [hg])) hne
  | @asm pos gap key space body rest lexeme ts hgap hkey hspace hbody _ ih =>
    have hts := (ih fun g hg => hspelled g (by simp [hg])).behind _
    have hlbrace := (hspace.begins (pos.after (gap ++ key))).behind (gap ++ key)
    rw [← Position.after_append] at hlbrace
    simp only [List.append_assoc, List.cons_append, List.nil_append] at hts hlbrace ⊢
    have hbraces : newline ∉ ("\x7b" : Text) ∧ newline ∉ ("\x7d" : Text) := by decide
    refine .asm ⟨hgap.begins pos, fun hne => ?_⟩ rfl ⟨hlbrace, fun _ => hbraces.1⟩ rfl rfl
      ⟨?_, fun _ => hbraces.2⟩ rfl hts
    · exact hkey.one_line (fun g hg => hspelled g (by simp [hg])) hne
    -- The last brace stands behind everything else, and it is no blank.
    · refine ⟨gap ++ (key ++ (space ++ ⟨'\x7b', "\x7b"⟩ :: body)), ⟨'\x7d', "\x7d"⟩ :: rest, ?_, rfl, ?_⟩
      · simp
      · rintro g ⟨⟩
        decide

theorem Lexical.Layout.ne_nil (h : Layout pos gs ts) : ts ≠ [] := by
  cases h <;> simp

theorem Token.Regular.last {P : Token → Prop} (h : Regular P ts) (hts : ts ≠ []) :
    ∃ t, ts.getLast? = some t ∧ P t := by
  induction h with
  | nil => exact absurd rfl hts
  | @token t ts ht _ _ ih =>
    cases ts with
    | nil => exact ⟨t, rfl, ht⟩
    | cons u ts => exact ih (by simp)
  | @asm key lbrace raw rbrace ts _ _ _ _ _ hrbrace _ _ ih =>
    cases ts with
    | nil => exact ⟨rbrace, rfl, hrbrace⟩
    | cons u ts => exact ih (by simp)

theorem stands_stopOf (h : Regular (Stands pos gs) ts) (hts : ts ≠ []) :
    Stands pos gs (stopOf ts) := by
  obtain ⟨t, hlast, ht⟩ := h.last hts
  refine ⟨?_, by simp [stopOf]⟩
  rw [stopOf, hlast]
  exact ht.begins

/-! ### Faults in a source -/

theorem fault_afterKeyword (h : (Lexer.afterKeyword source pos gs).tokens.2 = some e)
    (hcode : ∀ used rest, gs = used ++ rest → used ≠ [] →
      (Lexer.inCode source (pos.after used) rest).tokens.2 = some e →
      (pos.after used).Begins rest e.1) : pos.Begins gs e.1 := by
  cases hnext : (Lexer.afterKeyword source pos gs).next with
  | mk outcome l' =>
    cases outcome with
    | error e' =>
      rw [tokens_error hnext] at h
      cases h
      exact asmBlock_error hnext
    | ok t =>
      obtain ⟨space, lbrace, body, rbrace, rest, hgs, hspace, hl, hbody, hr⟩ := asmBlock_sound hnext
      change gs = _ at hgs
      subst hgs
      rw [tokens_afterKeyword hspace hl hbody hr] at h
      have hbegins := (hcode (space ++ lbrace :: body ++ [rbrace]) rest (by simp) (by simp) h).behind
      simpa using hbegins

theorem fault_inCode (source : Text) (n : Nat) : ∀ pos gs, gs.length ≤ n →
    (Lexer.inCode source pos gs).tokens.2 = some e → pos.Begins gs e.1 := by
  induction n using Nat.strongRecOn with
  | ind n ih =>
    intro pos gs hn h
    cases hnext : (Lexer.inCode source pos gs).next with
    | mk outcome l' =>
      cases outcome with
      | error e' =>
        rw [tokens_error hnext] at h
        cases h
        exact codeToken_error hnext
      | ok t =>
        rcases next_inCode_sound hnext with ⟨hgap, rfl⟩ | ⟨gap, tok, rest, rfl, hgap, htok, htpos, rfl⟩
        · rw [tokens_stop hnext rfl] at h
          cases h
        · have hlength := List.length_pos_iff.mpr htok.ne_nil
          simp only [List.length_append] at hn
          rw [tokens_more hnext htok.kind_class.1] at h
          rw [← List.append_assoc]
          refine .behind (gap ++ tok) ?_
          by_cases hasm : t.kind = .asm
          · -- Behind the keyword the lexer may read a raw block before it is back in code.
            rw [hasm] at h
            refine fault_afterKeyword h fun used more hrest hused hmore => ?_
            have hused := List.length_pos_iff.mpr hused
            have hrest := congrArg List.length hrest
            rw [List.length_append] at hrest
            exact ih more.length (by omega) _ more (Nat.le_refl _) hmore
          · have hbeq : (t.kind == .asm) = false := by simpa using hasm
            rw [hbeq] at h
            exact ih rest.length (by omega) _ rest (Nat.le_refl _) h

/-- A fault that can be pointed at: it has a place in the source, with no blank there, and it does not
quote a literal of several lines. -/
def Fault.Points (source : Text) : Fault → Prop
  | .lex pos _ => Position.start.Begins source.glyphs pos
  | .parse pos _ => Position.start.Begins source.glyphs pos
  | .eval pos cause => Position.start.Begins source.glyphs pos ∧
      ∀ literal, cause = .tooLarge literal → newline ∉ literal
  | .emit _ => False

variable {fault : Fault}

theorem lex_points (h : source.lex = .error fault) : fault.Points source := by
  unfold Text.lex at h
  split at h
  · cases h
  · next pos cause htokens =>
    cases h
    exact fault_inCode source _ .start source.glyphs (Nat.le_refl _) (congrArg Prod.snd htokens)

theorem Fault.Blames.points (h : fault.Blames (Stands .start source.glyphs)) : fault.Points source := by
  cases fault with
  | lex => cases h
  | parse pos cause =>
    obtain ⟨t, ht, rfl⟩ := h
    exact ht.begins
  | eval pos cause =>
    obtain ⟨t, ht, rfl, hliteral⟩ := h
    refine ⟨ht.begins, fun literal hcause => ?_⟩
    obtain ⟨hkind, rfl⟩ := hliteral literal hcause
    exact ht.one_line (by simp [hkind])
  | emit => cases h

theorem ofTokens_points {p : Profile} (hlex : source.lex = .ok ts)
    (h : Program.ofTokens p ts = .error fault) : fault.Points source := by
  have hlayout := lex_eq_ok_iff.mp hlex
  have hregular := hlayout.regular Glyph.spelled_glyphs
  have hstop := stands_stopOf hregular hlayout.ne_nil
  have hcareful := Program.ofTokens_careful (p := p) hstop hregular
  rw [h] at hcareful
  exact Fault.Blames.points hcareful

end Source

end Pocket

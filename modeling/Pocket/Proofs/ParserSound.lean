import Pocket.Proofs.Grammar
import Pocket.Proofs.Resolution

/-!
# What the parser accepts is grammatical

If a reader succeeds, the tokens it used up derive the tree it returns, and the integers among them
fit into sixteen bits. For expressions this is an induction on the number of tokens; within one number
the sorts of expressions follow one another from the tightest to the loosest.
-/

namespace Pocket

namespace Grammar

open Pocket.Parser

/-- The integers among some tokens fit into sixteen bits. -/
def Fits (ts : List Token) : Prop :=
  ∀ t ∈ ts, t.kind = .integer → ∃ v, Word.ofLiteral? t.lexeme = some v

theorem fits_nil : Fits [] := by
  intro t ht
  cases ht

theorem fits_append {ts us : List Token} : Fits (ts ++ us) ↔ Fits ts ∧ Fits us := by
  constructor
  · intro h
    exact ⟨fun t ht => h t (List.mem_append_left us ht), fun t ht => h t (List.mem_append_right ts ht)⟩
  · rintro ⟨h₁, h₂⟩ t ht
    rcases List.mem_append.mp ht with ht | ht
    · exact h₁ t ht
    · exact h₂ t ht

theorem fits_cons {t : Token} {ts : List Token} :
    Fits (t :: ts) ↔ (t.kind = .integer → ∃ v, Word.ofLiteral? t.lexeme = some v) ∧ Fits ts := by
  simp [Fits]

/-- A token that is no integer always fits. -/
theorem fits_cons_of_ne {t : Token} {ts : List Token} (ht : t.kind ≠ .integer) :
    Fits (t :: ts) ↔ Fits ts := by
  simp [fits_cons, ht]

theorem fits_cons_kind {t : Token} {k : Token.Kind} {ts : List Token} (ht : t.kind = k)
    (hk : (k == .integer) = false) : Fits (t :: ts) ↔ Fits ts :=
  fits_cons_of_ne (ht ▸ ne_of_beq_false hk)

/-- The literals of an expression fit exactly if its integer tokens do. -/
theorem Expression.literalsFit_iff {l : Level} {ts : List Token} {e : Expr} (h : Expression l ts e) :
    e.LiteralsFit ↔ Fits ts := by
  induction h with
  | tighter _ _ ih => exact ih
  | join hm hop _ _ iha ihb =>
    rw [Expr.LiteralsFit, iha, ihb, fits_append, fits_cons_of_ne (Level.operators_class hop).2.2]
  | sign hop _ ih => rw [Expr.LiteralsFit, ih, fits_cons_of_ne (signs_class hop).2.2]
  | @literal t ht =>
    rw [Expr.LiteralsFit, fits_cons]
    cases hv : Word.ofLiteral? t.lexeme <;> simp [ht, fits_nil]
  | parens hl hr _ ih =>
    rw [ih, List.cons_append, fits_cons_kind hl rfl, fits_append,
      fits_cons_kind hr rfl]
    simp [fits_nil]

/-- An expression has at least one token, and the first one is a sign, an integer or a parenthesis. -/
theorem Expression.starts {l : Level} {ts : List Token} {e : Expr} (h : Expression l ts e) :
    ∃ first more, ts = first :: more ∧ startsExpression first.kind = true := by
  induction h with
  | tighter _ _ ih => exact ih
  | @join l m left right op a b hm hop _ _ iha _ =>
    obtain ⟨first, more, rfl, hfirst⟩ := iha
    exact ⟨first, more ++ op :: right, rfl, hfirst⟩
  | @sign op ts _ hop _ _ =>
    refine ⟨op, ts, rfl, ?_⟩
    simp only [signs, List.mem_cons, List.not_mem_nil, or_false] at hop
    rcases hop with h | h | h <;> rw [h] <;> rfl
  | @literal t ht => exact ⟨t, [], rfl, by rw [ht]; rfl⟩
  | @parens lparen rparen ts _ hl _ _ _ => exact ⟨lparen, ts ++ [rparen], rfl, by rw [hl]; rfl⟩

/-! ### The sorts of expressions as the parser reads them -/

/-- The operators of a sort and of the tighter ones, as the parser takes them. -/
def Level.levels : Level → List (List Token.Kind)
  | .bitwiseOr => operatorLevels
  | .bitwiseXor => operatorLevels.drop 1
  | .bitwiseAnd => operatorLevels.drop 2
  | .shift => operatorLevels.drop 3
  | .additive => operatorLevels.drop 4
  | .multiplicative => operatorLevels.drop 5
  | .unary => []
  | .primary => []

/-- Reads an expression of a sort. -/
def Level.read (stop : Token) (l : Level) (ts : List Token) : Except Fault (Expr × List Token) :=
  match l with
  | .primary => bare (Parser.primary stop ts)
  | l => bare (binary stop l.levels ts)

variable {stop : Token} {l m : Level}

theorem Level.read_unary (ts : List Token) :
    Level.unary.read stop ts = bare (Parser.unary stop ts) :=
  bare_binary_nil stop ts

theorem Level.read_eq (hl : l ≠ .primary) (ts : List Token) :
    l.read stop ts = bare (binary stop l.levels ts) := by
  cases l with
  | primary => exact absurd rfl hl
  | _ => rfl

theorem Level.levels_eq (hm : l.tighter? = some m) (hl : l ≠ .unary) :
    l.levels = l.operators :: m.levels := by
  cases l <;> simp only [Level.tighter?, Option.some.injEq, reduceCtorEq] at hm <;>
    first | (subst hm; rfl) | exact absurd rfl hl

/-- A sort with binary operators is read as an operand followed by a chain of them. -/
theorem Level.read_binary (hm : l.tighter? = some m) (hl : l ≠ .unary) (ts : List Token) :
    l.read stop ts = (do
      let (left, rest) ← m.read stop ts
      bare (chain stop l.operators m.levels left rest)) := by
  have hlp : l ≠ .primary := by
    rintro rfl
    cases hm
  rw [Level.read_eq hlp, Level.levels_eq hm hl, bare_binary_cons,
    Level.read_eq (Level.tighter_ne_primary hm hl)]

/-! ### Expressions -/

/-- On fewer than `n` tokens, what is read as a sort of expression derives as one. -/
def SoundBelow (stop : Token) (l : Level) (n : Nat) : Prop :=
  ∀ ts e rest, ts.length < n → l.read stop ts = .ok (e, rest) →
    ∃ used, ts = used ++ rest ∧ Expression l used e ∧ Fits used

theorem expect_sound {what : Wanted} {ts rest : List Token} {t : Token}
    (h : bare (expect stop what ts) = .ok (t, rest)) : ts = t :: rest ∧ t.kind = what.kind := by
  cases ts with
  | nil => cases h
  | cons u us =>
    rw [bare_expect_cons] at h
    split at h
    · next hk =>
      cases h
      exact ⟨rfl, hk⟩
    · cases h

theorem soundBelow_primary {n : Nat} (ih : SoundBelow stop .bitwiseOr n) :
    SoundBelow stop .primary (n + 1) := by
  intro ts e rest hlen h
  change bare (primary stop ts) = .ok (e, rest) at h
  cases ts with
  | nil => rw [bare_primary_nil] at h; cases h
  | cons t ts =>
    by_cases hi : t.kind = .integer
    · rw [bare_primary_integer stop hi] at h
      split at h
      · next v hv =>
        cases h
        refine ⟨[t], rfl, ?_, fits_cons.mpr ⟨fun _ => ⟨v, hv⟩, fits_nil⟩⟩
        have := Expression.literal hi
        rwa [hv] at this
      · cases h
    · by_cases hp : t.kind = .leftParen
      -- The induction hypothesis is about fewer tokens: the parenthesis is gone.
      · rw [bare_primary_leftParen stop hp] at h
        obtain ⟨⟨e', rest₁⟩, h₁, h⟩ := bind_eq_ok_iff.mp h
        obtain ⟨⟨rparen, rest₂⟩, h₂, h⟩ := bind_eq_ok_iff.mp h
        cases h
        obtain ⟨used, rfl, he, hfit⟩ := ih ts e rest₁ (by simpa using hlen) h₁
        obtain ⟨rfl, hr⟩ := expect_sound h₂
        refine ⟨t :: used ++ [rparen], by simp, .parens hp hr he, ?_⟩
        rw [List.cons_append, fits_cons_of_ne hi, fits_append, fits_cons_kind hr rfl]
        exact ⟨hfit, fits_nil⟩
      · obtain ⟨fault, hfault⟩ := primary_error stop hi hp ts
        rw [hfault] at h
        cases h

theorem isUnary_iff {k : Token.Kind} : isUnary k = true ↔ k ∈ signs := by
  cases k <;> simp [isUnary, signs]

theorem Level.operators_subset (l : Level) : l.operators ⊆ operatorLevels.flatten := by
  cases l <;> decide

theorem Expression.grammatical {l : Level} {ts : List Token} {e : Expr} (h : Expression l ts e) :
    e.Grammatical := by
  induction h with
  | tighter hm h ih => exact ih
  | join hm hop hleft hright ihl ihr => exact ⟨Level.operators_subset _ hop, ihl, ihr⟩
  | sign hop h ih => exact ⟨isUnary_iff.mpr hop, ih⟩
  | literal ht => trivial
  | parens hl hr h ih => exact ih

theorem soundBelow_unary {n : Nat} (ih : SoundBelow stop .unary n)
    (hprimary : SoundBelow stop .primary (n + 1)) : SoundBelow stop .unary (n + 1) := by
  intro ts e rest hlen h
  rw [Level.read_unary] at h
  by_cases hs : ∀ t ∈ ts.head?, isUnary t.kind = false
  · rw [bare_unary_operand stop hs] at h
    obtain ⟨used, hts, he, hfit⟩ := hprimary ts e rest hlen h
    exact ⟨used, hts, .tighter rfl he, hfit⟩
  · cases ts with
    | nil => simp at hs
    | cons t ts =>
      have ht : isUnary t.kind = true := by simpa using hs
      rw [bare_unary_sign stop ht, ← Level.read_unary] at h
      obtain ⟨⟨e', rest'⟩, h', h⟩ := bind_eq_ok_iff.mp h
      cases h
      have hsign : t.kind ∈ signs := isUnary_iff.mp ht
      obtain ⟨used, rfl, he, hfit⟩ := ih ts e' rest (by simpa using hlen) h'
      exact ⟨t :: used, rfl, .sign hsign he, (fits_cons_of_ne (signs_class hsign).2.2).mpr hfit⟩

/-- A chain extends the expression on its left by the tokens it uses up. The induction is on a bound
for the number of tokens. -/
theorem chain_sound {n : Nat} (hm : l.tighter? = some m) (hl : l ≠ .unary)
    (ih : SoundBelow stop m n) (k : Nat) : ∀ ts left before e rest, ts.length ≤ k → ts.length < n →
      Expression l before left → Fits before →
      bare (chain stop l.operators m.levels left ts) = .ok (e, rest) →
      ∃ used, ts = used ++ rest ∧ Expression l (before ++ used) e ∧ Fits (before ++ used) := by
  induction k with
  | zero =>
    intro ts left before e rest hk _ hleft hfit h
    obtain rfl : ts = [] := List.eq_nil_of_length_eq_zero (by omega)
    rw [bare_chain_stop stop (by simp)] at h
    cases h
    exact ⟨[], rfl, by simpa using hleft, by simpa using hfit⟩
  | succ k ihk =>
    intro ts left before e rest hk hn hleft hfit h
    -- The chain stops at a token that is no operator of its level.
    by_cases hs : ∀ t ∈ ts.head?, t.kind ∉ l.operators
    · rw [bare_chain_stop stop hs] at h
      cases h
      exact ⟨[], rfl, by simpa using hleft, by simpa using hfit⟩
    · cases ts with
      | nil => simp at hs
      | cons t ts =>
        have ht : t.kind ∈ l.operators := by simpa using hs
        rw [bare_chain_operator stop ht, ← Level.read_eq (Level.tighter_ne_primary hm hl)] at h
        obtain ⟨⟨right, rest₁⟩, h₁, h₂⟩ := bind_eq_ok_iff.mp h
        rw [List.length_cons] at hk hn
        obtain ⟨used₁, rfl, hright, hfit₁⟩ := ih ts right rest₁ (by omega) h₁
        rw [List.length_append] at hk hn
        have hti : t.kind ≠ .integer := (Level.operators_class ht).2.2
        -- The joined expression is the new left side for the rest of the chain.
        obtain ⟨used₂, rfl, he, hfit₂⟩ :=
          ihk rest₁ _ (before ++ t :: used₁) e rest (by omega) (by omega)
            (.join hm ht hleft hright)
            (fits_append.mpr ⟨hfit, (fits_cons_of_ne hti).mpr hfit₁⟩) h₂
        exact ⟨t :: used₁ ++ used₂, by simp, by simpa using he, by simpa using hfit₂⟩

theorem soundBelow_binary {n : Nat} (hm : l.tighter? = some m) (hl : l ≠ .unary)
    (ih : SoundBelow stop m n) : SoundBelow stop l n := by
  intro ts e rest hlen h
  rw [Level.read_binary hm hl] at h
  obtain ⟨⟨left, rest₁⟩, h₁, h₂⟩ := bind_eq_ok_iff.mp h
  obtain ⟨used₁, rfl, hleft, hfit₁⟩ := ih ts left rest₁ hlen h₁
  rw [List.length_append] at hlen
  obtain ⟨used₂, rfl, he, hfit₂⟩ :=
    chain_sound hm hl ih rest₁.length rest₁ left used₁ e rest (Nat.le_refl _) (by omega)
      (.tighter hm hleft) hfit₁ h₂
  exact ⟨used₁ ++ used₂, by simp, he, hfit₂⟩

theorem soundBelow (n : Nat) : ∀ l, SoundBelow stop l n := by
  induction n with
  | zero =>
    intro l ts e rest hlen
    exact absurd hlen (Nat.not_lt_zero _)
  | succ n ih =>
    have h₇ : SoundBelow stop .primary (n + 1) := soundBelow_primary (ih .bitwiseOr)
    have h₆ : SoundBelow stop .unary (n + 1) := soundBelow_unary (ih .unary) h₇
    have h₅ : SoundBelow stop .multiplicative (n + 1) := soundBelow_binary rfl (by decide) h₆
    have h₄ : SoundBelow stop .additive (n + 1) := soundBelow_binary rfl (by decide) h₅
    have h₃ : SoundBelow stop .shift (n + 1) := soundBelow_binary rfl (by decide) h₄
    have h₂ : SoundBelow stop .bitwiseAnd (n + 1) := soundBelow_binary rfl (by decide) h₃
    have h₁ : SoundBelow stop .bitwiseXor (n + 1) := soundBelow_binary rfl (by decide) h₂
    have h₀ : SoundBelow stop .bitwiseOr (n + 1) := soundBelow_binary rfl (by decide) h₁
    intro l
    cases l <;> assumption

/-- An expression that is read and folded derives, fits and has the value it is given. -/
theorem folded_sound {ts rest : List Token} {e : Expr} {v : Word}
    (h : bare (folded stop ts) = .ok ((e, v), rest)) :
    ∃ used, ts = used ++ rest ∧ Expression .bitwiseOr used e ∧ Fits used ∧ e.fold = .ok v := by
  rw [bare_folded] at h
  obtain ⟨⟨e', rest'⟩, he, h⟩ := bind_eq_ok_iff.mp h
  obtain ⟨v', hv, h⟩ := bind_eq_ok_iff.mp h
  cases h
  obtain ⟨used, hts, hexp, hfit⟩ := soundBelow _ .bitwiseOr ts e rest (Nat.lt_succ_self _) he
  exact ⟨used, hts, hexp, hfit, hv⟩

/-! ### Statements -/

theorem statement_sound {ts rest : List Token} {s : Stmt}
    (h : bare (statement stop ts) = .ok (s, rest)) :
    ∃ used, ts = used ++ rest ∧ Statement used s ∧ Fits used ∧ s.Folds := by
  obtain ⟨t, more, rfl, ⟨ht, paren, args, rfl, hp⟩ | ht⟩ := statement_ok_cases stop h
  · rw [bare_statement_call stop ht hp] at h
    obtain ⟨⟨c, rest'⟩, hc, h'⟩ := bind_eq_ok_iff.mp h
    cases h'
    -- A call has an argument unless the parenthesis is closed at once.
    by_cases hr : (peek stop args).kind = .rightParen
    · rw [bare_callRest_empty stop t hr] at hc
      obtain ⟨⟨rparen, rest₁⟩, h₁, g₁⟩ := bind_eq_ok_iff.mp hc
      obtain ⟨⟨semi, rest₂⟩, h₂, g₂⟩ := bind_eq_ok_iff.mp g₁
      cases g₂
      obtain ⟨rfl, hk₁⟩ := expect_sound h₁
      obtain ⟨rfl, hk₂⟩ := expect_sound h₂
      refine ⟨[t, paren, rparen, semi], rfl, .call ht hp hk₁ hk₂, ?_, fun e he => by cases he⟩
      rw [fits_cons_kind ht rfl, fits_cons_kind hp rfl, fits_cons_kind hk₁ rfl, fits_cons_kind hk₂ rfl]
      exact fits_nil
    · rw [bare_callRest_argument stop t hr] at hc
      obtain ⟨⟨⟨e, v⟩, rest₀⟩, h₀, g₀⟩ := bind_eq_ok_iff.mp hc
      dsimp only at g₀
      split at g₀
      · cases g₀
      · obtain ⟨⟨rparen, rest₁⟩, h₁, g₁⟩ := bind_eq_ok_iff.mp g₀
        obtain ⟨⟨semi, rest₂⟩, h₂, g₂⟩ := bind_eq_ok_iff.mp g₁
        cases g₂
        obtain ⟨used, rfl, he, hfit, hv⟩ := folded_sound h₀
        obtain ⟨rfl, hk₁⟩ := expect_sound h₁
        obtain ⟨rfl, hk₂⟩ := expect_sound h₂
        -- The statement carries the value that its argument was folded to.
        refine ⟨t :: paren :: used ++ [rparen, semi], by simp, ?_, ?_, ?_⟩
        · rw [← Expr.value_of_fold hv]
          exact .callWith ht hp hk₁ hk₂ he
        · rw [List.cons_append, List.cons_append, fits_cons_kind ht rfl, fits_cons_kind hp rfl, fits_append,
            fits_cons_kind hk₁ rfl, fits_cons_kind hk₂ rfl]
          exact ⟨hfit, fits_nil⟩
        · intro e' he'
          cases he'
          exact ⟨v, hv⟩
  · rw [bare_statement_expr stop ht] at h
    obtain ⟨⟨⟨e, v⟩, rest₀⟩, h₀, g₀⟩ := bind_eq_ok_iff.mp h
    obtain ⟨⟨semi, rest₁⟩, h₁, g₁⟩ := bind_eq_ok_iff.mp g₀
    cases g₁
    obtain ⟨used, hused, he, hfit, hv⟩ := folded_sound h₀
    obtain ⟨rfl, hk₁⟩ := expect_sound h₁
    obtain ⟨first, ts, rfl, -⟩ := he.starts
    obtain ⟨rfl, rfl⟩ := List.cons.inj hused
    refine ⟨t :: ts ++ [semi], by simp, ?_, ?_, ?_⟩
    · rw [← Expr.value_of_fold hv]
      exact .expr hk₁ he
    · exact fits_append.mpr ⟨hfit, (fits_cons_kind hk₁ rfl).mpr fits_nil⟩
    · intro e' he'
      cases he'
      exact ⟨v, hv⟩

/-- The induction is on a bound for the number of tokens, as for chains. -/
theorem statements_sound {name : Text} (k : Nat) : ∀ ts ss rest, ts.length ≤ k →
    bare (statements stop name ts) = .ok (ss, rest) →
    ∃ used, ts = used ++ rest ∧ Sequence Statement used ss ∧ Fits used ∧ ∀ s ∈ ss, s.Folds := by
  induction k with
  | zero =>
    intro ts ss rest hk h
    obtain rfl : ts = [] := List.eq_nil_of_length_eq_zero (by omega)
    rcases statements_ok_cases stop h with hb | ⟨hb, he, ha⟩
    · rw [bare_statements_end stop name hb] at h
      cases h
      exact ⟨[], rfl, .nil, fits_nil, by simp⟩
    · rw [bare_statements_more stop name hb he ha] at h
      cases h
  | succ k ih =>
    intro ts ss rest hk h
    rcases statements_ok_cases stop h with hb | ⟨hb, he, ha⟩
    · rw [bare_statements_end stop name hb] at h
      cases h
      exact ⟨[], rfl, .nil, fits_nil, by simp⟩
    · rw [bare_statements_more stop name hb he ha] at h
      obtain ⟨⟨s, rest₁⟩, h₁, g₁⟩ := bind_eq_ok_iff.mp h
      obtain ⟨⟨ss', rest₂⟩, h₂, g₂⟩ := bind_eq_ok_iff.mp g₁
      cases g₂
      -- A statement takes at least one token, so the bound goes down.
      have hlt : rest₁.length < ts.length := prop_of_bare h₁
      obtain ⟨used₁, rfl, hs, hfit₁, hfold⟩ := statement_sound h₁
      obtain ⟨used₂, rfl, hss, hfit₂, hfolds⟩ := ih rest₁ ss' rest (by omega) h₂
      refine ⟨used₁ ++ used₂, by simp, .cons hs hss, fits_append.mpr ⟨hfit₁, hfit₂⟩, ?_⟩
      intro s' hs'
      rcases List.mem_cons.mp hs' with rfl | hs'
      · exact hfold
      · exact hfolds s' hs'

/-! ### Declarations -/

theorem dropSemicolon_sound (ts : List Token) : ∃ semi, ts = semi ++ dropSemicolon ts ∧
    (semi = [] ∨ ∃ s, s.kind = .semicolon ∧ semi = [s]) := by
  cases ts with
  | nil => exact ⟨[], rfl, Or.inl rfl⟩
  | cons t more =>
    by_cases ht : t.kind = .semicolon
    · exact ⟨[t], by simp [dropSemicolon, ht], Or.inr ⟨t, ht, rfl⟩⟩
    · exact ⟨[], by simp [dropSemicolon, ht], Or.inl rfl⟩

theorem emptyParameters_sound (ts : List Token) : ∃ params, ts = params ++ (emptyParameters ts).val ∧
    (params = [] ∨ ∃ v, v.kind = .void ∧ params = [v]) := by
  unfold emptyParameters
  split
  · next v paren rest =>
    split
    · next h => exact ⟨[v], rfl, Or.inr ⟨v, h.1, rfl⟩⟩
    · exact ⟨[], rfl, Or.inl rfl⟩
  · exact ⟨[], rfl, Or.inl rfl⟩

theorem asmBody_sound {ts rest : List Token} {b : Body} {key : Token} (hkey : key.kind = .asm)
    (h : bare (asmBody stop ts) = .ok (b, rest)) :
    ∃ used, ts = used ++ rest ∧ FunctionBody (key :: used) b ∧ Fits used ∧
      ∃ text pos, b = .asm text pos := by
  rw [bare_asmBody] at h
  obtain ⟨⟨lbrace, rest₁⟩, h₁, g₁⟩ := bind_eq_ok_iff.mp h
  obtain ⟨⟨text, rest₂⟩, h₂, g₂⟩ := bind_eq_ok_iff.mp g₁
  obtain ⟨⟨rbrace, rest₃⟩, h₃, g₃⟩ := bind_eq_ok_iff.mp g₂
  obtain ⟨rfl, hk₁⟩ := expect_sound h₁
  obtain ⟨rfl, hk₂⟩ := expect_sound h₂
  obtain ⟨rfl, hk₃⟩ := expect_sound h₃
  dsimp only at g₃
  split at g₃
  · cases g₃
    obtain ⟨semi, hsemi, hs⟩ := dropSemicolon_sound rest₃
    refine ⟨lbrace :: text :: rbrace :: semi, by simp [← hsemi],
      .asm hkey hk₁ hk₂ hk₃ hs, ?_, text.lexeme, text.pos, rfl⟩
    rw [fits_cons_kind hk₁ rfl, fits_cons_kind hk₂ rfl, fits_cons_kind hk₃ rfl]
    rcases hs with rfl | ⟨s, hs, rfl⟩
    · exact fits_nil
    · rw [fits_cons_kind hs rfl]
      exact fits_nil
  · cases g₃

theorem body_sound {name : Text} {ts rest : List Token} {b : Body}
    (h : bare (body stop name ts) = .ok (b, rest)) :
    ∃ used, ts = used ++ rest ∧ FunctionBody used b ∧ Fits used ∧
      ∀ ss, b = .stmts ss → ∀ s ∈ ss, s.Folds := by
  by_cases ha : ∀ t ∈ ts.head?, t.kind ≠ .asm
  · rw [bare_body_stmts stop name ha] at h
    obtain ⟨⟨ss, rest'⟩, hss, h'⟩ := bind_eq_ok_iff.mp h
    cases h'
    obtain ⟨used, hts, hseq, hfit, hfolds⟩ := statements_sound _ ts ss rest (Nat.le_refl _) hss
    refine ⟨used, hts, .stmts hseq, hfit, ?_⟩
    intro ss' hss'
    cases hss'
    exact hfolds
  · cases ts with
    | nil => simp at ha
    | cons t ts =>
      have ht : t.kind = .asm := by simpa using ha
      rw [bare_body_asm stop name ht] at h
      obtain ⟨used, rfl, hb, hfit, text, pos, rfl⟩ := asmBody_sound ht h
      refine ⟨t :: used, rfl, hb, (fits_cons_kind ht rfl).mpr hfit, ?_⟩
      intro ss hss
      cases hss

theorem isType_iff {k : Token.Kind} : k.isType = true ↔ k ∈ [.void, .int, .char] := by
  cases k <;> simp [Token.Kind.isType]

/-- All integers of a function stand in its body. -/
theorem fits_function {type name lparen rparen lbrace rbrace : Token} {params ts : List Token}
    (htype : type.kind ∈ [.void, .int, .char]) (hname : name.kind = .identifier)
    (hl : lparen.kind = .leftParen) (hparams : params = [] ∨ ∃ v, v.kind = .void ∧ params = [v])
    (hr : rparen.kind = .rightParen) (hlb : lbrace.kind = .leftBrace) (hrb : rbrace.kind = .rightBrace) :
    Fits (type :: name :: lparen :: params ++ rparen :: lbrace :: ts ++ [rbrace]) ↔ Fits ts := by
  have hti : type.kind ≠ .integer := by
    intro hi
    simp [hi] at htype
  have hparams' : Fits params := by
    rcases hparams with rfl | ⟨v, hv, rfl⟩
    · exact fits_nil
    · exact (fits_cons_kind hv rfl).mpr fits_nil
  simp only [List.cons_append, List.append_assoc]
  rw [fits_cons_of_ne hti, fits_cons_kind hname rfl, fits_cons_kind hl rfl, fits_append,
    fits_cons_kind hr rfl, fits_cons_kind hlb rfl, fits_append, fits_cons_kind hrb rfl]
  simp [hparams', fits_nil]

theorem declaration_sound {ts rest : List Token} {d : Decl}
    (h : bare (declaration stop ts) = .ok (d, rest)) :
    ∃ used, ts = used ++ rest ∧ Declaration used d ∧ Fits used ∧ d.Folds := by
  cases ts with
  | nil => cases h
  | cons type ts =>
    by_cases ht : type.kind.isType = true
    · rw [bare_declaration stop ht] at h
      obtain ⟨⟨name, rest₁⟩, h₁, g₁⟩ := bind_eq_ok_iff.mp h
      obtain ⟨⟨lparen, rest₂⟩, h₂, g₂⟩ := bind_eq_ok_iff.mp g₁
      obtain ⟨rfl, hk₁⟩ := expect_sound h₁
      obtain ⟨rfl, hk₂⟩ := expect_sound h₂
      -- An empty list of parameters may be written as a word, which is one of the tokens that are used.
      obtain ⟨params, hparams, hvoid⟩ := emptyParameters_sound rest₂
      dsimp only at g₂
      split at g₂
      · obtain ⟨⟨rparen, rest₃⟩, h₃, g₃⟩ := bind_eq_ok_iff.mp g₂
        obtain ⟨⟨lbrace, rest₄⟩, h₄, g₄⟩ := bind_eq_ok_iff.mp g₃
        obtain ⟨⟨b, rest₅⟩, h₅, g₅⟩ := bind_eq_ok_iff.mp g₄
        obtain ⟨⟨rbrace, rest₆⟩, h₆, g₆⟩ := bind_eq_ok_iff.mp g₅
        cases g₆
        obtain ⟨hrest₂, hk₃⟩ := expect_sound h₃
        obtain ⟨rfl, hk₄⟩ := expect_sound h₄
        obtain ⟨used, rfl, hb, hfit, hfolds⟩ := body_sound h₅
        obtain ⟨rfl, hk₆⟩ := expect_sound h₆
        rw [hrest₂] at hparams
        refine ⟨type :: name :: lparen :: params ++ rparen :: lbrace :: used ++ [rbrace], ?_,
          .function (isType_iff.mp ht) hk₁ hk₂ hvoid hk₃ hk₄ hk₆ hb, ?_, ?_⟩
        · rw [hparams]
          simp
        · exact (fits_function (isType_iff.mp ht) hk₁ hk₂ hvoid hk₃ hk₄ hk₆).mpr hfit
        · rw [Decl.folds_iff]
          cases b with
          | asm text pos => exact fun s hs => by cases hs
          | stmts ss => exact hfolds ss rfl
      · cases g₂
    · rw [declaration, if_neg ht] at h
      cases h

/-- Everything up to the end token derives as declarations, which all enter the table. -/
theorem declarations_sound (k : Nat) : ∀ ts table table' last, ts.length ≤ k →
    declarations stop table ts = .ok (table', last) →
    ∃ used ds rest, ts = used ++ rest ∧ (peek stop rest).kind = .eof ∧ Sequence Declaration used ds ∧
      Fits used ∧ (∀ d ∈ ds, d.Folds) ∧ table.enter ds = .ok table' := by
  induction k with
  | zero =>
    intro ts table table' last hk h
    obtain rfl : ts = [] := List.eq_nil_of_length_eq_zero (by omega)
    by_cases he : (peek stop []).kind = .eof
    · rw [declarations_end stop he] at h
      cases h
      exact ⟨[], [], [], rfl, he, .nil, fits_nil, by simp, rfl⟩
    · rw [declarations_more stop he] at h
      cases h
  | succ k ih =>
    intro ts table table' last hk h
    by_cases he : (peek stop ts).kind = .eof
    · rw [declarations_end stop he] at h
      cases h
      exact ⟨[], [], ts, rfl, he, .nil, fits_nil, by simp, rfl⟩
    · rw [declarations_more stop he] at h
      obtain ⟨⟨d, rest₁⟩, h₁, g₁⟩ := bind_eq_ok_iff.mp h
      obtain ⟨table₁, h₂, g₂⟩ := bind_eq_ok_iff.mp g₁
      -- A declaration takes at least one token, so the bound goes down.
      have hlt : rest₁.length < ts.length := prop_of_bare h₁
      obtain ⟨used₁, rfl, hd, hfit₁, hfold⟩ := declaration_sound h₁
      obtain ⟨used₂, ds, rest, rfl, hend, hds, hfit₂, hfolds, henter⟩ :=
        ih rest₁ table₁ table' last (by omega) g₂
      refine ⟨used₁ ++ used₂, d :: ds, rest, by simp, hend, .cons hd hds,
        fits_append.mpr ⟨hfit₁, hfit₂⟩, ?_, ?_⟩
      · intro d' hd'
        rcases List.mem_cons.mp hd' with rfl | hd'
        · exact hfold
        · exact hfolds d' hd'
      -- The table takes the declarations in the order they are read in.
      · rw [DeclTable.enter, List.foldlM_cons]
        exact bind_eq_ok_iff.mpr ⟨table₁, h₂, henter⟩

end Grammar

end Pocket

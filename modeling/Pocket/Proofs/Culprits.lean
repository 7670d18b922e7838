import Pocket.Proofs.ParserComplete

/-!
# Operators without a value

An expression has no value exactly if one of its operators is a culprit: both operands have values, and
it divides by zero or shifts by a negative count. Folding stops at the first culprit, operands before
their operator and from left to right, and the fault stands there. Reading and folding an expression
adds nothing to that, as long as its literals fit.
-/

namespace Pocket

open Pocket.Parser Grammar

/-- Why an operator cannot be applied to a right operand. -/
inductive Inapplicable : Token.Kind → Word → EvalCause → Prop where
  | division : Inapplicable .slash 0 .divisionByZero
  | modulo : Inapplicable .percent 0 .moduloByZero
  | shiftLeft {count : Word} (h : count.toInt < 0) : Inapplicable .shiftLeft count .negativeShift
  | shiftRight {count : Word} (h : count.toInt < 0) : Inapplicable .shiftRight count .negativeShift

namespace Expr

variable {e left right : Expr} {op : Token.Kind} {pos : Position} {l r v : Word} {cause : EvalCause}
  {fault : Fault}

/-- An operator whose operands have values that it cannot be applied to. -/
inductive Culprit : Expr → EvalCause → Prop where
  | operator {op : Token.Kind} {left right : Expr} {pos : Position} {l r : Word} {cause : EvalCause}
      (hl : left.fold = .ok l) (hr : right.fold = .ok r) (h : Inapplicable op r cause) :
      Culprit (.binary op left right pos) cause

/-- The fault of the first culprit of an expression, at the position of that operator. -/
def BlamesFirst (e : Expr) (fault : Fault) : Prop :=
  ∃ before culprit after cause, e.nodes = before ++ culprit :: after ∧
    (∀ n ∈ before, ∀ c, ¬n.Culprit c) ∧ culprit.Culprit cause ∧ fault = .eval culprit.pos cause

/-! ### One operator -/

theorem foldUnary_ok (hop : isUnary op = true) (v : Word) : ∃ w, foldUnary op v = .ok w := by
  unfold isUnary at hop
  split at hop
  · exact ⟨_, rfl⟩
  · exact ⟨_, rfl⟩
  · exact ⟨_, rfl⟩
  · cases hop

theorem foldBinary_eq_error_iff (hop : op ∈ operatorLevels.flatten) :
    foldBinary op l r = .error cause ↔ Inapplicable op r cause := by
  constructor
  · intro h
    unfold foldBinary at h
    split at h
    -- Only division, remainder and the two shifts can fail.
    case h_4 =>
      split at h
      · next hr => cases h; exact hr ▸ .division
      · cases h
    case h_5 =>
      split at h
      · next hr => cases h; exact hr ▸ .modulo
      · cases h
    case h_9 =>
      split at h
      · next hr => cases h; exact .shiftLeft hr
      · cases h
    case h_10 =>
      split at h
      · next hr => cases h; exact .shiftRight hr
      · cases h
    case h_11 => simp_all [operatorLevels]
    all_goals cases h
  · intro h
    cases h with
    | division => rfl
    | modulo => rfl
    | shiftLeft h => exact if_pos h
    | shiftRight h => exact if_pos h

theorem fold_unary (hv : right.fold = .ok v) :
    (unary op right pos).fold = (foldUnary op v).mapError (.eval pos) := by
  rw [fold, hv]

theorem fold_binary (hl : left.fold = .ok l) (hr : right.fold = .ok r) :
    (binary op left right pos).fold = (foldBinary op l r).mapError (.eval pos) := by
  rw [fold, hl, hr]

theorem culprit_binary_iff (hl : left.fold = .ok l) (hr : right.fold = .ok r) :
    (binary op left right pos).Culprit cause ↔ Inapplicable op r cause := by
  constructor
  · rintro ⟨-, hr', h⟩
    rw [hr] at hr'
    cases hr'
    exact h
  · exact .operator hl hr

/-! ### The first culprit -/

/-- A part of an expression with no culprit in front of it decides which one is the first. -/
theorem BlamesFirst.within {part : Expr} (h : part.BlamesFirst fault) (front back : List Expr)
    (hnodes : e.nodes = front ++ (part.nodes ++ back)) (hfront : ∀ n ∈ front, ∀ c, ¬n.Culprit c) :
    e.BlamesFirst fault := by
  obtain ⟨before, culprit, after, cause, hpart, hbefore, hculprit, rfl⟩ := h
  refine ⟨front ++ before, culprit, after ++ back, cause, ?_, ?_, hculprit, rfl⟩
  · simp [hnodes, hpart]
  · intro n hn
    rcases List.mem_append.mp hn with hn | hn
    · exact hfront n hn
    · exact hbefore n hn

/-- What folding an expression comes to: a value and no culprit, or the fault of the first one. -/
def Decided (e : Expr) : Prop :=
  ((∃ v, e.fold = .ok v) ∧ ∀ n ∈ e.nodes, ∀ c, ¬n.Culprit c) ∨
    ∃ fault, e.fold = .error fault ∧ e.BlamesFirst fault

theorem decided_literal (value : Word) (text : Text) (pos : Position) :
    (literal value text pos).Decided := by
  refine .inl ⟨⟨value, rfl⟩, fun n hn c hc => ?_⟩
  obtain rfl := List.mem_singleton.mp hn
  cases hc

theorem decided_unary (hop : isUnary op = true) (h : right.Decided) :
    (unary op right pos).Decided := by
  rcases h with ⟨⟨v, hv⟩, hright⟩ | ⟨fault, hfault, hblame⟩
  · obtain ⟨w, hw⟩ := foldUnary_ok hop v
    refine .inl ⟨⟨w, by rw [fold_unary hv, hw]; rfl⟩, fun n hn c hc => ?_⟩
    rcases List.mem_append.mp hn with hn | hn
    · exact hright n hn c hc
    · obtain rfl := List.mem_singleton.mp hn
      cases hc
  · exact .inr ⟨fault, by rw [fold, hfault], hblame.within [] _ rfl (by simp)⟩

theorem decided_binary (hop : op ∈ operatorLevels.flatten) (hleft : left.Decided)
    (hright : right.Decided) : (binary op left right pos).Decided := by
  rcases hleft with ⟨⟨l, hl⟩, hleft⟩ | ⟨fault, hfault, hblame⟩
  · rcases hright with ⟨⟨r, hr⟩, hright⟩ | ⟨fault, hfault, hblame⟩
    · have hoperands : ∀ n ∈ left.nodes ++ right.nodes, ∀ c, ¬n.Culprit c := by
        intro n hn
        rcases List.mem_append.mp hn with hn | hn
        · exact hleft n hn
        · exact hright n hn
      -- Both operands have values, so the operator itself is the only node that may be to blame.
      cases h : foldBinary op l r with
      | error cause =>
        have hculprit := (foldBinary_eq_error_iff hop).mp h
        refine .inr ⟨.eval pos cause, by rw [fold_binary hl hr, h]; rfl, ?_⟩
        exact ⟨_, _, [], cause, rfl, hoperands, .operator hl hr hculprit, rfl⟩
      | ok v =>
        refine .inl ⟨⟨v, by rw [fold_binary hl hr, h]; rfl⟩, fun n hn c hc => ?_⟩
        rcases List.mem_append.mp hn with hn | hn
        · exact hoperands n hn c hc
        · obtain rfl := List.mem_singleton.mp hn
          have hfail : foldBinary op l r = .error c :=
            (foldBinary_eq_error_iff hop).mpr ((culprit_binary_iff hl hr).mp hc)
          rw [h] at hfail
          cases hfail
    -- The left operand is folded first and has no culprit, so those of the right one come next.
    · refine .inr ⟨fault, by rw [fold, hl, hfault], ?_⟩
      exact hblame.within left.nodes _ (List.append_assoc _ _ _) hleft
  · refine .inr ⟨fault, by rw [fold, hfault], ?_⟩
    exact hblame.within [] _ (List.append_assoc _ _ _) (by simp)

theorem Grammatical.decided (h : e.Grammatical) : e.Decided := by
  induction e with
  | literal value text pos => exact decided_literal value text pos
  | unary op right pos ih => exact decided_unary h.1 (ih h.2)
  | binary op left right pos ihl ihr => exact decided_binary h.1 (ihl h.2.1) (ihr h.2.2)

theorem Grammatical.fold_error_iff (h : e.Grammatical) :
    (∃ fault, e.fold = .error fault) ↔ ∃ n ∈ e.nodes, ∃ c, n.Culprit c := by
  rcases h.decided with ⟨⟨v, hv⟩, hnone⟩ | ⟨fault, hfault, hblame⟩
  · constructor
    · rintro ⟨fault, hfault⟩
      rw [hv] at hfault
      cases hfault
    · rintro ⟨n, hn, c, hc⟩
      exact absurd hc (hnone n hn c)
  · obtain ⟨before, culprit, after, cause, hnodes, -, hculprit, -⟩ := hblame
    exact ⟨fun _ => ⟨culprit, by simp [hnodes], cause, hculprit⟩, fun _ => ⟨fault, hfault⟩⟩

theorem Grammatical.blamesFirst (h : e.Grammatical) (hfault : e.fold = .error fault) :
    e.BlamesFirst fault := by
  rcases h.decided with ⟨⟨v, hv⟩, -⟩ | ⟨fault', hfault', hblame⟩
  · rw [hv] at hfault
    cases hfault
  · rw [hfault'] at hfault
    cases hfault
    exact hblame

end Expr

/-! ### Reading and folding -/

theorem folded_eq_error_iff {stop : Token} {ts rest : List Token} {e : Expr} {fault : Fault}
    (h : Expression .bitwiseOr ts e) (hfit : Fits ts) (hrest : Ends .bitwiseOr rest) :
    folded stop (ts ++ rest) = .error fault ↔ e.fold = .error fault := by
  rw [← bare_eq_error_iff, h.folded hfit hrest]
  cases e.fold <;> simp [Except.map]

/-- Folding fails exactly if there is a culprit, and then with the fault of the first one. The same goes
for reading and folding tokens that form an expression, in front of tokens that do not continue it. -/
theorem folding_blames_first :
    (∀ e : Expr, e.Grammatical →
      ((∃ fault, e.fold = .error fault) ↔ ∃ n ∈ e.nodes, ∃ c, n.Culprit c) ∧
      ∀ fault, e.fold = .error fault → e.BlamesFirst fault) ∧
    ∀ (stop : Token) (ts rest : List Token) (e : Expr), Expression .bitwiseOr ts e → Fits ts →
      Ends .bitwiseOr rest →
      ((∃ fault, folded stop (ts ++ rest) = .error fault) ↔ ∃ n ∈ e.nodes, ∃ c, n.Culprit c) ∧
      ∀ fault, folded stop (ts ++ rest) = .error fault → e.BlamesFirst fault := by
  refine ⟨fun e he => ⟨he.fold_error_iff, fun fault => he.blamesFirst⟩, ?_⟩
  intro stop ts rest e hexp hfit hrest
  simp only [folded_eq_error_iff hexp hfit hrest]
  exact ⟨hexp.grammatical.fold_error_iff, fun fault => hexp.grammatical.blamesFirst⟩

/-- The tokens of `1 << -1 | 8 % (0x8000 * 2)`: a negative count, and a product that wraps to zero. -/
def twoCulprits : List Token :=
  [⟨.integer, "1", ⟨1, 1⟩⟩, ⟨.shiftLeft, "<<", ⟨1, 3⟩⟩, ⟨.minus, "-", ⟨1, 6⟩⟩, ⟨.integer, "1", ⟨1, 7⟩⟩,
   ⟨.pipe, "|", ⟨1, 9⟩⟩, ⟨.integer, "8", ⟨1, 11⟩⟩, ⟨.percent, "%", ⟨1, 13⟩⟩,
   ⟨.leftParen, "(", ⟨1, 15⟩⟩, ⟨.integer, "0x8000", ⟨1, 16⟩⟩, ⟨.star, "*", ⟨1, 23⟩⟩,
   ⟨.integer, "2", ⟨1, 25⟩⟩, ⟨.rightParen, ")", ⟨1, 26⟩⟩]

/-- The expression of these tokens. -/
def twoCulpritsExpr : Expr :=
  .binary .pipe
    (.binary .shiftLeft (.literal 1 "1" ⟨1, 1⟩) (.unary .minus (.literal 1 "1" ⟨1, 7⟩) ⟨1, 6⟩) ⟨1, 3⟩)
    (.binary .percent (.literal 8 "8" ⟨1, 11⟩)
      (.binary .star (.literal 0x8000 "0x8000" ⟨1, 16⟩) (.literal 2 "2" ⟨1, 25⟩) ⟨1, 23⟩) ⟨1, 13⟩)
    ⟨1, 9⟩

theorem folding_blames_first_of_two :
    twoCulpritsExpr.Grammatical ∧ Expression .bitwiseOr twoCulprits twoCulpritsExpr ∧
      twoCulpritsExpr.BlamesFirst (.eval ⟨1, 3⟩ .negativeShift) ∧
      ∃ fault, folded ⟨.eof, [], ⟨1, 28⟩⟩ (twoCulprits ++ [⟨.semicolon, ";", ⟨1, 27⟩⟩]) = .error fault := by
  have hshift : Expression .shift (twoCulprits.take 4) _ :=
    @Expression.join _ _ [_] _ _ _ _ rfl (by decide)
      (.tighter rfl (.tighter rfl (.tighter rfl (.tighter rfl (.literal rfl)))))
      (.tighter rfl (.tighter rfl (.sign (by decide) (.tighter rfl (.literal rfl)))))
  have hproduct : Expression .multiplicative ((twoCulprits.drop 8).take 3) _ :=
    @Expression.join _ _ [_] _ _ _ _ rfl (by decide) (.tighter rfl (.tighter rfl (.literal rfl)))
      (.tighter rfl (.literal rfl))
  have hdivisor : Expression .primary (twoCulprits.drop 7) _ :=
    .parens rfl rfl (.tighter rfl (.tighter rfl (.tighter rfl (.tighter rfl (.tighter rfl hproduct)))))
  have hmodulo : Expression .multiplicative (twoCulprits.drop 5) _ :=
    @Expression.join _ _ [_] _ _ _ _ rfl (by decide) (.tighter rfl (.tighter rfl (.literal rfl)))
      (.tighter rfl hdivisor)
  have hexp : Expression .bitwiseOr twoCulprits twoCulpritsExpr :=
    @Expression.join _ _ (twoCulprits.take 4) _ _ _ _ rfl (by decide)
      (.tighter rfl (.tighter rfl (.tighter rfl hshift)))
      (.tighter rfl (.tighter rfl (.tighter rfl (.tighter rfl hmodulo))))
  have hblame := (folding_blames_first.1 twoCulpritsExpr (by decide)).2 _ rfl
  have hfit : Fits twoCulprits := hexp.literalsFit_iff.mp (by decide)
  refine ⟨by decide, hexp, hblame, ?_⟩
  exact (folding_blames_first.2 _ _ _ _ hexp hfit (ends_of_kind rfl _ (by decide))).1.mpr
    ((folding_blames_first.1 twoCulpritsExpr (by decide)).1.mp ⟨_, rfl⟩)

end Pocket

import Mathlib
import Pocket.Proofs.Culprits

/-!
# Folding is arithmetic modulo 2¹⁶

`Expr.exact?` evaluates an expression over all integers: literals are unsigned, the bitwise operators
work on infinite two's complement, division and remainder go toward zero, and a shift multiplies by a
power of two or divides by it and rounds down. The word of an integer is the integer modulo 2¹⁶. Taking
words commutes with `-`, `+`, `~`, `*`, `&`, `|` and `^`, and with the other operators as long as the
operands are signed numbers of sixteen bits, so folding an expression gives the word of its exact value.
-/

namespace Pocket

/-! ### The word of an integer -/

/-- A signed number of sixteen bits. -/
def Signed (z : Int) : Prop :=
  -32768 ≤ z ∧ z ≤ 32767

instance decidableSigned (z : Int) : Decidable (Signed z) :=
  inferInstanceAs (Decidable (_ ∧ _))

namespace Word

/-- A word read as a signed number is the only signed number congruent to an integer modulo 2¹⁶. -/
structure Wraps (v : Word) (z : Int) : Prop where
  signed : Signed v.toInt
  congr : v.toInt ≡ z [ZMOD 65536]
  unique : ∀ w, Signed w → w ≡ z [ZMOD 65536] → w = v.toInt

theorem signed_toInt (v : Word) : Signed v.toInt := by
  have hlow := v.le_toInt
  have hhigh := v.toInt_lt
  constructor <;> omega

theorem toInt_ofInt_of_signed {z : Int} (hz : Signed z) : (BitVec.ofInt 16 z).toInt = z :=
  BitVec.toInt_ofInt_eq_self (by decide) hz.1 (Int.lt_of_le_sub_one hz.2)

theorem wraps_ofInt (z : Int) : Wraps (BitVec.ofInt 16 z) z := by
  have hcongr : (BitVec.ofInt 16 z).toInt ≡ z [ZMOD 65536] := by
    rw [BitVec.toInt_ofInt]
    exact Int.bmod_emod
  refine ⟨signed_toInt _, hcongr, fun w hw hwz => ?_⟩
  have heq : w % 65536 = (BitVec.ofInt 16 z).toInt % 65536 := hwz.trans hcongr.symm
  obtain ⟨hlow, hhigh⟩ := signed_toInt (BitVec.ofInt 16 z)
  obtain ⟨hlow', hhigh'⟩ := hw
  omega

/-- The bits of a word are the low bits of the integer. -/
theorem getLsbD_ofInt (z : Int) (i : Nat) (hi : i < 16) :
    (BitVec.ofInt 16 z).getLsbD i = z.testBit i := by
  cases z with
  | ofNat n => rw [Int.ofNat_eq_natCast, BitVec.ofInt_natCast, BitVec.getLsbD_ofNat]; simp [hi, Int.testBit]
  | negSucc n =>
    rw [BitVec.ofInt_negSucc_eq_not_ofNat, BitVec.getLsbD_not, BitVec.getLsbD_ofNat]
    simp [hi, Int.testBit]

/-- Integers with the same low bits have the same word. -/
theorem eq_ofInt_of_bits {v : Word} {z : Int} (h : ∀ i < 16, v.getLsbD i = z.testBit i) :
    v = BitVec.ofInt 16 z := by
  apply BitVec.eq_of_getLsbD_eq
  intro i hi
  rw [h i hi, getLsbD_ofInt z i hi]

theorem ofInt_sub (x y : Int) : BitVec.ofInt 16 x - BitVec.ofInt 16 y = BitVec.ofInt 16 (x - y) := by
  rw [BitVec.sub_eq_add_neg, ← BitVec.ofInt_neg, ← BitVec.ofInt_add, Int.sub_eq_add_neg]

theorem ofInt_shiftLeft (x : Int) (n : Nat) :
    BitVec.ofInt 16 x <<< n = BitVec.ofInt 16 (x * 2 ^ n) := by
  have hpow : BitVec.twoPow 16 n = BitVec.ofInt 16 (2 ^ n) := by
    rw [← Nat.cast_two, ← Nat.cast_pow, BitVec.ofInt_natCast]
    apply BitVec.eq_of_toNat_eq
    rw [BitVec.toNat_twoPow, BitVec.toNat_ofNat]
  rw [BitVec.shiftLeft_eq_mul_twoPow, hpow, ← BitVec.ofInt_mul]

theorem toInt_sshiftRight_eq_fdiv (v : Word) (n : Nat) :
    (v.sshiftRight n).toInt = v.toInt.fdiv (2 ^ n) := by
  rw [BitVec.toInt_sshiftRight, Int.shiftRight_eq_div_pow, Nat.cast_pow, Nat.cast_two,
    Int.fdiv_eq_ediv_of_nonneg _ (by positivity)]

theorem ofInt_sshiftRight {x : Int} (hx : Signed x) (n : Nat) :
    (BitVec.ofInt 16 x).sshiftRight n = BitVec.ofInt 16 (x.fdiv (2 ^ n)) := by
  rw [← BitVec.ofInt_toInt (x := BitVec.sshiftRight _ n), toInt_sshiftRight_eq_fdiv,
    toInt_ofInt_of_signed hx]

theorem ofInt_sdiv {x y : Int} (hx : Signed x) (hy : Signed y) :
    (BitVec.ofInt 16 x).sdiv (BitVec.ofInt 16 y) = BitVec.ofInt 16 (x.tdiv y) := by
  apply BitVec.eq_of_toInt_eq
  rw [BitVec.toInt_sdiv, toInt_ofInt_of_signed hx, toInt_ofInt_of_signed hy, BitVec.toInt_ofInt]

theorem ofInt_srem {x y : Int} (hx : Signed x) (hy : Signed y) :
    (BitVec.ofInt 16 x).srem (BitVec.ofInt 16 y) = BitVec.ofInt 16 (x.tmod y) := by
  rw [← BitVec.ofInt_toInt (x := BitVec.srem _ _), BitVec.toInt_srem, toInt_ofInt_of_signed hx,
    toInt_ofInt_of_signed hy]

/-- A signed number that is not zero has a word that is not zero. -/
theorem ofInt_ne_zero {y : Int} (hy : Signed y) (h : y ≠ 0) : BitVec.ofInt 16 y ≠ 0 := by
  intro hzero
  apply h
  rw [← toInt_ofInt_of_signed hy, hzero]
  rfl

/-- A count that is not negative is the same read as a signed or as an unsigned number. -/
theorem toNat_ofInt_of_signed {y : Int} (hy : Signed y) (h : 0 ≤ y) :
    (BitVec.ofInt 16 y).toNat = y.toNat := by
  rw [BitVec.toNat_ofInt, Int.emod_eq_of_lt h]
  have := hy.2
  omega

end Word

namespace Expr

open Pocket.Parser

variable {e left right : Expr} {op : Token.Kind} {pos : Position} {x y z : Int}

/-! ### Exact values -/

/-- The exact value of a unary operator. -/
def exactUnary (op : Token.Kind) (x : Int) : Option Int :=
  match op with
  | .minus => some (-x)
  | .plus => some x
  | .tilde => some x.lnot
  | _ => none

/-- The exact value of a binary operator. A quotient by zero and a shift by a negative count have none. -/
def exactBinary (op : Token.Kind) (x y : Int) : Option Int :=
  match op with
  | .plus => some (x + y)
  | .minus => some (x - y)
  | .star => some (x * y)
  | .slash => if y = 0 then none else some (x.tdiv y)
  | .percent => if y = 0 then none else some (x.tmod y)
  | .amp => some (x.land y)
  | .pipe => some (x.lor y)
  | .caret => some (x.xor y)
  | .shiftLeft => if y < 0 then none else some (x * 2 ^ y.toNat)
  | .shiftRight => if y < 0 then none else some (x.fdiv (2 ^ y.toNat))
  | _ => none

/-- The value of an expression over all integers. -/
def exactValue? : Expr → Option Int
  | .literal value _ _ => some value.toNat
  | .unary op right _ => right.exactValue?.bind (exactUnary op)
  | .binary op left right _ =>
    left.exactValue?.bind fun x => right.exactValue?.bind (exactBinary op x)

/-- The binary operators that words share with the integers whatever their operands are. -/
def modular : List Token.Kind :=
  [.plus, .minus, .star, .amp, .pipe, .caret]

/-- Every binary operator of an expression is one that words share with the integers. -/
def Modular : Expr → Prop
  | .literal _ _ _ => True
  | .unary op right _ => isUnary op = true ∧ right.Modular
  | .binary op left right _ => op ∈ modular ∧ left.Modular ∧ right.Modular

instance decidableModular : (e : Expr) → Decidable e.Modular
  | .literal _ _ _ => inferInstanceAs (Decidable True)
  | .unary op right _ =>
    have := decidableModular right
    inferInstanceAs (Decidable (isUnary op = true ∧ right.Modular))
  | .binary op left right _ =>
    have := decidableModular left
    have := decidableModular right
    inferInstanceAs (Decidable (op ∈ modular ∧ left.Modular ∧ right.Modular))

/-! ### One operator -/

theorem foldUnary_exact (h : exactUnary op x = some z) :
    foldUnary op (BitVec.ofInt 16 x) = .ok (BitVec.ofInt 16 z) := by
  unfold exactUnary at h
  split at h
  · cases h
    simp only [foldUnary, BitVec.ofInt_neg]
  · cases h
    rfl
  · cases h
    refine congrArg Except.ok (Word.eq_ofInt_of_bits fun i hi => ?_)
    rw [BitVec.getLsbD_not, Word.getLsbD_ofInt x i hi, Int.testBit_lnot]
    simp [hi]
  · cases h

theorem foldBinary_modular (hop : op ∈ modular) (h : exactBinary op x y = some z) :
    foldBinary op (BitVec.ofInt 16 x) (BitVec.ofInt 16 y) = .ok (BitVec.ofInt 16 z) := by
  simp only [modular, List.mem_cons, List.not_mem_nil, or_false] at hop
  rcases hop with rfl | rfl | rfl | rfl | rfl | rfl <;> cases h
  · simp only [foldBinary, BitVec.ofInt_add]
  · simp only [foldBinary, Word.ofInt_sub]
  · simp only [foldBinary, BitVec.ofInt_mul]
  · refine congrArg Except.ok (Word.eq_ofInt_of_bits fun i hi => ?_)
    rw [BitVec.getLsbD_and, Word.getLsbD_ofInt x i hi, Word.getLsbD_ofInt y i hi, Int.testBit_land]
  · refine congrArg Except.ok (Word.eq_ofInt_of_bits fun i hi => ?_)
    rw [BitVec.getLsbD_or, Word.getLsbD_ofInt x i hi, Word.getLsbD_ofInt y i hi, Int.testBit_lor]
  · refine congrArg Except.ok (Word.eq_ofInt_of_bits fun i hi => ?_)
    rw [BitVec.getLsbD_xor, Word.getLsbD_ofInt x i hi, Word.getLsbD_ofInt y i hi, Int.testBit_lxor]

theorem foldBinary_signed (hx : Signed x) (hy : Signed y) (h : exactBinary op x y = some z) :
    foldBinary op (BitVec.ofInt 16 x) (BitVec.ofInt 16 y) = .ok (BitVec.ofInt 16 z) := by
  unfold exactBinary at h
  split at h
  -- Where the exact result exists, the divisor is not zero and the count is not negative in sixteen bits either.
  case h_4 =>
    split at h
    · cases h
    · next hne =>
      cases h
      simp only [foldBinary, if_neg (Word.ofInt_ne_zero hy hne), Word.ofInt_sdiv hx hy]
  case h_5 =>
    split at h
    · cases h
    · next hne =>
      cases h
      simp only [foldBinary, if_neg (Word.ofInt_ne_zero hy hne), Word.ofInt_srem hx hy]
  case h_9 =>
    split at h
    · cases h
    · next hcount =>
      cases h
      simp only [foldBinary, Word.toInt_ofInt_of_signed hy, if_neg hcount,
        Word.toNat_ofInt_of_signed hy (Int.not_lt.mp hcount), Word.ofInt_shiftLeft]
  case h_10 =>
    split at h
    · cases h
    · next hcount =>
      cases h
      simp only [foldBinary, Word.toInt_ofInt_of_signed hy, if_neg hcount,
        Word.toNat_ofInt_of_signed hy (Int.not_lt.mp hcount), Word.ofInt_sshiftRight hx]
  case h_11 => cases h
  all_goals exact foldBinary_modular (by decide) h

/-! ### Whole expressions -/

/-- An expression has an exact value and folds to the word of it. -/
def FoldsTo (e : Expr) (z : Int) : Prop :=
  e.exactValue? = some z ∧ e.fold = .ok (BitVec.ofInt 16 z)

theorem foldsTo_literal (value : Word) (text : Text) (pos : Position) :
    (literal value text pos).FoldsTo value.toNat :=
  ⟨rfl, by rw [fold, BitVec.ofInt_natCast, BitVec.ofNat_toNat, BitVec.setWidth_eq]⟩

theorem FoldsTo.unary (h : right.FoldsTo x) (hz : exactUnary op x = some z) :
    (unary op right pos).FoldsTo z := by
  refine ⟨by rw [exactValue?, h.1, Option.bind_some, hz], ?_⟩
  rw [fold_unary h.2, foldUnary_exact hz]
  rfl

theorem FoldsTo.binary (hl : left.FoldsTo x) (hr : right.FoldsTo y) (hz : exactBinary op x y = some z)
    (h : op ∈ modular ∨ Signed x ∧ Signed y) : (binary op left right pos).FoldsTo z := by
  have hop : foldBinary op (BitVec.ofInt 16 x) (BitVec.ofInt 16 y) = .ok (BitVec.ofInt 16 z) := by
    rcases h with hop | ⟨hx, hy⟩
    · exact foldBinary_modular hop hz
    · exact foldBinary_signed hx hy hz
  refine ⟨by rw [exactValue?, hl.1, Option.bind_some, hr.1, Option.bind_some, hz], ?_⟩
  rw [fold_binary hl.2 hr.2, hop]
  rfl

theorem exactUnary_isSome (hop : isUnary op = true) (x : Int) : ∃ z, exactUnary op x = some z := by
  rw [Grammar.isUnary_iff] at hop
  simp only [Grammar.signs, List.mem_cons, List.not_mem_nil, or_false] at hop
  rcases hop with rfl | rfl | rfl <;> exact ⟨_, rfl⟩

theorem exactBinary_isSome (hop : op ∈ modular) (x y : Int) : ∃ z, exactBinary op x y = some z := by
  simp only [modular, List.mem_cons, List.not_mem_nil, or_false] at hop
  rcases hop with rfl | rfl | rfl | rfl | rfl | rfl <;> exact ⟨_, rfl⟩

theorem Modular.foldsTo (h : e.Modular) : ∃ z, e.FoldsTo z := by
  induction e with
  | literal value text pos => exact ⟨_, foldsTo_literal value text pos⟩
  | unary op right pos ih =>
    obtain ⟨x, hx⟩ := ih h.2
    obtain ⟨z, hz⟩ := exactUnary_isSome h.1 x
    exact ⟨z, hx.unary hz⟩
  | binary op left right pos ihl ihr =>
    obtain ⟨x, hx⟩ := ihl h.2.1
    obtain ⟨y, hy⟩ := ihr h.2.2
    obtain ⟨z, hz⟩ := exactBinary_isSome h.1 x y
    exact ⟨z, hx.binary hy hz (.inl h.1)⟩

/-- Every sub-expression has an exact value that is a signed number of sixteen bits. -/
def StaysSigned (e : Expr) : Prop :=
  ∀ n ∈ e.nodes, ∃ z, n.exactValue? = some z ∧ Signed z

theorem self_mem_nodes (e : Expr) : e ∈ e.nodes := by
  cases e <;> simp [nodes]

theorem StaysSigned.foldsTo (h : e.StaysSigned) : ∃ z, e.FoldsTo z ∧ Signed z := by
  induction e with
  | literal value text pos =>
    obtain ⟨z, hz, hsigned⟩ := h _ (self_mem_nodes _)
    cases hz
    exact ⟨_, foldsTo_literal value text pos, hsigned⟩
  | unary op right pos ih =>
    obtain ⟨x, hx, -⟩ := ih fun n hn => h n (List.mem_append_left _ hn)
    obtain ⟨z, hz, hsigned⟩ := h _ (self_mem_nodes _)
    rw [exactValue?, hx.1, Option.bind_some] at hz
    exact ⟨z, hx.unary hz, hsigned⟩
  | binary op left right pos ihl ihr =>
    obtain ⟨x, hx, hxs⟩ := ihl fun n hn => h n (by simp [nodes, hn])
    obtain ⟨y, hy, hys⟩ := ihr fun n hn => h n (by simp [nodes, hn])
    obtain ⟨z, hz, hsigned⟩ := h _ (self_mem_nodes _)
    rw [exactValue?, hx.1, Option.bind_some, hy.1, Option.bind_some] at hz
    exact ⟨z, hx.binary hy hz (.inr ⟨hxs, hys⟩), hsigned⟩

/-- An operator is exact in what its operands fold to, whatever their exact values are. -/
theorem fold_of_operands {l r : Word} (hl : left.fold = .ok l) (hr : right.fold = .ok r)
    (hz : exactBinary op l.toInt r.toInt = some z) :
    (binary op left right pos).fold = .ok (BitVec.ofInt 16 z) := by
  have h := foldBinary_signed (Word.signed_toInt l) (Word.signed_toInt r) hz
  rw [BitVec.ofInt_toInt, BitVec.ofInt_toInt] at h
  rw [fold_binary hl hr, h]
  rfl

/-- Folding is arithmetic modulo 2¹⁶: with the operators that words share with the integers it wraps the
exact value, a shift by any count wraps or rounds down what its operands fold to, and as long as no
sub-expression leaves the signed numbers of sixteen bits it is exact. -/
theorem fold_wraps_exact :
    (∀ e : Expr, e.Modular → ∃ z v, e.exactValue? = some z ∧ e.fold = .ok v ∧ v.Wraps z) ∧
    (∀ (left right : Expr) (pos : Position) (l r : Word), left.fold = .ok l → right.fold = .ok r →
      0 ≤ r.toInt →
      (∃ v, (binary .shiftLeft left right pos).fold = .ok v ∧ v.Wraps (l.toInt * 2 ^ r.toInt.toNat)) ∧
      ∃ v, (binary .shiftRight left right pos).fold = .ok v ∧
        v.toInt = l.toInt.fdiv (2 ^ r.toInt.toNat)) ∧
    ∀ e : Expr, e.StaysSigned → ∃ v, e.fold = .ok v ∧ e.exactValue? = some v.toInt := by
  refine ⟨fun e he => ?_, fun left right pos l r hl hr hcount => ?_, fun e he => ?_⟩
  · obtain ⟨z, hexact, hfold⟩ := he.foldsTo
    exact ⟨z, _, hexact, hfold, Word.wraps_ofInt z⟩
  · have hnot : ¬r.toInt < 0 := Int.not_lt.mpr hcount
    refine ⟨⟨_, fold_of_operands hl hr (if_neg hnot), Word.wraps_ofInt _⟩,
      _, fold_of_operands hl hr (if_neg hnot), ?_⟩
    rw [← Word.toInt_sshiftRight_eq_fdiv, BitVec.ofInt_toInt]
  · obtain ⟨z, ⟨hexact, hfold⟩, hz⟩ := he.foldsTo
    exact ⟨_, hfold, by rw [hexact, Word.toInt_ofInt_of_signed hz]⟩

/-- `~(0xFFFF * 0xFFFF)`: the product takes thirty-two bits. -/
def wideProduct : Expr :=
  .unary .tilde (.binary .star (.literal 0xFFFF "0xFFFF" ⟨1, 3⟩) (.literal 0xFFFF "0xFFFF" ⟨1, 12⟩)
    ⟨1, 10⟩) ⟨1, 1⟩

/-- `-7 / 2`: both signs, and a quotient that is not a whole number. -/
def negativeQuotient : Expr :=
  .binary .slash (.unary .minus (.literal 7 "7" ⟨1, 2⟩) ⟨1, 1⟩) (.literal 2 "2" ⟨1, 6⟩) ⟨1, 4⟩

theorem fold_wraps_exact_sample :
    (wideProduct.Modular ∧ ∃ z v, wideProduct.exactValue? = some z ∧ wideProduct.fold = .ok v ∧ v.Wraps z) ∧
    (∃ v, (binary .shiftRight wideProduct (literal 20 "20" ⟨1, 25⟩) ⟨1, 22⟩).fold = .ok v ∧
      v.toInt = (-2 : Int).fdiv (2 ^ 20)) ∧
    negativeQuotient.StaysSigned ∧
      ∃ v, negativeQuotient.fold = .ok v ∧ negativeQuotient.exactValue? = some v.toInt := by
  have hsigned : negativeQuotient.StaysSigned := by
    intro n hn
    simp only [negativeQuotient, nodes, List.cons_append, List.nil_append, List.mem_cons,
      List.not_mem_nil, or_false] at hn
    rcases hn with rfl | rfl | rfl | rfl <;> exact ⟨_, rfl, by decide⟩
  exact ⟨⟨by decide, fold_wraps_exact.1 wideProduct (by decide)⟩,
    (fold_wraps_exact.2.1 wideProduct _ _ (-2) 20 rfl rfl (by decide)).2,
    hsigned, fold_wraps_exact.2.2 negativeQuotient hsigned⟩

end Expr

end Pocket

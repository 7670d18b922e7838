import Mathlib
import Pocket.Expr.Fold
import Pocket.Proofs.Trimming
import Pocket.Token.Lexer

/-!
# Numbers as they are written

An integer literal has the digits of its base behind the mark of the base, and it stands for their
positional value. The lexer tests a word for this shape character by character, and the parser reads the
base and the digits off the bytes. Both agree with what is said here about numbers of any length.
-/

namespace Pocket

/-- A character that writes a digit of a base; letters do so in either case. -/
def WritesDigit (base : Nat) (c : Char) (d : Nat) : Prop :=
  d < base ∧ (c = Nat.digitChar d ∨ c = (Nat.digitChar d).toUpper)

/-- The marks in front of the digits of a literal, and the bases they stand for. -/
def baseMarks : List (Text × Nat) :=
  [([], 10), ("0x", 16), ("0X", 16), ("0b", 2), ("0B", 2)]

/-- A literal that writes a number: a mark and one or more digits, the first of which counts most. -/
inductive WritesNumber : Text → Nat → Prop where
  | digits {mark : Text} {base : Nat} {cs : List Char} {ds : List Nat} (hmark : (mark, base) ∈ baseMarks)
      (hne : ds ≠ []) (hds : List.Forall₂ (WritesDigit base) cs ds) :
      WritesNumber (mark ++ .ofChars cs) (Nat.ofDigits base ds.reverse)

/-! ### The value of a literal -/

section Value

variable {mark t : Text} {base n m d : Nat} {c : Char} {cs : List Char} {ds : List Nat}

theorem base_le (h : (mark, base) ∈ baseMarks) : base ≤ 16 := by
  have hall : ∀ p ∈ baseMarks, p.2 ≤ 16 := by decide
  exact hall _ h

/-- What holds of both ways to write every digit holds of the characters that write digits. -/
theorem WritesDigit.all {P : Char → Nat → Prop} (h : WritesDigit base c d)
    (hall : ∀ d < base, P (Nat.digitChar d) d ∧ P (Nat.digitChar d).toUpper d) : P c d := by
  obtain ⟨hd, rfl | rfl⟩ := h
  · exact (hall d hd).1
  · exact (hall d hd).2

theorem WritesDigit.mono {base' : Nat} (h : WritesDigit base c d) (hbase : base ≤ base') : WritesDigit base' c d :=
  ⟨h.1.trans_le hbase, h.2⟩

/-- A digit is one byte, and the byte has the value of the digit. -/
theorem WritesDigit.byte (h : WritesDigit base c d) (hbase : base ≤ 16) :
    Text.ofChar c = [c.toUInt8] ∧ Text.digitValue? c.toUInt8 = some d := by
  obtain ⟨hlt, hvalue⟩ := (h.mono hbase).all
    (P := fun c d => c.toNat < 128 ∧ Text.digitValue? c.toUInt8 = some d) (by decide)
  exact ⟨ofChar_ascii hlt, hvalue⟩

theorem numeralFrom?_eq (hbase : base ≤ 16) (h : List.Forall₂ (WritesDigit base) cs ds) :
    Text.numeralFrom? base n (.ofChars cs) = some (ds.foldl (fun m d => m * base + d) n) := by
  induction h generalizing n with
  | nil => rfl
  | @cons c d cs ds hd _ ih =>
    obtain ⟨hbyte, hvalue⟩ := hd.byte hbase
    have htext : Text.ofChars (c :: cs) = c.toUInt8 :: Text.ofChars cs := by
      rw [Text.ofChars, List.flatMap_cons, hbyte]
      rfl
    simp only [htext, Text.numeralFrom?, hvalue, if_pos hd.1, List.foldl_cons, ih]

theorem foldl_digits (base : Nat) (ds : List Nat) :
    ds.foldl (fun m d => m * base + d) 0 = Nat.ofDigits base ds.reverse := by
  rw [Nat.ofDigits_eq_foldr, List.foldr_reverse]
  refine congrArg (fun f => List.foldl f 0 ds) (funext fun m => funext fun d => ?_)
  rw [Nat.mul_comm, Nat.add_comm]
  rfl

/-- Digits are read as their positional value. -/
theorem numeral?_eq (hbase : base ≤ 16) (hne : ds ≠ []) (h : List.Forall₂ (WritesDigit base) cs ds) :
    Text.numeral? base (.ofChars cs) = some (Nat.ofDigits base ds.reverse) := by
  have hfilled : (Text.ofChars cs).isEmpty = false := by
    cases h with
    | nil => exact absurd rfl hne
    | cons hd _ => simp [Text.ofChars, (hd.byte hbase).1]
  rw [Text.numeral?, hfilled, if_neg Bool.false_ne_true, numeralFrom?_eq hbase h, foldl_digits]

theorem WritesDigit.unmarked (h : WritesDigit 10 c d) : (c ≠ 'x' ∧ c ≠ 'X' ∧ c ≠ 'b' ∧ c ≠ 'B') ∧
    c.toUInt8 ≠ 'x'.toUInt8 ∧ c.toUInt8 ≠ 'X'.toUInt8 ∧ c.toUInt8 ≠ 'b'.toUInt8 ∧ c.toUInt8 ≠ 'B'.toUInt8 :=
  h.all (P := fun c _ => (c ≠ 'x' ∧ c ≠ 'X' ∧ c ≠ 'b' ∧ c ≠ 'B') ∧
    c.toUInt8 ≠ 'x'.toUInt8 ∧ c.toUInt8 ≠ 'X'.toUInt8 ∧ c.toUInt8 ≠ 'b'.toUInt8 ∧ c.toUInt8 ≠ 'B'.toUInt8)
    (by decide)

/-- The base of a literal and its digits are found as they are written. -/
theorem literalDigits_eq (hmark : (mark, base) ∈ baseMarks) (h : List.Forall₂ (WritesDigit base) cs ds) :
    Word.literalDigits (mark ++ .ofChars cs) = (base, .ofChars cs) := by
  simp only [baseMarks, List.mem_cons, Prod.mk.injEq, List.not_mem_nil, or_false] at hmark
  rcases hmark with ⟨rfl, rfl⟩ | ⟨rfl, rfl⟩ | ⟨rfl, rfl⟩ | ⟨rfl, rfl⟩ | ⟨rfl, rfl⟩
  · -- The second character of a decimal number is a digit and marks no base.
    cases h with
    | nil => rfl
    | @cons c _ cs _ hc hcs =>
      have hc := (hc.byte (by decide)).1
      cases hcs with
      | nil => simp [Text.ofChars, hc, Word.literalDigits]
      | @cons e d cs _ he _ =>
        simp [Text.ofChars, hc, (he.byte (by decide)).1, Word.literalDigits, he.unmarked.2]
  all_goals rfl

theorem WritesNumber.numeral? (h : WritesNumber t n) :
    Text.numeral? (Word.literalDigits t).1 (Word.literalDigits t).2 = some n := by
  obtain ⟨hmark, hne, hds⟩ := h
  rw [literalDigits_eq hmark hds]
  exact numeral?_eq (base_le hmark) hne hds

/-- A literal writes one number only. -/
theorem WritesNumber.unique (hn : WritesNumber t n) (hm : WritesNumber t m) : m = n :=
  Option.some.inj (hm.numeral?.symm.trans hn.numeral?)

/-- A literal stands for the number it writes if sixteen bits can hold it, and else for nothing. -/
theorem WritesNumber.ofLiteral? (h : WritesNumber t n) :
    Word.ofLiteral? t = if n ≤ 65535 then some (.ofNat 16 n) else none := by
  rw [Word.ofLiteral?]
  simp only [h.numeral?, ← Nat.lt_succ_iff]

end Value

/-! ### The shape of a literal -/

section Shape

variable {p : Char → Bool} {base : Nat} {cs ds : List Char} {n : Nat}

/-- A test that passes the characters that are digits of a base. -/
def DigitClass (p : Char → Bool) (base : Nat) : Prop :=
  ∀ c, p c = true ↔ ∃ d, WritesDigit base c d

theorem digitClass_of (hlow : ∀ c, p c = true → c.toNat < 128)
    (hfrom : ∀ d < base, p (Nat.digitChar d) = true ∧ p (Nat.digitChar d).toUpper = true)
    (hto : ∀ n < 128, p (Char.ofNat n) = true →
      ∃ d < base, Char.ofNat n = Nat.digitChar d ∨ Char.ofNat n = (Nat.digitChar d).toUpper) :
    DigitClass p base := by
  intro c
  constructor
  · intro hc
    obtain ⟨d, hd, hchar⟩ := hto c.toNat (hlow c hc) (by rwa [Char.ofNat_toNat])
    rw [Char.ofNat_toNat] at hchar
    exact ⟨d, hd, hchar⟩
  · rintro ⟨d, hd⟩
    exact hd.all (P := fun c _ => p c = true) hfrom

theorem toNat_le_of_le {c e : Char} (h : c ≤ e) : c.toNat ≤ e.toNat := h

theorem digitClass_decimal : DigitClass (fun c => '0' ≤ c && c ≤ '9') 10 := by
  refine digitClass_of (fun c hc => ?_) (by decide) (by decide)
  simp only [Bool.and_eq_true, decide_eq_true_eq] at hc
  have := toNat_le_of_le hc.2
  simp only [Char.reduceToNat] at this
  omega

theorem digitClass_binary : DigitClass (fun c => c == '0' || c == '1') 2 := by
  refine digitClass_of (fun c hc => ?_) (by decide) (by decide)
  simp only [Bool.or_eq_true, beq_iff_eq] at hc
  rcases hc with rfl | rfl <;> decide

theorem digitClass_hexadecimal : DigitClass Token.isHexDigit 16 := by
  refine digitClass_of (fun c hc => ?_) (by decide) (by decide)
  simp only [Token.isHexDigit, Bool.or_eq_true, Bool.and_eq_true, decide_eq_true_eq] at hc
  rcases hc with (⟨-, hc⟩ | ⟨-, hc⟩) | ⟨-, hc⟩ <;>
    · have := toNat_le_of_le hc
      simp only [Char.reduceToNat] at this
      omega

theorem isDigits_iff (h : DigitClass p base) (cs : List Char) :
    Token.isDigits p cs = true ↔ ∃ ds, ds ≠ [] ∧ List.Forall₂ (WritesDigit base) cs ds := by
  have hall : cs.all p = true ↔ ∃ ds, List.Forall₂ (WritesDigit base) cs ds := by
    induction cs with
    | nil => exact ⟨fun _ => ⟨[], .nil⟩, fun _ => rfl⟩
    | cons c cs ih =>
      rw [List.all_cons, Bool.and_eq_true, h c, ih]
      constructor
      · rintro ⟨⟨d, hd⟩, ds, hds⟩
        exact ⟨d :: ds, .cons hd hds⟩
      · rintro ⟨_, hds⟩
        cases hds with
        | cons hd hds => exact ⟨⟨_, hd⟩, _, hds⟩
  rw [Token.isDigits, Bool.and_eq_true, hall]
  constructor
  · rintro ⟨hne, ds, hds⟩
    refine ⟨ds, ?_, hds⟩
    rintro rfl
    cases hds
    cases hne
  · rintro ⟨ds, hne, hds⟩
    refine ⟨?_, ds, hds⟩
    cases hds with
    | nil => exact absurd rfl hne
    | cons => rfl

theorem Text.ofChars_append (cs ds : List Char) : Text.ofChars (cs ++ ds) = Text.ofChars cs ++ Text.ofChars ds := by
  simp [Text.ofChars]

/-- Characters can be read off their spelling. -/
theorem Text.ofChars_inj (h : Text.ofChars cs = Text.ofChars ds) : cs = ds := by
  have hglyphs : ∀ cs, (Text.ofChars cs).glyphs = cs.map Glyph.of := by
    intro cs
    have hcs := Text.glyphs_ofChars cs []
    rwa [List.append_nil, show Text.glyphs [] = [] from rfl, List.append_nil] at hcs
  have hmap : cs.map Glyph.of = ds.map Glyph.of := by rw [← hglyphs, h, hglyphs]
  exact List.map_injective_iff.mpr (fun c e hce => congrArg Glyph.char hce) hmap

theorem writesNumber_of_isDigits (h : DigitClass p base) (ms : List Char)
    (hmark : (Text.ofChars ms, base) ∈ baseMarks) (hcs : Token.isDigits p cs = true) :
    ∃ n, WritesNumber (.ofChars (ms ++ cs)) n := by
  obtain ⟨ds, hne, hds⟩ := (isDigits_iff h cs).mp hcs
  rw [Text.ofChars_append]
  exact ⟨_, .digits hmark hne hds⟩

theorem baseMarks_eq : baseMarks = [(.ofChars [], 10), (.ofChars ['0', 'x'], 16), (.ofChars ['0', 'X'], 16),
    (.ofChars ['0', 'b'], 2), (.ofChars ['0', 'B'], 2)] := by
  decide

/-- Decimal digits are tested as such, since none of them marks a base. -/
theorem isIntegerLiteral_decimal {ns : List Nat} (h : List.Forall₂ (WritesDigit 10) cs ns) :
    Token.isIntegerLiteral cs = Token.isDigits (fun c => '0' ≤ c && c ≤ '9') cs := by
  have hmark : ∀ a b more, cs = a :: b :: more → b ≠ 'x' ∧ b ≠ 'X' ∧ b ≠ 'b' ∧ b ≠ 'B' := by
    rintro a b more rfl
    cases h with
    | cons _ h =>
      cases h with
      | cons hb => exact hb.unmarked.1
  unfold Token.isIntegerLiteral
  split
  · exact absurd rfl (hmark _ _ _ rfl).1
  · exact absurd rfl (hmark _ _ _ rfl).2.1
  · exact absurd rfl (hmark _ _ _ rfl).2.2.1
  · exact absurd rfl (hmark _ _ _ rfl).2.2.2
  · rfl

/-- A word has the shape of a literal exactly if it writes a number. -/
theorem isIntegerLiteral_iff (cs : List Char) :
    Token.isIntegerLiteral cs = true ↔ ∃ n, WritesNumber (.ofChars cs) n := by
  constructor
  · intro h
    unfold Token.isIntegerLiteral at h
    split at h
    · exact writesNumber_of_isDigits digitClass_hexadecimal ['0', 'x'] (by simp [baseMarks_eq]) h
    · exact writesNumber_of_isDigits digitClass_hexadecimal ['0', 'X'] (by simp [baseMarks_eq]) h
    · exact writesNumber_of_isDigits digitClass_binary ['0', 'b'] (by simp [baseMarks_eq]) h
    · exact writesNumber_of_isDigits digitClass_binary ['0', 'B'] (by simp [baseMarks_eq]) h
    · exact writesNumber_of_isDigits digitClass_decimal [] (by simp [baseMarks_eq]) h
  · rintro ⟨n, h⟩
    generalize htext : Text.ofChars cs = t at h
    obtain ⟨hmark, hne, hds⟩ := h
    simp only [baseMarks_eq, List.mem_cons, Prod.mk.injEq, List.not_mem_nil, or_false] at hmark
    rcases hmark with ⟨rfl, rfl⟩ | ⟨rfl, rfl⟩ | ⟨rfl, rfl⟩ | ⟨rfl, rfl⟩ | ⟨rfl, rfl⟩ <;>
      rw [← Text.ofChars_append] at htext <;> obtain rfl := Text.ofChars_inj htext
    · rw [isIntegerLiteral_decimal hds]
      exact (isDigits_iff digitClass_decimal _).mpr ⟨_, hne, hds⟩
    · exact (isDigits_iff digitClass_hexadecimal _).mpr ⟨_, hne, hds⟩
    · exact (isDigits_iff digitClass_hexadecimal _).mpr ⟨_, hne, hds⟩
    · exact (isDigits_iff digitClass_binary _).mpr ⟨_, hne, hds⟩
    · exact (isDigits_iff digitClass_binary _).mpr ⟨_, hne, hds⟩

end Shape

end Pocket

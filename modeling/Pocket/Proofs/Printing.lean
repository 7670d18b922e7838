import Pocket.Proofs.ParserComplete
import Pocket.Proofs.Pieces
import Pocket.Proofs.Unplaced

/-!
# How printed expressions and statements are read

A printed expression has parentheses around every operator node and blanks around every binary
operator, so its tokens are those of its parts, whatever stands behind it, as long as that is no
word. An operator node in parentheses is an operand of every operator, and without the outermost ones it
is still an expression.
-/

namespace Pocket

open Pocket.Parser Grammar Lexical

/-! ### Texts and their tokens -/

section LaysOut

variable {g : Glyph} {gs tok rest : List Glyph} {F P Q : List Token → Prop} {kind : Token.Kind}
  {lexeme : Text} {c : Char} {ts : List Token}

/-- Glyphs that are read as tokens of some form, wherever they stand. -/
def LaysOut (gs : List Glyph) (P : List Token → Prop) : Prop :=
  ∀ pos, ∃ ts, Layout pos gs ts ∧ P ts

/-- No word goes on in the glyphs. -/
def EndsWord (rest : List Glyph) : Prop :=
  ∀ g ∈ rest.head?, Token.isWordChar g.char = false

/-- Tokens of one form in front of tokens of another. -/
def Then (F P : List Token → Prop) (ts : List Token) : Prop :=
  ∃ us vs, ts = us ++ vs ∧ F us ∧ P vs

/-- A single token. -/
def IsToken (kind : Token.Kind) (lexeme : Text) (ts : List Token) : Prop :=
  ∃ pos, ts = [⟨kind, lexeme, pos⟩]

/-- A text that is read as tokens of some form in front of anything but the rest of a word. -/
def Spells (t : Text) (F : List Token → Prop) : Prop :=
  ∀ rest P, EndsWord rest → LaysOut rest P → LaysOut (t.glyphs ++ rest) (Then F P)

theorem Then.imp (h : Then F P ts) (hF : ∀ ts, F ts → Q ts) : Then Q P ts := by
  obtain ⟨us, vs, rfl, hus, hvs⟩ := h
  exact ⟨us, vs, rfl, hF us hus, hvs⟩

theorem Then.right (h : Then F P ts) (hP : ∀ ts, P ts → Q ts) : Then F Q ts := by
  obtain ⟨us, vs, rfl, hus, hvs⟩ := h
  exact ⟨us, vs, rfl, hus, hP vs hvs⟩

theorem Then.assoc (h : Then F (Then P Q) ts) : Then (Then F P) Q ts := by
  obtain ⟨us, _, rfl, hus, vs, ws, rfl, hvs, hws⟩ := h
  exact ⟨us ++ vs, ws, (List.append_assoc us vs ws).symm, ⟨us, vs, rfl, hus, hvs⟩, hws⟩

theorem LaysOut.imp (h : LaysOut gs P) (hPQ : ∀ ts, P ts → Q ts) : LaysOut gs Q := by
  intro pos
  obtain ⟨ts, hts, hP⟩ := h pos
  exact ⟨ts, hts, hPQ ts hP⟩

theorem laysOut_nil : LaysOut [] (IsToken .eof []) := by
  intro pos
  exact ⟨_, .stop (.none rfl), pos, rfl⟩

theorem LaysOut.blank (h : LaysOut gs P) (hg : isBlank g.char = true) : LaysOut (g :: gs) P := by
  intro pos
  obtain ⟨ts, hts, hP⟩ := h (pos.after [g])
  refine ⟨ts, ?_, hP⟩
  cases hts with
  | stop hgap => exact .stop (.blank hg hgap)
  | token hgap htok hkind hrest => exact .token (.blank hg hgap) htok hkind hrest
  | asm hgap hkey hspace hbody hrest => exact .asm (.blank hg hgap) hkey hspace hbody hrest

theorem LaysOut.token (h : LaysOut rest P) (htok : Lexeme tok rest kind lexeme) (hkind : kind ≠ .asm)
    (hgap : startsGap (tok ++ rest) = false) :
    LaysOut (tok ++ rest) (Then (IsToken kind lexeme) P) := by
  intro pos
  obtain ⟨ts, hts, hP⟩ := h (pos.after tok)
  exact ⟨_, .token (.none hgap) htok hkind hts, [_], ts, rfl, ⟨pos, rfl⟩, hP⟩

/-- Punctuation is no blank, and only a slash may begin a comment. -/
theorem startsGap_punctuation (hc : Token.punctuation? c = some kind)
    (hslash : c = '/' → ∀ g ∈ rest.head?, g.char ≠ '/' ∧ g.char ≠ '*') :
    startsGap (Glyph.of c :: rest) = false := by
  have hblank : isBlank c = false := by
    unfold Token.punctuation? at hc
    split at hc <;> first | decide | cases hc
  rw [← Bool.not_eq_true, startsGap_cons]
  rintro (⟨hchar, g, hg, hnext⟩ | hchar)
  · rcases hnext with hnext | hnext
    · exact (hslash hchar g hg).1 hnext
    · exact (hslash hchar g hg).2 hnext
  · exact absurd hchar (by simp [Glyph.of, hblank])

theorem LaysOut.single (h : LaysOut rest P) (hc : Token.punctuation? c = some kind) (hslash : c ≠ '/') :
    LaysOut (Glyph.of c :: rest) (Then (IsToken kind (.ofChar c)) P) :=
  h.token (.single (g := Glyph.of c) hc) (punctuation?_class hc).2.2.2.1
    (startsGap_punctuation hc fun heq => absurd heq hslash)

end LaysOut

/-! ### Operators and punctuation -/

theorem leftParen_text : ("(" : Text) = Text.ofChar '(' := by decide

theorem rightParen_text : (")" : Text) = Text.ofChar ')' := by decide

theorem space_text : (" " : Text) = Text.ofChar ' ' := by decide

theorem semicolon_text : (";" : Text) = Text.ofChar ';' := by decide

section Operators

variable {op : Token.Kind} {rest : List Glyph} {P : List Token → Prop}

/-- The characters that operators are made of. -/
def operatorChars : List Char :=
  ['|', '^', '&', '<', '>', '+', '-', '*', '/', '%', '~']

-- `any` and not `∃`, whose instance would go through all characters.
theorem symbol_table : ∀ op ∈ operatorLevels.flatten ++ signs, operatorChars.any fun c =>
    (Token.punctuation? c = some op ∧ op.symbol = Text.ofChar c) ∨
      (Token.doubled? c = some op ∧ op.symbol = Text.ofChar c ++ Text.ofChar c) := by
  decide

/-- An operator is one character, or the same character twice. -/
theorem symbol_cases (hop : op ∈ operatorLevels.flatten ∨ isUnary op = true) :
    (∃ c, Token.punctuation? c = some op ∧ op.symbol = Text.ofChar c) ∨
      ∃ c, Token.doubled? c = some op ∧ op.symbol = Text.ofChar c ++ Text.ofChar c := by
  rw [isUnary_iff, ← List.mem_append] at hop
  obtain ⟨c, -, hc⟩ := List.any_eq_true.mp (symbol_table op hop)
  rcases of_decide_eq_true hc with hsingle | hdouble
  · exact .inl ⟨c, hsingle⟩
  · exact .inr ⟨c, hdouble⟩

theorem glyphs_ofChar (c : Char) : (Text.ofChar c).glyphs = [Glyph.of c] := by
  have h := Text.glyphs_ofChar_append c []
  rwa [List.append_nil] at h

theorem glyphs_symbol_append (hop : op ∈ operatorLevels.flatten ∨ isUnary op = true) (t : Text) :
    (op.symbol ++ t).glyphs = op.symbol.glyphs ++ t.glyphs := by
  rcases symbol_cases hop with ⟨c, -, hsymbol⟩ | ⟨c, -, hsymbol⟩ <;>
    simp [hsymbol, Text.glyphs_ofChar_append, glyphs_ofChar]

/-- An operator is read as itself; a slash must not be followed by something that makes it a comment. -/
theorem LaysOut.symbol (h : LaysOut rest P) (hop : op ∈ operatorLevels.flatten ∨ isUnary op = true)
    (hslash : op = .slash → ∀ g ∈ rest.head?, g.char ≠ '/' ∧ g.char ≠ '*') :
    LaysOut (op.symbol.glyphs ++ rest) (Then (IsToken op op.symbol) P) := by
  rcases symbol_cases hop with ⟨c, hc, hsymbol⟩ | ⟨c, hc, hsymbol⟩
  · rw [hsymbol, glyphs_ofChar]
    refine h.token (.single (g := Glyph.of c) hc) (punctuation?_class hc).2.2.2.1
      (startsGap_punctuation hc ?_)
    rintro rfl
    cases hc
    exact hslash rfl
  · have hlexeme : Text.ofChars [c, c] = Text.ofChar c ++ Text.ofChar c := by simp [Text.ofChars]
    rw [hsymbol, Text.glyphs_ofChar_append, glyphs_ofChar, ← hlexeme]
    refine h.token (.double (a := Glyph.of c) hc rfl) (doubled?_class hc).2.2.2.2.1 ?_
    unfold Token.doubled? at hc
    split at hc
    · exact startsGap_eq_false (by decide) (by decide)
    · exact startsGap_eq_false (by decide) (by decide)
    · cases hc

end Operators

/-! ### Derivations up to positions -/

namespace Grammar

variable {l : Level} {ts : List Token} {e left right : Expr} {op : Token.Kind} {lexeme : Text}
  {pos : Position}

theorem Expression.loosest (h : Expression l ts e) : Expression .bitwiseOr ts e := by
  have hxor : Expression .bitwiseXor ts e → Expression .bitwiseOr ts e := .tighter rfl
  have hand : Expression .bitwiseAnd ts e → Expression .bitwiseOr ts e := fun h => hxor (.tighter rfl h)
  have hshift : Expression .shift ts e → Expression .bitwiseOr ts e := fun h => hand (.tighter rfl h)
  have hadd : Expression .additive ts e → Expression .bitwiseOr ts e := fun h => hshift (.tighter rfl h)
  have hmul : Expression .multiplicative ts e → Expression .bitwiseOr ts e := fun h => hadd (.tighter rfl h)
  have hunary : Expression .unary ts e → Expression .bitwiseOr ts e := fun h => hmul (.tighter rfl h)
  cases l with
  | bitwiseOr => exact h
  | bitwiseXor => exact hxor h
  | bitwiseAnd => exact hand h
  | shift => exact hshift h
  | additive => exact hadd h
  | multiplicative => exact hmul h
  | unary => exact hunary h
  | primary => exact hunary (.tighter rfl h)

/-- A primary expression is an operand of every operator. -/
theorem Expression.of_primary (h : Expression .primary ts e) (l : Level) : Expression l ts e := by
  have hunary : Expression .unary ts e := .tighter rfl h
  have hmul : Expression .multiplicative ts e := .tighter rfl hunary
  have hadd : Expression .additive ts e := .tighter rfl hmul
  have hshift : Expression .shift ts e := .tighter rfl hadd
  have hand : Expression .bitwiseAnd ts e := .tighter rfl hshift
  have hxor : Expression .bitwiseXor ts e := .tighter rfl hand
  cases l with
  | bitwiseOr => exact .tighter rfl hxor
  | bitwiseXor => exact hxor
  | bitwiseAnd => exact hand
  | shift => exact hshift
  | additive => exact hadd
  | multiplicative => exact hmul
  | unary => exact hunary
  | primary => exact h

theorem exists_level (hop : op ∈ operatorLevels.flatten) :
    ∃ l m : Level, l.tighter? = some m ∧ op ∈ l.operators := by
  have htable : ∀ op ∈ operatorLevels.flatten,
      ∃ l ∈ [Level.bitwiseOr, .bitwiseXor, .bitwiseAnd, .shift, .additive, .multiplicative],
        l.tighter?.isSome = true ∧ op ∈ l.operators := by
    decide
  obtain ⟨l, -, htighter, hl⟩ := htable op hop
  obtain ⟨m, hm⟩ := Option.isSome_iff_exists.mp htighter
  exact ⟨l, m, hm, hl⟩

/-- Tokens that form an expression of a sort, up to its positions. -/
def Derives (l : Level) (e : Expr) (ts : List Token) : Prop :=
  ∃ e', Expression l ts e' ∧ e'.unplaced = e.unplaced

theorem Derives.loosest (h : Derives l e ts) : Derives .bitwiseOr e ts := by
  obtain ⟨e', hexp, he⟩ := h
  exact ⟨e', hexp.loosest, he⟩

theorem derives_literal {value : Word} (hvalue : Word.ofLiteral? lexeme = some value)
    (h : IsToken .integer lexeme ts) : Derives .primary (.literal value lexeme pos) ts := by
  obtain ⟨pos', rfl⟩ := h
  exact ⟨_, .literal rfl, by simp [Expr.unplaced, hvalue]⟩

theorem derives_parens {lparen rparen : Text}
    (h : Then (IsToken .leftParen lparen) (Then (Derives .bitwiseOr e) (IsToken .rightParen rparen)) ts) :
    Derives .primary e ts := by
  obtain ⟨_, _, rfl, ⟨lpos, rfl⟩, used, _, rfl, ⟨e', hexp, he⟩, rpos, rfl⟩ := h
  exact ⟨e', .parens rfl rfl hexp, he⟩

theorem derives_sign (hop : isUnary op = true)
    (h : Then (IsToken op lexeme) (Derives .primary right) ts) :
    Derives .bitwiseOr (.unary op right pos) ts := by
  obtain ⟨_, used, rfl, ⟨opPos, rfl⟩, e', hexp, he⟩ := h
  exact ⟨_, (Expression.sign (isUnary_iff.mp hop) (hexp.of_primary .unary)).loosest,
    by simp [Expr.unplaced, he]⟩

theorem derives_join (hop : op ∈ operatorLevels.flatten)
    (h : Then (Derives .primary left) (Then (IsToken op lexeme) (Derives .primary right)) ts) :
    Derives .bitwiseOr (.binary op left right pos) ts := by
  obtain ⟨us, _, rfl, ⟨a, ha, hleft⟩, _, vs, rfl, ⟨opPos, rfl⟩, b, hb, hright⟩ := h
  obtain ⟨l, m, hm, hl⟩ := exists_level hop
  exact ⟨_, (Expression.join hm hl (ha.of_primary l) (hb.of_primary m)).loosest,
    by simp [Expr.unplaced, hleft, hright]⟩

end Grammar

/-! ### Parts of a printed expression -/

/-- A text that is a token of some kind by itself. -/
def IsLexeme (kind : Token.Kind) (t : Text) : Prop :=
  Lexeme t.glyphs [] kind t

/-- A number or a name is written as it is, and it is the same in front of anything but the rest of a
word. -/
theorem Lexical.Lexeme.of_word {tok rest : List Glyph} {kind : Token.Kind} {lexeme : Text}
    (h : Lexeme tok rest kind lexeme) (hkind : kind = .integer ∨ kind = .identifier) :
    lexeme = .ofGlyphs tok ∧ (∃ g run, tok = g :: run ∧ Token.isWordChar g.char = true) ∧
      ∀ rest', EndsWord rest' → Lexeme tok rest' kind lexeme := by
  cases h with
  | word hg hrun =>
    exact ⟨rfl, ⟨_, _, rfl, hrun.1 _ List.mem_cons_self⟩, fun _ hrest => .word hg ⟨hrun.1, hrest⟩⟩
  | integer hword hg hrun hshape =>
    exact ⟨rfl, ⟨_, _, rfl, hrun.1 _ List.mem_cons_self⟩,
      fun _ hrest => .integer hword hg ⟨hrun.1, hrest⟩ hshape⟩
  | string => simp at hkind
  | single hg =>
    unfold Token.punctuation? at hg
    split at hg <;> cases hg <;> simp at hkind
  | double ha =>
    unfold Token.doubled? at ha
    split at ha <;> cases ha <;> simp at hkind

section Spells

variable {t : Text} {F Q : List Token → Prop} {e left right : Expr} {op kind : Token.Kind}

theorem endsWord_of {c : Char} (hc : Token.isWordChar c = false) (rest : List Glyph) :
    EndsWord (Glyph.of c :: rest) := by
  intro g hg
  obtain rfl : Glyph.of c = g := by simpa using hg
  exact hc

theorem glyphs_append_ofChar (t : Text) (c : Char) :
    (t ++ Text.ofChar c).glyphs = t.glyphs ++ [Glyph.of c] := by
  have hfresh := Glyph.fresh_ofChar c []
  rw [List.append_nil] at hfresh
  rw [Text.glyphs_append t hfresh, glyphs_ofChar]

theorem Spells.imp (h : Spells t F) (hF : ∀ ts, F ts → Q ts) : Spells t Q := by
  intro rest P hrest hP
  exact (h rest P hrest hP).imp fun ts hts => hts.imp hF

/-- A number or a name is read as itself. -/
theorem spells_word (h : IsLexeme kind t) (hkind : kind = .integer ∨ kind = .identifier) :
    Spells t (IsToken kind t) := by
  intro rest P hrest hP
  obtain ⟨-, ⟨g, run, hglyphs, hg⟩, hbefore⟩ := h.of_word hkind
  refine hP.token (hbefore rest hrest) ?_ ?_
  · rcases hkind with rfl | rfl <;> decide
  · rw [hglyphs]
    exact startsGap_wordChar hg

theorem Spells.parens (h : Spells t (Derives .bitwiseOr e)) :
    Spells (Text.ofChar '(' ++ (t ++ Text.ofChar ')')) (Derives .primary e) := by
  intro rest P hrest hP
  -- What stands behind a piece decides how it is read, so the tokens are found from right to left.
  have hclose := hP.single (c := ')') rfl (by decide)
  have hinner := h _ _ (endsWord_of (by decide) rest) hclose
  have hopen := hinner.single (c := '(') rfl (by decide)
  rw [Text.glyphs_ofChar_append, glyphs_append_ofChar, List.cons_append, List.append_assoc]
  exact hopen.imp fun ts hts => (hts.right fun _ => Then.assoc).assoc.imp fun _ => derives_parens

theorem Spells.sign (pos : Position) (hop : isUnary op = true)
    (h : Spells right.render (Derives .primary right)) :
    Spells (op.symbol ++ right.render) (Derives .bitwiseOr (.unary op right pos)) := by
  intro rest P hrest hP
  have hslash : op = .slash → ∀ g ∈ (right.render.glyphs ++ rest).head?, g.char ≠ '/' ∧ g.char ≠ '*' := by
    rintro rfl
    cases hop
  have hsign := (h rest P hrest hP).symbol (.inr hop) hslash
  rw [glyphs_symbol_append (.inr hop), List.append_assoc]
  exact hsign.imp fun ts hts => hts.assoc.imp fun _ => derives_sign hop

theorem Spells.join (pos : Position) (hop : op ∈ operatorLevels.flatten)
    (hl : Spells left.render (Derives .primary left)) (hr : Spells right.render (Derives .primary right)) :
    Spells (left.render ++ (Text.ofChar ' ' ++ (op.symbol ++ (Text.ofChar ' ' ++ right.render))))
      (Derives .bitwiseOr (.binary op left right pos)) := by
  intro rest P hrest hP
  have hspace : isBlank (Glyph.of ' ').char = true := by decide
  have hright := (hr rest P hrest hP).blank hspace
  -- The blank behind the operator keeps a slash from beginning a comment.
  have hop' := (hright.symbol (.inl hop) fun _ => by simp [Glyph.of]).blank hspace
  have hleft := hl _ _ (endsWord_of (by decide) _) hop'
  rw [Text.glyphs_append _ (Glyph.fresh_ofChar ' ' _), Text.glyphs_ofChar_append,
    glyphs_symbol_append (.inl hop), Text.glyphs_ofChar_append]
  simp only [List.append_assoc, List.cons_append]
  exact hleft.imp fun ts hts => (hts.right fun _ => Then.assoc).assoc.imp fun _ => derives_join hop

end Spells

/-! ### Printed expressions -/

namespace Expr

variable {e left right : Expr} {op : Token.Kind} {pos : Position}

/-- An expression that can be written: its operators are those of the grammar, and the text of every
literal is an integer with the value of the literal. -/
def Writable : Expr → Prop
  | .literal value text _ => IsLexeme .integer text ∧ Word.ofLiteral? text = some value
  | .unary op right _ => isUnary op = true ∧ right.Writable
  | .binary op left right _ => op ∈ operatorLevels.flatten ∧ left.Writable ∧ right.Writable

theorem Writable.literalsFit (h : e.Writable) : e.LiteralsFit := by
  induction e with
  | literal value text pos => exact h.2
  | unary op right pos ih => exact ih h.2
  | binary op left right pos ihl ihr => exact ⟨ihl h.2.1, ihr h.2.2⟩

/-- Taking off the outermost parentheses gives what they were put around. -/
theorem renderBare_of_render {inner : Text}
    (h : e.render = Text.ofChar '(' ++ (inner ++ Text.ofChar ')')) : e.renderBare = inner := by
  have hleft : Text.ofChar '(' = ['('.toUInt8] := by decide
  have hright : Text.ofChar ')' = [')'.toUInt8] := by decide
  have hstart : e.render.startsWith "(" = true := by
    rw [Text.startsWith_iff, leftParen_text, h]
    exact List.prefix_append _ _
  have hend : e.render.endsWith ")" = true := by
    rw [Text.endsWith, Text.startsWith_iff, rightParen_text, h, List.reverse_prefix]
    exact ⟨Text.ofChar '(' ++ inner, by simp⟩
  rw [renderBare, hstart, hend]
  simp [h, hleft, hright]

theorem render_unary : (unary op right pos).render =
    Text.ofChar '(' ++ ((op.symbol ++ right.render) ++ Text.ofChar ')') := by
  rw [render, leftParen_text, rightParen_text]
  simp only [List.append_assoc]

theorem render_binary : (binary op left right pos).render = Text.ofChar '(' ++
    ((left.render ++ (Text.ofChar ' ' ++ (op.symbol ++ (Text.ofChar ' ' ++ right.render)))) ++
      Text.ofChar ')') := by
  rw [render, leftParen_text, rightParen_text, space_text]
  simp only [List.append_assoc]

/-- A literal is printed as its text, which begins with no parenthesis. -/
theorem renderBare_literal {value : Word} {text : Text} (h : IsLexeme .integer text) :
    (literal value text pos).renderBare = text := by
  have hstart : ¬text.startsWith "(" = true := by
    rw [Text.startsWith_iff, leftParen_text]
    rintro ⟨rest, rfl⟩
    obtain ⟨-, ⟨g, run, hglyphs, hg⟩, -⟩ := h.of_word (.inl rfl)
    rw [Text.glyphs_ofChar_append] at hglyphs
    cases hglyphs
    exact absurd hg (by decide)
  rw [Bool.not_eq_true] at hstart
  simp [renderBare, render, hstart]

theorem Writable.spells (h : e.Writable) :
    Spells e.render (Derives .primary e) ∧ Spells e.renderBare (Derives .bitwiseOr e) := by
  induction e with
  | literal value text pos =>
    have hspells : Spells text (Derives .primary (literal value text pos)) :=
      (spells_word h.1 (.inl rfl)).imp fun _ => derives_literal h.2
    rw [renderBare_literal h.1]
    exact ⟨hspells, hspells.imp fun _ => Derives.loosest⟩
  | unary op right pos ih =>
    have hbare := Spells.sign pos h.1 (ih h.2).1
    rw [render_unary, renderBare_of_render render_unary]
    exact ⟨hbare.parens, hbare⟩
  | binary op left right pos ihl ihr =>
    have hbare := Spells.join pos h.1 (ihl h.2.1).1 (ihr h.2.2).1
    rw [render_binary, renderBare_of_render render_binary]
    exact ⟨hbare.parens, hbare⟩

end Expr

end Pocket

import Mathlib
import Pocket.Proofs.Printing

/-!
# Tokens written one after the other

The tokens of a source that can be read to its end, written with single spaces between them, are read as
the same tokens. A space ends every word, keeps two slashes or a slash and a star from beginning a
comment, and may stand between the keyword `asm` and its brace; inside a string and between the braces
of a block nothing is added.
-/

namespace Pocket

open Lexical

/-! ### Writing tokens -/

/-- Tokens with single spaces between them. A raw text stands directly between its braces. -/
def Token.spaced : List Token → Text
  | [] => []
  | [t] => t.written
  | t :: u :: ts =>
    let gap : Text := if t.kind = .rawText ∨ u.kind = .rawText then [] else " "
    t.written ++ (gap ++ spaced (u :: ts))

/-- Tokens of the same kinds and lexemes. -/
def Token.SameWords (ts us : List Token) : Prop :=
  us.map (fun t => (t.kind, t.lexeme)) = ts.map fun t => (t.kind, t.lexeme)

section Spaced

variable {pos : Position} {gs gap tok key body rest rest' front : List Glyph} {t : Token} {ts us : List Token}
  {kind : Token.Kind} {lexeme source : Text} {P : List Token → Prop}

/-- The first token of a source is no raw text. -/
theorem Lexical.Layout.head_kind (h : Layout pos gs ts) : ∃ u us, ts = u :: us ∧ u.kind ≠ .rawText := by
  cases h with
  | stop => exact ⟨_, _, rfl, by simp⟩
  | token _ htok => exact ⟨_, _, rfl, htok.kind_class.2⟩
  | asm => exact ⟨_, _, rfl, by simp⟩

theorem Token.spaced_cons (ht : t.kind ≠ .rawText) (hts : ∃ u us, ts = u :: us ∧ u.kind ≠ .rawText) :
    spaced (t :: ts) = t.written ++ (Text.ofChar ' ' ++ spaced ts) := by
  obtain ⟨u, us, rfl, hu⟩ := hts
  rw [spaced, if_neg (by simp [ht, hu]), space_text]

theorem Token.spaced_block {lbrace raw rbrace : Token} (hraw : raw.kind = .rawText)
    (hr : rbrace.kind ≠ .rawText) (hts : ∃ u us, ts = u :: us ∧ u.kind ≠ .rawText) :
    spaced (lbrace :: raw :: rbrace :: ts) =
      lbrace.written ++ (raw.written ++ (rbrace.written ++ (Text.ofChar ' ' ++ spaced ts))) := by
  rw [spaced, if_pos (.inr hraw), List.nil_append, spaced, if_pos (.inl hraw), List.nil_append,
    spaced_cons hr hts]

/-! ### A space behind a token -/

/-- What a token is does not depend on what follows it, as long as no word goes on there. -/
theorem Lexical.Lexeme.in_front (h : Lexeme tok rest kind lexeme) (hrest : EndsWord rest') :
    Lexeme tok rest' kind lexeme := by
  cases h with
  | word hg hrun => exact .word hg ⟨hrun.1, hrest⟩
  | integer hword hg hrun hshape => exact .integer hword hg ⟨hrun.1, hrest⟩ hshape
  | string ha hinside hb => exact .string ha hinside hb
  | single hg => exact .single hg
  | double ha hb => exact .double ha hb

/-- No token becomes a gap by a space behind it. -/
theorem startsGap_spaced (hne : tok ≠ []) (h : startsGap (tok ++ rest) = false) :
    startsGap (tok ++ Glyph.of ' ' :: rest') = false := by
  obtain ⟨g, more, rfl⟩ := List.exists_cons_of_ne_nil hne
  rw [List.cons_append, ← Bool.not_eq_true, startsGap_cons] at h ⊢
  rintro (⟨hslash, e, he, hchar⟩ | hblank)
  · cases more with
    | nil =>
      obtain rfl : Glyph.of ' ' = e := Option.some.inj he
      rcases hchar with hchar | hchar <;> exact absurd hchar (by decide)
    | cons d more => exact h (.inl ⟨hslash, e, he, hchar⟩)
  · exact h (.inr hblank)

theorem endsWord_space (rest : List Glyph) : EndsWord (Glyph.of ' ' :: rest) :=
  endsWord_of (by decide) rest

theorem LaysOut.spaced_token (h : LaysOut rest' P) (htok : Lexeme tok rest kind lexeme) (hkind : kind ≠ .asm)
    (hgap : startsGap (tok ++ rest) = false) :
    LaysOut (tok ++ Glyph.of ' ' :: rest') (Then (IsToken kind lexeme) P) :=
  (h.blank (by decide)).token (htok.in_front (endsWord_space rest')) hkind
    (startsGap_spaced htok.ne_nil hgap)

/-- The keyword `asm`, a space, and the block as it stood. -/
theorem LaysOut.spaced_block (h : LaysOut rest' P) (hkey : Lexeme key rest .asm lexeme)
    (hgap : startsGap (key ++ rest) = false) (hbody : ∀ g ∈ body, g.char ≠ '\x7d') :
    LaysOut (key ++ Glyph.of ' ' :: Glyph.of '\x7b' :: (body ++ Glyph.of '\x7d' :: Glyph.of ' ' :: rest'))
      (Then (IsToken .asm lexeme) (Then (IsToken .leftBrace "\x7b")
        (Then (IsToken .rawText (.ofGlyphs body)) (Then (IsToken .rightBrace "\x7d") P)))) := by
  intro pos
  have hspace : Gap [Glyph.of ' '] (⟨'\x7b', "\x7b"⟩ :: (body ++ ⟨'\x7d', "\x7d"⟩ :: Glyph.of ' ' :: rest')) :=
    .blank (by decide) (.none (startsGap_eq_false (by decide) (by decide)))
  obtain ⟨ts, hts, hP⟩ := h.blank (g := Glyph.of ' ') (by decide)
    (pos.after ([] ++ key ++ [Glyph.of ' '] ++ ⟨'\x7b', "\x7b"⟩ :: body ++ [⟨'\x7d', "\x7d"⟩]))
  refine ⟨_, .asm (.none (startsGap_spaced hkey.ne_nil hgap)) (hkey.in_front (endsWord_space _)) hspace hbody hts,
    [_], _, rfl, ⟨_, rfl⟩, [_], _, rfl, ⟨_, rfl⟩, [_], _, rfl, ⟨_, rfl⟩, [_], ts, rfl, ⟨_, rfl⟩, hP⟩

/-! ### Reading what was written -/

theorem Token.SameWords.cons {us : List Token}
    (h : Then (IsToken kind lexeme) (Token.SameWords ts) us) : SameWords (⟨kind, lexeme, pos⟩ :: ts) us := by
  obtain ⟨_, vs, rfl, ⟨pos', rfl⟩, hvs⟩ := h
  simpa [SameWords] using hvs

/-- A token of a text is read as it was read there. -/
theorem glyphs_written (hsource : source.glyphs = front ++ (tok ++ rest)) (htok : Lexeme tok rest t.kind t.lexeme)
    (more : Text) : (t.written ++ (Text.ofChar ' ' ++ more)).glyphs = tok ++ Glyph.of ' ' :: more.glyphs := by
  have hspelled := spelled_of_glyphs hsource
  have hwritten : t.written = Text.ofGlyphs tok := (htok.written fun g hg => hspelled g (by simp [hg])).symm
  rw [Text.glyphs_append _ (Glyph.fresh_ofChar ' ' more), Text.glyphs_ofChar_append, hwritten,
    Text.glyphs_middle hsource]

theorem glyphs_block (hsource : source.glyphs = front ++ (body ++ rest)) (more : Text) :
    (Text.ofChar '\x7b' ++ (Text.ofGlyphs body ++ (Text.ofChar '\x7d' ++ (Text.ofChar ' ' ++ more)))).glyphs =
      Glyph.of '\x7b' :: (body ++ Glyph.of '\x7d' :: Glyph.of ' ' :: more.glyphs) := by
  rw [Text.glyphs_ofChar_append, Text.glyphs_append _ (Glyph.fresh_ofChar '\x7d' _), Text.glyphs_ofChar_append,
    Text.glyphs_ofChar_append, Text.glyphs_middle hsource]

/-- The tokens of a part of a source are read again when they are written with spaces. -/
theorem Lexical.Layout.spaced (h : Layout pos gs ts) (front : List Glyph) (hsource : source.glyphs = front ++ gs) :
    LaysOut (Token.spaced ts).glyphs (Token.SameWords ts) := by
  induction h generalizing front with
  | stop => exact laysOut_nil.imp fun us hus => by obtain ⟨pos', rfl⟩ := hus; rfl
  | @token pos gap tok rest kind lexeme ts hgap htok hkind hrest ih =>
    have htoken : source.glyphs = front ++ gap ++ (tok ++ rest) := by simp [hsource]
    have hts := ih (front ++ gap ++ tok) (by simp [hsource])
    rw [Token.spaced_cons htok.kind_class.2 hrest.head_kind, glyphs_written htoken htok]
    exact (hts.spaced_token htok hkind hgap.rest_starts).imp fun us hus => .cons hus
  -- The tokens of a block are written with a space behind the keyword and behind the last brace.
  | @asm pos gap key space body rest lexeme ts hgap hkey hspace hbody hrest ih =>
    have hblock : source.glyphs = front ++ gap ++ key ++ space ++ [⟨'\x7b', "\x7b"⟩] ++
        (body ++ ⟨'\x7d', "\x7d"⟩ :: rest) := by simp [hsource]
    have hts := ih (front ++ gap ++ key ++ space ++ ⟨'\x7b', "\x7b"⟩ :: body ++ [⟨'\x7d', "\x7d"⟩])
      (by simp [hsource])
    have hkeyword : source.glyphs = front ++ gap ++
        (key ++ (space ++ ⟨'\x7b', "\x7b"⟩ :: (body ++ ⟨'\x7d', "\x7d"⟩ :: rest))) := by simp [hsource]
    rw [Token.spaced_cons (by simp) ⟨_, _, rfl, by simp⟩, glyphs_written hkeyword hkey,
      Token.spaced_block rfl (by simp) hrest.head_kind]
    change LaysOut (key ++ Glyph.of ' ' :: (Text.ofChar '\x7b' ++ (Text.ofGlyphs body ++
      (Text.ofChar '\x7d' ++ (Text.ofChar ' ' ++ Token.spaced ts)))).glyphs) _
    rw [glyphs_block hblock]
    refine (hts.spaced_block hkey hgap.rest_starts hbody).imp fun us hus => .cons ?_
    exact hus.right fun us hus => .cons (hus.right fun us hus => .cons (hus.right fun us hus => .cons hus))

end Spaced

/-- The tokens of a source, written with single spaces between them, are read as the same tokens. -/
theorem tokens_written_back (source : Text) (ts : List Token) (h : source.lex = .ok ts) :
    ∃ us, (Token.spaced ts).lex = .ok us ∧
      us.map (fun t => (t.kind, t.lexeme)) = ts.map fun t => (t.kind, t.lexeme) := by
  obtain ⟨us, hus, hwords⟩ := (lex_eq_ok_iff.mp h).spaced [] rfl .start
  exact ⟨us, lex_eq_ok_iff.mpr hus, hwords⟩

/-- Slashes on both sides of a comment, a quote in a string, and a comment between the keyword
`asm` and a block that holds what would begin one. -/
def crowdedSource : Text :=
  "/ /**//\"\\\"\"asm//\n\x7b/*\x7d"

def crowdedTokens : List Token :=
  [⟨.slash, "/", ⟨1, 1⟩⟩, ⟨.slash, "/", ⟨1, 7⟩⟩, ⟨.string, "\\\"", ⟨1, 8⟩⟩, ⟨.asm, "asm", ⟨1, 12⟩⟩,
    ⟨.leftBrace, "\x7b", ⟨2, 1⟩⟩, ⟨.rawText, "/*", ⟨2, 2⟩⟩, ⟨.rightBrace, "\x7d", ⟨2, 4⟩⟩, ⟨.eof, [], ⟨2, 5⟩⟩]

theorem tokens_written_back_crowded : crowdedSource.lex = .ok crowdedTokens ∧
    Token.spaced crowdedTokens = "/ / \"\\\"\" asm \x7b/*\x7d " ∧
    ∃ us, (Token.spaced crowdedTokens).lex = .ok us ∧
      us.map (fun t => (t.kind, t.lexeme)) = crowdedTokens.map fun t => (t.kind, t.lexeme) := by
  have hlex : crowdedSource.lex = .ok crowdedTokens := by cbv
  exact ⟨hlex, by decide, tokens_written_back crowdedSource crowdedTokens hlex⟩

end Pocket

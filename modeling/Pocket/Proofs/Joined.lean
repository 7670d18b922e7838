import Mathlib
import Pocket.Proofs.Blame
import Pocket.Proofs.LayoutFree
import Pocket.Proofs.RawKept

/-!
# Texts joined by newlines

Texts that can be read to their ends, put together with newlines between them, are read as their tokens
one after the other. A newline ends a comment that the text before it left open at its end, it separates
words, and it begins no comment.
-/

namespace Pocket

open Lexical

section Layouts

variable {nl : Glyph} {pos : Position} {gs more gap tok rest front : List Glyph} {ts us : List Token}

/-! ### A blank behind -/

theorem startsGap_followed (hmore : ∀ g ∈ more.head?, isBlank g.char = true) (hgs : gs ≠ [])
    (h : startsGap gs = false) : startsGap (gs ++ more) = false := by
  obtain ⟨g, gs, rfl⟩ := List.exists_cons_of_ne_nil hgs
  rw [List.cons_append, ← Bool.not_eq_true, startsGap_cons]
  rw [← Bool.not_eq_true, startsGap_cons] at h
  cases gs with
  | nil =>
    rintro (⟨-, e, he, hchar⟩ | hblank)
    · have hblank := hmore e he
      rcases hchar with hchar | hchar <;>
        · rw [hchar] at hblank
          exact absurd hblank (by decide)
    · exact h (.inr hblank)
  | cons e gs => exact h

theorem Lexical.IsRun.followed (hmore : ∀ g ∈ more.head?, isBlank g.char = true) (h : IsRun tok rest) :
    IsRun tok (rest ++ more) := by
  refine ⟨h.1, ?_⟩
  cases rest with
  | nil =>
    intro g hg
    rw [← Bool.not_eq_true]
    intro hword
    have hblank := hmore g hg
    rw [isBlank_of_wordChar hword] at hblank
    cases hblank
  | cons g rest => exact h.2

theorem Lexical.Lexeme.followed {kind : Token.Kind} {lexeme : Text}
    (hmore : ∀ g ∈ more.head?, isBlank g.char = true) (h : Lexeme tok rest kind lexeme) :
    Lexeme tok (rest ++ more) kind lexeme := by
  cases h with
  | word hg hrun => exact .word hg (hrun.followed hmore)
  | integer hword hg hrun hshape => exact .integer hword hg (hrun.followed hmore) hshape
  | string ha hinside hb => exact .string ha hinside hb
  | single hg => exact .single hg
  | double ha hb => exact .double ha hb

/-- A gap at the end of a text goes on behind a newline. -/
theorem Lexical.Gap.followed (hnl : nl.char = '\n') (h : Gap gap []) (hmore : Gap more rest) :
    Gap (gap ++ nl :: more) rest := by
  generalize hend : ([] : List Glyph) = stop at h
  have hblank : isBlank nl.char = true := by
    rw [hnl]
    decide
  induction h with
  | none => exact .blank hblank hmore
  | blank hg _ ih => exact .blank hg (ih hend)
  | @line a b newline text gap _ ha hb htext hnewline _ ih =>
    simp only [List.cons_append, List.append_assoc]
    exact .line ha hb htext hnewline (ih hend)
  | lastLine ha hb htext => exact .line ha hb htext hnl hmore
  | @block a b c d text gap _ ha hb htext hc hd _ ih =>
    simp only [List.cons_append, List.append_assoc]
    exact .block ha hb htext hc hd (ih hend)

/-! ### Tokens one after the other -/

/-- Where a text begins does not matter for what its tokens are. -/
theorem Lexical.Layout.moved (h : Layout pos gs ts) (pos' : Position) :
    ∃ ts', Layout pos' gs ts' ∧ unplacedAll ts' = unplacedAll ts := by
  induction h generalizing pos' with
  | stop hgap => exact ⟨_, .stop hgap, rfl⟩
  | @token pos gap tok rest kind lexeme ts hgap htok hkind _ ih =>
    obtain ⟨ts', hts', heq⟩ := ih (pos'.after (gap ++ tok))
    refine ⟨_, .token hgap htok hkind hts', ?_⟩
    simp only [unplacedAll_cons, heq, Token.unplaced]
  | asm hgap hkey hspace hbody _ ih =>
    obtain ⟨ts', hts', heq⟩ := ih _
    refine ⟨_, .asm hgap hkey hspace hbody hts', ?_⟩
    simp only [unplacedAll_cons, heq, Token.unplaced]

theorem Lexical.Layout.behind_gap (h : Layout pos gs ts)
    (hfront : ∀ gap rest, Gap gap rest → Gap (front ++ gap) rest) (pos' : Position) :
    ∃ ts', Layout pos' (front ++ gs) ts' ∧ unplacedAll ts' = unplacedAll ts := by
  cases h with
  | stop hgap => exact ⟨_, .stop (hfront _ _ hgap), rfl⟩
  | @token _ gap tok rest kind lexeme ts hgap htok hkind hts =>
    obtain ⟨ts', hts', heq⟩ := hts.moved (pos'.after (front ++ gap ++ tok))
    rw [← List.append_assoc]
    refine ⟨_, .token (hfront _ _ hgap) htok hkind hts', ?_⟩
    simp only [unplacedAll_cons, heq, Token.unplaced]
  | asm hgap hkey hspace hbody hts =>
    obtain ⟨ts', hts', heq⟩ := hts.moved _
    rw [← List.append_assoc]
    refine ⟨_, .asm (hfront _ _ hgap) hkey hspace hbody hts', ?_⟩
    simp only [unplacedAll_cons, heq, Token.unplaced]

theorem unplacedAll_dropLast_cons {t t' : Token} {vs : List Token} (ht : t'.unplaced = t.unplaced)
    (hts : ts ≠ []) (h : unplacedAll vs = unplacedAll (ts.dropLast ++ us)) :
    unplacedAll (t' :: vs) = unplacedAll ((t :: ts).dropLast ++ us) := by
  rw [List.dropLast_cons_of_ne_nil hts, List.cons_append, unplacedAll_cons, unplacedAll_cons, ht, h]

/-- A text, a newline and another text: the end token of the first gives way to the tokens of the
second. -/
theorem Lexical.Layout.followed (hnl : nl.char = '\n') (h : Layout pos gs ts) {pos₂ : Position}
    (hmore : Layout pos₂ more us) :
    ∃ vs, Layout pos (gs ++ nl :: more) vs ∧ unplacedAll vs = unplacedAll (ts.dropLast ++ us) := by
  have hblank : ∀ g ∈ (nl :: more).head?, isBlank g.char = true := by
    intro g hg
    obtain rfl : nl = g := Option.some.inj hg
    rw [hnl]
    decide
  induction h with
  | @stop pos gap hgap =>
    -- The last blanks, the newline and the first blanks of the second text are one gap.
    have hfront : ∀ gap' rest, Gap gap' rest → Gap (gap ++ [nl] ++ gap') rest := by
      intro gap' rest hgap'
      simpa using hgap.followed hnl hgap'
    obtain ⟨vs, hvs, heq⟩ := hmore.behind_gap hfront pos
    exact ⟨vs, by simpa using hvs, heq⟩
  | @token pos gap tok rest kind lexeme ts hgap htok hkind hts ih =>
    obtain ⟨vs, hvs, heq⟩ := ih
    have hne : tok ++ rest ≠ [] := by simp [htok.ne_nil]
    have hgap' : Gap gap (tok ++ (rest ++ nl :: more)) := by
      refine hgap.of_rest hne ?_
      rw [← List.append_assoc]
      exact startsGap_followed hblank hne hgap.rest_starts
    simp only [List.append_assoc]
    exact ⟨_, .token hgap' (htok.followed hblank) hkind hvs, unplacedAll_dropLast_cons rfl hts.ne_nil heq⟩
  | @asm pos gap key space body rest lexeme ts hgap hkey hspace hbody hts ih =>
    obtain ⟨vs, hvs, heq⟩ := ih
    have hne : key ++ (space ++ ⟨'\x7b', "\x7b"⟩ :: (body ++ ⟨'\x7d', "\x7d"⟩ :: rest)) ≠ [] := by simp
    have hgap' := hgap.of_rest hne (startsGap_followed hblank hne hgap.rest_starts)
    have hkey' := hkey.followed hblank
    have hspace' : Gap space (⟨'\x7b', "\x7b"⟩ :: (body ++ ⟨'\x7d', "\x7d"⟩ :: (rest ++ nl :: more))) :=
      hspace.of_rest (by simp) (startsGap_brace _)
    simp only [List.append_assoc, List.cons_append] at hgap' hkey' ⊢
    refine ⟨_, .asm hgap' hkey' hspace' hbody hvs, ?_⟩
    refine unplacedAll_dropLast_cons rfl (by simp) ?_
    refine unplacedAll_dropLast_cons rfl (by simp) ?_
    refine unplacedAll_dropLast_cons rfl (by simp) ?_
    exact unplacedAll_dropLast_cons rfl hts.ne_nil heq

end Layouts

/-! ### Joined texts -/

theorem lex_followed {s t : Text} {ts us : List Token} (hs : s.lex = .ok ts) (ht : t.lex = .ok us) :
    ∃ vs, (s ++ newline :: t).lex = .ok vs ∧ unplacedAll vs = unplacedAll (ts.dropLast ++ us) := by
  have hglyphs : (s ++ newline :: t).glyphs = s.glyphs ++ Glyph.of '\n' :: t.glyphs := by
    rw [← Text.glyphs_ofChar_append]
    exact Text.glyphs_append s (Glyph.fresh_ofChar '\n' t)
  have hnl : (Glyph.of '\n').char = '\n' := rfl
  obtain ⟨vs, hvs, heq⟩ := (lex_eq_ok_iff.mp hs).followed hnl (lex_eq_ok_iff.mp ht)
  exact ⟨vs, lex_eq_ok_iff.mpr (hglyphs ▸ hvs), heq⟩

/-- The tokens of a text without the one that ends it. -/
def Text.bodyTokens (t : Text) : List Token :=
  match t.lex with
  | .ok ts => ts.dropLast
  | .error _ => []

theorem Text.bodyTokens_eq {t : Text} {body : List Token} {last : Token}
    (h : t.lex = .ok (body ++ [last])) : t.bodyTokens = body := by
  rw [bodyTokens, h]
  simp

/-- Joined texts are read as their tokens one after the other, up to one end. -/
theorem lex_join {texts : List Text} (h : ∀ t ∈ texts, ∃ ts, t.lex = .ok ts) :
    ∃ vs last, (Text.join "\n" texts).lex = .ok vs ∧ last.kind = .eof ∧
      unplacedAll vs = unplacedAll (texts.flatMap Text.bodyTokens ++ [last]) := by
  have hbreak : ("\n" : Text) = [newline] := by decide
  induction texts with
  | nil => exact ⟨_, _, lex_eq_ok_iff.mpr (.stop (.none rfl)), rfl, rfl⟩
  | cons t texts ih =>
    obtain ⟨⟨ts, hts⟩, htexts⟩ := List.forall_mem_cons.mp h
    obtain ⟨body, last, rfl, -, hlast⟩ := (lex_eq_ok_iff.mp hts).ends
    cases texts with
    | nil =>
      refine ⟨body ++ [last], last, ?_, hlast, ?_⟩
      · simpa [Text.join, List.intercalate] using hts
      · simp [Text.bodyTokens_eq hts]
    -- The end of the first text becomes a newline, so its tokens are followed by those of the others.
    | cons u texts =>
      obtain ⟨us, last', hus, hlast', heq⟩ := ih htexts
      obtain ⟨vs, hvs, heq'⟩ := lex_followed hts hus
      refine ⟨vs, last', ?_, hlast', ?_⟩
      · rw [← hvs, Text.join, Text.join, hbreak, List.intercalate_cons_cons]
        simp
      · rw [heq', List.dropLast_concat, List.flatMap_cons, Text.bodyTokens_eq hts, List.append_assoc]
        simp only [unplacedAll, List.map_append] at heq ⊢
        rw [heq]

end Pocket

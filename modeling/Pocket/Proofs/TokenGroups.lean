import Pocket.Proofs.Spans

/-!
# Groups of tokens

The keyword `asm` and the block behind it are four tokens in every source that can be read to its end:
the keyword, an opening brace, a raw text and a closing brace. Raw texts stand nowhere else, and the end
token stands at the end and nowhere else.
-/

namespace Pocket

namespace Token

/-- What holds of the tokens of a source, said of each place in the list. -/
structure InGroups (ts : List Token) : Prop where
  block : ∀ front key back, ts = front ++ key :: back → key.kind = .asm →
    ∃ lbrace raw rbrace rest, back = lbrace :: raw :: rbrace :: rest ∧ lbrace.kind = .leftBrace ∧
      raw.kind = .rawText ∧ rbrace.kind = .rightBrace
  raw : ∀ front raw back, ts = front ++ raw :: back → raw.kind = .rawText →
    '\x7d'.toUInt8 ∉ raw.lexeme ∧
      ∃ before key lbrace, front = before ++ [key, lbrace] ∧ key.kind = .asm ∧ lbrace.kind = .leftBrace
  stop : ∃ body last, ts = body ++ [last] ∧ last.kind = .eof ∧ ∀ t ∈ body, t.kind ≠ .eof

/-- Tokens up to the end, taken off from the front: one at a time, or a block with its keyword. -/
inductive Grouped : List Token → Prop where
  | stop {t : Token} (ht : t.kind = .eof) : Grouped [t]
  | token {t : Token} {ts : List Token} (heof : t.kind ≠ .eof) (hasm : t.kind ≠ .asm)
      (hraw : t.kind ≠ .rawText) : Grouped ts → Grouped (t :: ts)
  | block {key lbrace raw rbrace : Token} {ts : List Token} (hkey : key.kind = .asm)
      (hleft : lbrace.kind = .leftBrace) (hraw : raw.kind = .rawText)
      (htext : '\x7d'.toUInt8 ∉ raw.lexeme) (hright : rbrace.kind = .rightBrace) :
      Grouped ts → Grouped (key :: lbrace :: raw :: rbrace :: ts)

variable {t : Token} {ts front back : List Token}

theorem Grouped.ne_nil (h : Grouped ts) : ts ≠ [] := by
  cases h <;> simp

theorem Grouped.head_ne_raw (h : Grouped (t :: ts)) : t.kind ≠ .rawText := by
  cases h with
  | stop ht => simp [ht]
  | token _ _ hraw => exact hraw
  | block hkey => simp [hkey]

/-- A token that is neither the end nor a keyword `asm` can be taken off. -/
theorem Grouped.tail (h : Grouped (t :: ts)) (heof : t.kind ≠ .eof) (hasm : t.kind ≠ .asm) : Grouped ts := by
  cases h with
  | stop ht => exact absurd ht heof
  | token _ _ _ hts => exact hts
  | block hkey => exact absurd hkey hasm

/-- A keyword `asm` can be taken off with its block. -/
theorem Grouped.behind_asm (h : Grouped (t :: ts)) (hasm : t.kind = .asm) :
    ∃ lbrace raw rbrace rest, ts = lbrace :: raw :: rbrace :: rest ∧ lbrace.kind = .leftBrace ∧
      raw.kind = .rawText ∧ rbrace.kind = .rightBrace ∧ Grouped rest := by
  cases h with
  | stop ht => simp [ht] at hasm
  | token _ hne => exact absurd hasm hne
  | @block _ lbrace raw rbrace rest _ hleft hraw _ hright hrest =>
    exact ⟨lbrace, raw, rbrace, rest, rfl, hleft, hraw, hright, hrest⟩

theorem Grouped.ends (h : Grouped ts) :
    ∃ body last, ts = body ++ [last] ∧ last.kind = .eof ∧ ∀ t ∈ body, t.kind ≠ .eof := by
  induction h with
  | @stop t ht => exact ⟨[], t, rfl, ht, by simp⟩
  | token heof _ _ _ ih =>
    obtain ⟨body, last, rfl, hlast, hbody⟩ := ih
    exact ⟨_ :: body, last, rfl, hlast, List.forall_mem_cons.mpr ⟨heof, hbody⟩⟩
  | block hkey hleft hraw _ hright _ ih =>
    obtain ⟨body, last, rfl, hlast, hbody⟩ := ih
    refine ⟨_ :: _ :: _ :: _ :: body, last, rfl, hlast, ?_⟩
    simpa [hkey, hleft, hraw, hright] using hbody

/-- Groups begin at every token that is no brace, except at a raw text, which stands in a block. -/
theorem Grouped.at_token (h : Grouped ts) (hts : ts = front ++ t :: back) (hleft : t.kind ≠ .leftBrace)
    (hright : t.kind ≠ .rightBrace) : Grouped (t :: back) ∨
      (t.kind = .rawText ∧ '\x7d'.toUInt8 ∉ t.lexeme ∧
        ∃ before key lbrace, front = before ++ [key, lbrace] ∧ key.kind = .asm ∧ lbrace.kind = .leftBrace) := by
  induction h generalizing front with
  | @stop u hu =>
    cases front with
    | nil =>
      cases hts
      exact .inl (.stop hu)
    | cons v front => simp at hts
  | @token u us heof hasm hraw hus ih =>
    cases front with
    | nil =>
      cases hts
      exact .inl (.token heof hasm hraw hus)
    | cons v front =>
      obtain ⟨rfl, hus⟩ := List.cons.inj hts
      refine (ih hus).imp_right ?_
      rintro ⟨hkind, htext, before, key, lbrace, rfl, hkey⟩
      exact ⟨hkind, htext, u :: before, key, lbrace, rfl, hkey⟩
  | @block key lbrace raw rbrace us hkey hl hraw htext hr hus ih =>
    -- The token is one of the four, or it stands behind the block.
    match front, hts with
    | [], hts =>
      cases hts
      exact .inl (.block hkey hl hraw htext hr hus)
    | [_], hts =>
      cases hts
      exact absurd hl hleft
    | [_, _], hts =>
      cases hts
      exact .inr ⟨hraw, htext, [], key, lbrace, rfl, hkey, hl⟩
    | [_, _, _], hts =>
      cases hts
      exact absurd hr hright
    | a :: b :: c :: d :: front, hts =>
      simp only [List.cons_append, List.cons.injEq] at hts
      obtain ⟨rfl, rfl, rfl, rfl, hts⟩ := hts
      refine (ih hts).imp_right ?_
      rintro ⟨hkind, htext, before, key', lbrace', rfl, hkey'⟩
      exact ⟨hkind, htext, key :: lbrace :: raw :: rbrace :: before, key', lbrace', rfl, hkey'⟩

theorem Grouped.inGroups (h : Grouped ts) : InGroups ts where
  block := by
    intro front key back hts hkey
    rcases h.at_token hts (by simp [hkey]) (by simp [hkey]) with hgroup | ⟨hraw, -⟩
    · obtain ⟨lbrace, raw, rbrace, rest, hback, hl, hraw, hr, -⟩ := hgroup.behind_asm hkey
      exact ⟨lbrace, raw, rbrace, rest, hback, hl, hraw, hr⟩
    · simp [hraw] at hkey
  raw := by
    intro front raw back hts hraw
    rcases h.at_token hts (by simp [hraw]) (by simp [hraw]) with hgroup | ⟨-, hblock⟩
    · exact absurd hraw hgroup.head_ne_raw
    · exact hblock
  stop := h.ends

/-- If something is left of the tokens, the end token is not taken. -/
theorem Grouped.taken (h : Grouped ts) {taken left : List Token} (hts : ts = taken ++ left)
    (hleft : left ≠ []) : ∀ t ∈ taken, t.kind ≠ .eof := by
  obtain ⟨body, last, hbody, -, hne⟩ := h.ends
  obtain ⟨init, u, rfl⟩ := List.eq_nil_or_concat left |>.resolve_left hleft
  rw [hts, List.concat_eq_append, ← List.append_assoc] at hbody
  obtain ⟨rfl, -⟩ := List.append_inj' hbody rfl
  exact fun t ht => hne t (List.mem_append_left init ht)

end Token

/-! ### The tokens of a source -/

open Lexical Token

variable {pos : Position} {gs : List Glyph} {ts : List Token} {source : Text}

theorem Lexical.Layout.grouped (h : Layout pos gs ts) (hspelled : ∀ g ∈ gs, g.Spelled) : Grouped ts := by
  induction h with
  | stop => exact .stop rfl
  | token _ htok hkind _ ih =>
    refine .token htok.kind_class.1 hkind htok.kind_class.2 (ih fun g hg => hspelled g ?_)
    simp [hg]
  | @asm pos gap key space body rest lexeme ts _ _ _ hbody _ ih =>
    refine .block rfl rfl rfl ?_ rfl (ih fun g hg => hspelled g (by simp [hg]))
    exact not_mem_ofGlyphs (fun g hg => hspelled g (by simp [hg])) (by decide) hbody

theorem grouped_of_lex (h : source.lex = .ok ts) : Grouped ts :=
  (lex_eq_ok_iff.mp h).grouped Glyph.spelled_glyphs

end Pocket

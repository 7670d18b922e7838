import Mathlib
import Pocket.Proofs.Pieces
import Pocket.Proofs.RawBlocks

/-!
# Raw bodies under preprocessing

The preprocessor and the lexer each find the raw bodies of a source for themselves: the one by bytes and
lines, the other by characters and tokens. They agree on every source in which a raw body cannot be
mistaken, and there no macro is expanded in a raw body.
-/

namespace Pocket

open Lexical

/-! ### Beginnings -/

section Beginnings

variable {g : Glyph} {gs gs' gap rest rest' : List Glyph}

/-- Glyphs that begin with the same glyph, or both with a word character. -/
def BeginAlike (gs gs' : List Glyph) : Prop :=
  gs'.head? = gs.head? ∨ ((∃ g ∈ gs.head?, Token.isWordChar g.char = true) ∧
    ∃ g ∈ gs'.head?, Token.isWordChar g.char = true)

theorem BeginAlike.startsGap_cons (h : BeginAlike gs gs') (hgap : startsGap (g :: gs) = false) :
    startsGap (g :: gs') = false := by
  rw [← Bool.not_eq_true, Pocket.startsGap_cons] at hgap ⊢
  rcases h with heq | ⟨-, d, hd, hword⟩
  · rwa [heq]
  · rintro (⟨hslash, e, he, hchar⟩ | hblank)
    · obtain rfl : d = e := Option.some.inj (hd.symm.trans he)
      rcases hchar with hchar | hchar <;> rw [hchar] at hword <;> exact absurd hword (by decide)
    · exact hgap (.inr hblank)

theorem BeginAlike.not_wordChar (h : BeginAlike gs gs')
    (hgs : ∀ g ∈ gs.head?, Token.isWordChar g.char = false) :
    ∀ g ∈ gs'.head?, Token.isWordChar g.char = false := by
  rcases h with heq | ⟨⟨g, hg, hword⟩, -⟩
  · rwa [heq]
  · rw [hgs g hg] at hword
    cases hword

theorem BeginAlike.behind (h : BeginAlike rest rest') (gs : List Glyph) :
    BeginAlike (gs ++ rest) (gs ++ rest') := by
  cases gs with
  | nil => exact h
  | cons g gs => exact .inl rfl

/-- A gap in front of one token may stand in front of another. -/
theorem Lexical.Gap.of_rest (h : Gap gap rest) (hrest : rest ≠ []) (hrest' : startsGap rest' = false) :
    Gap gap rest' := by
  induction h with
  | none => exact .none hrest'
  | blank hg _ ih => exact .blank hg (ih hrest)
  | line ha hb htext hnewline _ ih => exact .line ha hb htext hnewline (ih hrest)
  | lastLine => exact absurd rfl hrest
  | block ha hb htext hc hd _ ih => exact .block ha hb htext hc hd (ih hrest)

/-! #### Well-formed beginnings -/

theorem begun_cons (hg : g.char ≠ Glyph.replacement) :
    ∀ d ∈ (g :: gs).head?, d.char ≠ Glyph.replacement := by
  intro d hd
  obtain rfl : g = d := Option.some.inj hd
  exact hg

theorem Lexical.Gap.begun (h : Gap gap rest) : ∀ g ∈ gap.head?, g.char ≠ Glyph.replacement := by
  cases h with
  | none => simp
  | blank hg => exact begun_cons (isBlank_ne_replacement hg)
  | line ha => exact begun_cons (by rw [ha]; decide)
  | lastLine ha => exact begun_cons (by rw [ha]; decide)
  | block ha => exact begun_cons (by rw [ha]; decide)

theorem Lexical.IsRun.begun (h : IsRun gs rest) : ∀ g ∈ gs.head?, g.char ≠ Glyph.replacement :=
  fun g hg => wordChar_ne_replacement (h.1 g (List.mem_of_mem_head? hg))

theorem Lexical.Lexeme.begun {kind : Token.Kind} {lexeme : Text} (h : Lexeme gs rest kind lexeme) :
    ∀ g ∈ gs.head?, g.char ≠ Glyph.replacement := by
  cases h with
  | word _ hrun => exact hrun.begun
  | integer _ _ hrun => exact hrun.begun
  | string ha => exact begun_cons (by rw [ha]; decide)
  | single hg => exact begun_cons (punctuation?_ne_replacement hg)
  | double ha => exact begun_cons (doubled?_ne_replacement ha)

/-- Glyphs that begin with a well-formed one can be read behind others. -/
theorem read_append (hgs : (Text.ofGlyphs gs).glyphs = gs) (hrest : (Text.ofGlyphs rest).glyphs = rest)
    (hbegun : ∀ g ∈ rest.head?, g.char ≠ Glyph.replacement) :
    (Text.ofGlyphs (gs ++ rest)).glyphs = gs ++ rest := by
  have hfresh : Glyph.Fresh (Text.ofGlyphs rest) := by
    cases rest with
    | nil => exact fun b hb => by cases hb
    | cons g rest =>
      have hg : g.Spelled := spelled_of_glyphs hrest g List.mem_cons_self
      rw [Text.ofGlyphs_cons, hg.bytes_eq rfl (hbegun g rfl)]
      exact Glyph.fresh_ofChar g.char _
  rw [Text.ofGlyphs_append, Text.glyphs_append _ hfresh, hgs, hrest]

end Beginnings

/-! ### Taking a source apart -/

section Layouts

variable {g : Glyph} {pos : Position} {gap tok key space body rest run : List Glyph} {kind : Token.Kind}
  {lexeme : Text} {ts : List Token}

theorem rawTexts_stop (hgap : Gap gap []) (h : Layout pos gap ts) : rawTexts ts = [] := by
  have htokens : (Lexer.inCode [] pos gap).tokens = (ts, none) := tokens_complete h
  rw [tokens_stop (next_inCode_stop hgap) rfl] at htokens
  obtain ⟨rfl, -⟩ := Prod.mk.inj htokens
  rfl

theorem rawTexts_token (hspelled : ∀ g ∈ rest, g.Spelled) (hgap : Gap gap (tok ++ rest))
    (htok : Lexeme tok rest kind lexeme) (hkind : kind ≠ .asm)
    (h : Layout pos (gap ++ (tok ++ rest)) ts) :
    ∃ pos' ts', Layout pos' rest ts' ∧ rawTexts ts = rawTexts ts' := by
  have htokens : (Lexer.inCode [] pos (gap ++ (tok ++ rest))).tokens = (ts, none) := tokens_complete h
  have hbeq : (kind == .asm) = false := by simpa using hkind
  rw [tokens_more (next_inCode_complete hgap htok) htok.kind_class.1, hbeq] at htokens
  change (_ :: (Lexer.inCode [] _ rest).tokens.1, (Lexer.inCode [] _ rest).tokens.2) = _ at htokens
  obtain ⟨rfl, hnone⟩ := Prod.mk.inj htokens
  refine ⟨pos.after (gap ++ tok), _, tokens_sound [] rest.length _ rest _ (Nat.le_refl _) hspelled
    (Prod.ext rfl hnone), ?_⟩
  exact rawTexts_cons_of_ne htok.kind_class.2

theorem next_malformed (pos : Position) (hgap : Gap gap (g :: run ++ rest))
    (hrun : IsRun (g :: run) rest) (hword : Token.startsWord g.char = false) (hdigit : isDigit g.char = true)
    (hshape : Token.isIntegerLiteral ((g :: run).map Glyph.char) = false) :
    ∃ e l', (Lexer.inCode [] pos (gap ++ (g :: run ++ rest))).next = (.error e, l') := by
  have hnext : (Lexer.inCode [] pos (gap ++ (g :: run ++ rest))).cursor.next =
      .ok ⟨pos.after gap, g :: run ++ rest⟩ :=
    Cursor.next_eq_ok_iff.mpr ⟨gap, rfl, rfl, hgap⟩
  have hstep : (Lexer.inCode [] pos (gap ++ (g :: run ++ rest))).next = _ := codeToken_eq hnext rfl
  rw [Lexer.tokenAt, if_neg (by simp [hword]), if_pos hdigit, Lexer.integer, run_eq hrun,
    if_neg (by rw [hshape]; decide)] at hstep
  exact ⟨_, _, hstep⟩

theorem rawTexts_run (hspelled : ∀ g ∈ rest, g.Spelled) (hgap : Gap gap (g :: run ++ rest))
    (hrun : IsRun (g :: run) rest) (hasm : Text.ofGlyphs (g :: run) ≠ "asm")
    (h : Layout pos (gap ++ (g :: run ++ rest)) ts) :
    ∃ pos' ts', Layout pos' rest ts' ∧ rawTexts ts = rawTexts ts' := by
  by_cases hword : Token.startsWord g.char = true
  · refine rawTexts_token hspelled hgap (.word hword hrun) ?_ h
    exact fun hkind => hasm ((wordKind_class _).2.2 hkind)
  · rw [Bool.not_eq_true] at hword
    have hdigit : isDigit g.char = true := by
      have hg := hrun.1 g (by simp)
      simp only [Token.startsWord, Bool.or_eq_false_iff] at hword
      simpa [Token.isWordChar, hword] using hg
    by_cases hshape : Token.isIntegerLiteral ((g :: run).map Glyph.char) = true
    · exact rawTexts_token hspelled hgap (.integer hword hdigit hrun hshape) (by decide) h
    · rw [Bool.not_eq_true] at hshape
      obtain ⟨e, l', hnext⟩ := next_malformed pos hgap hrun hword hdigit hshape
      have htokens : (Lexer.inCode [] pos _).tokens = (ts, none) := tokens_complete h
      rw [tokens_error hnext] at htokens
      cases htokens

/-- The glyphs of a raw body in its braces, with what stands before and behind them. -/
abbrev inBraces (space body rest : List Glyph) : List Glyph :=
  space ++ ⟨'\x7b', "\x7b"⟩ :: (body ++ ⟨'\x7d', "\x7d"⟩ :: rest)

theorem rawTexts_asm (hspelled : ∀ g ∈ rest, g.Spelled)
    (hgap : Gap gap (key ++ inBraces space body rest))
    (hkey : Lexeme key (inBraces space body rest) .asm lexeme)
    (hspace : Gap space (inBraces [] body rest))
    (hbody : ∀ g ∈ body, g.char ≠ '\x7d')
    (h : Layout pos (gap ++ (key ++ inBraces space body rest)) ts) :
    ∃ pos' ts', Layout pos' rest ts' ∧ rawTexts ts = Text.ofGlyphs body :: rawTexts ts' := by
  have htokens : (Lexer.inCode [] pos _).tokens = (ts, none) := tokens_complete h
  rw [tokens_more (next_inCode_complete hgap hkey) (by simp)] at htokens
  change (_ :: (Lexer.afterKeyword [] _ _).tokens.1, (Lexer.afterKeyword [] _ _).tokens.2) = _ at htokens
  rw [tokens_afterKeyword hspace rfl hbody rfl] at htokens
  obtain ⟨rfl, hnone⟩ := Prod.mk.inj htokens
  exact ⟨_, _, tokens_sound [] rest.length _ rest _ (Nat.le_refl _) hspelled (Prod.ext rfl hnone), rfl⟩

end Layouts

/-! ### Sources that are read alike -/

/-- A source in which no raw body can be mistaken: only plain blanks stand between the word `asm` and its
brace, strings end on the line where they begin, and no identifier that ends in the word `asm`, behind a
character beyond ASCII, stands in front of a brace. -/
inductive Unambiguous : List Glyph → Prop where
  | stop {gap : List Glyph} (hgap : Gap gap []) : Unambiguous gap
  | token {gap tok rest : List Glyph} {kind : Token.Kind} {lexeme : Text} (hgap : Gap gap (tok ++ rest))
      (htok : Lexeme tok rest kind lexeme) (hkind : kind ≠ .asm)
      (hstring : kind = .string → ∀ g ∈ tok, g.char ≠ '\n')
      (hword : kind = .identifier → lexeme.endWord = "asm" → ¬Region.OpensBlock rest) :
      Unambiguous rest → Unambiguous (gap ++ (tok ++ rest))
  | asm {gap key space body rest : List Glyph} {lexeme : Text}
      (hgap : Gap gap (key ++ inBraces space body rest))
      (hkey : Lexeme key (inBraces space body rest) .asm lexeme)
      (hspace : ∀ g ∈ space, Region.isPlainBlank g.char = true) (hbody : ∀ g ∈ body, g.char ≠ '\x7d') :
      Unambiguous rest →
      Unambiguous (gap ++ (key ++ inBraces space body rest))

/-- A source is written as other glyphs, which have the same raw texts in them. -/
structure Echoes (value : Text → Option Text) (gs gs' : List Glyph) : Prop where
  text : Region.pass value .code (Text.ofGlyphs gs) = Text.ofGlyphs gs'
  read : (Text.ofGlyphs gs').glyphs = gs'
  begun : ∀ g ∈ gs'.head?, g.char ≠ Glyph.replacement
  alike : BeginAlike gs gs'
  raws : ∀ pos ts pos' ts', Layout pos gs ts → Layout pos' gs' ts' → rawTexts ts' = rawTexts ts

section Echoes

variable {value : Text → Option Text} {gap tok tok' rest rest' : List Glyph}

theorem Echoes.stop (hgap : Gap gap []) (hread : (Text.ofGlyphs gap).glyphs = gap) :
    Echoes value gap gap := by
  refine ⟨?_, hread, hgap.begun, .inl rfl, ?_⟩
  · have htext : Region.pass value .code (Text.ofGlyphs gap ++ []) = Text.ofGlyphs gap ++ _ :=
      Region.pass_trivia (hgap.trivia (spelled_of_glyphs hread))
    rwa [Region.pass_nil, List.append_nil] at htext
  · intro pos ts pos' ts' h h'
    rw [rawTexts_stop hgap h, rawTexts_stop hgap h']

/-- A gap and a piece in front of what is echoed. -/
theorem Echoes.piece (hread : (Text.ofGlyphs (gap ++ (tok ++ rest))).glyphs = gap ++ (tok ++ rest))
    (hgap : Gap gap (tok ++ rest)) (hread' : (Text.ofGlyphs tok').glyphs = tok')
    (hbegun : ∀ g ∈ (tok' ++ rest').head?, g.char ≠ Glyph.replacement)
    (halike : BeginAlike (tok ++ rest) (tok' ++ rest'))
    (htext : Region.pass value .code (Text.ofGlyphs tok ++ Text.ofGlyphs rest) =
      Text.ofGlyphs tok' ++ Text.ofGlyphs rest')
    (hrest : Echoes value rest rest')
    (hraws : ∀ pos ts pos' ts', Layout pos (gap ++ (tok ++ rest)) ts →
      Layout pos' (gap ++ (tok' ++ rest')) ts' → rawTexts ts' = rawTexts ts) :
    Echoes value (gap ++ (tok ++ rest)) (gap ++ (tok' ++ rest')) := by
  have hspelled := spelled_of_glyphs hread
  have hreadGap : (Text.ofGlyphs gap).glyphs = gap := Text.glyphs_front hread
  have hreadRest := read_append hread' hrest.read hrest.begun
  refine ⟨?_, read_append hreadGap hreadRest hbegun, ?_, halike.behind gap, hraws⟩
  · rw [Text.ofGlyphs_append, Region.pass_trivia (hgap.trivia fun g hg => hspelled g (by simp [hg])),
      Text.ofGlyphs_append, htext, Text.ofGlyphs_append, Text.ofGlyphs_append]
  · cases gap with
    | nil => exact hbegun
    | cons g gap => exact hgap.begun

/-- A token that is written as it stands. -/
theorem Echoes.token {kind : Token.Kind} {lexeme : Text}
    (hread : (Text.ofGlyphs (gap ++ (tok ++ rest))).glyphs = gap ++ (tok ++ rest))
    (hgap : Gap gap (tok ++ rest)) (htok : Lexeme tok rest kind lexeme) (hkind : kind ≠ .asm)
    (htok' : Lexeme tok rest' kind lexeme) (hstarts : startsGap (tok ++ rest') = false)
    (htext : Region.pass value .code (Text.ofGlyphs tok ++ Text.ofGlyphs rest) =
      Text.ofGlyphs tok ++ Region.pass value .code (Text.ofGlyphs rest))
    (hrest : Echoes value rest rest') : Echoes value (gap ++ (tok ++ rest)) (gap ++ (tok ++ rest')) := by
  have hspelled := spelled_of_glyphs hread
  have hgap' : Gap gap (tok ++ rest') := hgap.of_rest (by simp [htok.ne_nil]) hstarts
  refine .piece hread hgap (Text.glyphs_middle hread) ?_ (hrest.alike.behind tok) ?_ hrest ?_
  · cases tok with
    | nil => exact absurd rfl htok.ne_nil
    | cons g tok => exact htok.begun
  · rw [htext, hrest.text]
  · intro pos ts pos' ts' h h'
    obtain ⟨pos₁, ts₁, h₁, hraws⟩ :=
      rawTexts_token (fun g hg => hspelled g (by simp [hg])) hgap htok hkind h
    obtain ⟨pos₂, ts₂, h₂, hraws'⟩ :=
      rawTexts_token (spelled_of_glyphs hrest.read) hgap' htok' hkind h'
    rw [hraws, hraws', hrest.raws pos₁ ts₁ pos₂ ts₂ h₁ h₂]

/-- What a run is written as, in glyphs. -/
theorem exists_written_run (hvalue : ∀ w v, value w = some v → v.isDigits = true)
    (hread : (Text.ofGlyphs tok).glyphs = tok) (hrun : ∀ g ∈ tok, Token.isWordChar g.char = true)
    (hne : tok ≠ []) (hasm : Text.ofGlyphs tok ≠ "asm") : ∃ g run,
      Text.ofGlyphs (g :: run) = (Text.ofGlyphs tok).replaceWords value ∧
      (Text.ofGlyphs (g :: run)).glyphs = g :: run ∧
      (∀ h ∈ g :: run, Token.isWordChar h.char = true) ∧ Text.ofGlyphs (g :: run) ≠ "asm" := by
  have hkeeps : KeepsRun value (Text.ofGlyphs tok) := by
    refine keepsRun hvalue ?_
    rwa [IsRunText, hread]
  have hne' : (Text.ofGlyphs tok).replaceWords value ≠ [] := by
    refine hkeeps.ne_nil fun hnil => hne ?_
    rw [← hread, hnil]
    rfl
  -- The words of a run become digits, and there is no digit in `asm`.
  have hasm' : (Text.ofGlyphs tok).replaceWords value ≠ "asm" := by
    intro heq
    rcases hkeeps.same with hsame | ⟨b, hb, hdigit⟩
    · exact hasm (hsame.symm.trans heq)
    · rw [heq] at hb
      have hnone : ∀ b ∈ ("asm" : Text), Text.isDigitByte b = false := by decide +kernel
      rw [hnone b hb] at hdigit
      cases hdigit
  have hchars := hkeeps.run
  have hback := Text.ofGlyphs_glyphs ((Text.ofGlyphs tok).replaceWords value)
  unfold IsRunText at hchars
  cases htok : ((Text.ofGlyphs tok).replaceWords value).glyphs with
  | nil =>
    rw [htok] at hback
    exact absurd hback.symm hne'
  | cons g run =>
    rw [htok] at hback hchars
    exact ⟨g, run, hback, by rw [hback, htok], hchars, by rwa [hback]⟩

/-- A run in which words may be replaced. -/
theorem Echoes.run {g : Glyph} {run : List Glyph} (hvalue : ∀ w v, value w = some v → v.isDigits = true)
    (hread : (Text.ofGlyphs (gap ++ (g :: run ++ rest))).glyphs = gap ++ (g :: run ++ rest))
    (hgap : Gap gap (g :: run ++ rest)) (hrun : IsRun (g :: run) rest)
    (hasm : Text.ofGlyphs (g :: run) ≠ "asm")
    (hword : (Text.ofGlyphs (g :: run)).endWord = "asm" → ¬Region.OpensBlock rest)
    (hrest : Echoes value rest rest') : ∃ gs', Echoes value (gap ++ (g :: run ++ rest)) gs' := by
  have hspelled := spelled_of_glyphs hread
  obtain ⟨-, hspelledRun⟩ := List.forall_mem_append.mp hspelled
  obtain ⟨-, hspelledRest⟩ := List.forall_mem_append.mp hspelledRun
  obtain ⟨d, run', hwritten, hread', hchars, hasm'⟩ :=
    exists_written_run hvalue (Text.glyphs_middle hread) hrun.1 (by simp) hasm
  have hrun' : IsRun (d :: run') rest' := ⟨hchars, hrest.alike.not_wordChar hrun.2⟩
  have hgap' : Gap gap (d :: run' ++ rest') :=
    hgap.of_rest (by simp) (startsGap_wordChar (hchars d (by simp)))
  refine ⟨gap ++ (d :: run' ++ rest'), .piece hread hgap hread' ?_ ?_ ?_ hrest ?_⟩
  · exact begun_cons (wordChar_ne_replacement (hchars d (by simp)))
  · exact .inr ⟨⟨g, rfl, hrun.1 g (by simp)⟩, d, rfl, hchars d (by simp)⟩
  · rw [Region.pass_runGlyphs hrun hspelledRun, hwritten, ← hrest.text]
    split
    · next hend => rw [Region.pass_noBlock hspelledRest (hword hend)]
    · rfl
  · intro pos ts pos' ts' h h'
    obtain ⟨pos₁, ts₁, h₁, hraws⟩ := rawTexts_run hspelledRest hgap hrun hasm h
    obtain ⟨pos₂, ts₂, h₂, hraws'⟩ :=
      rawTexts_run (spelled_of_glyphs hrest.read) hgap' hrun' hasm' h'
    rw [hraws, hraws', hrest.raws pos₁ ts₁ pos₂ ts₂ h₁ h₂]

/-! #### Blocks -/

theorem gap_of_plain {space : List Glyph} (hspace : ∀ g ∈ space, Region.isPlainBlank g.char = true)
    (hrest : startsGap rest = false) : Gap space rest := by
  induction space with
  | nil => exact .none hrest
  | cons g space ih =>
    obtain ⟨hg, hspace⟩ := List.forall_mem_cons.mp hspace
    exact .blank (Region.isBlank_of_plain hg) (ih hspace)

theorem Lexical.Lexeme.asm_run {key : List Glyph} {lexeme : Text} (h : Lexeme key rest .asm lexeme) :
    ∃ g run, key = g :: run ∧ IsRun (g :: run) rest ∧
      ∀ rest', rest'.head? = rest.head? → Lexeme key rest' .asm lexeme := by
  generalize hkind : Token.Kind.asm = kind at h
  cases h with
  | @word g run _ hg hrun =>
    refine ⟨g, run, rfl, hrun, fun rest' hhead => .word hg ⟨hrun.1, ?_⟩⟩
    rw [hhead]
    exact hrun.2
  | integer => cases hkind
  | string => cases hkind
  | single hg => exact absurd hkind.symm (punctuation?_class hg).2.2.2.1
  | double ha hb => exact absurd hkind.symm (doubled?_class ha).2.2.2.2.1

theorem Region.pass_asm (hvalue : value "asm" = none) {t : Text}
    (ht : ∀ b ∈ t.head?, isWordByte b = false) :
    Region.pass value .code ("asm" ++ t) = "asm" ++ Region.pass value .asmWord t := by
  have hword : Region.pass value .code ('a'.toUInt8 :: ("sm" : Text) ++ t) = _ :=
    Region.pass_word (by decide) (by decide +kernel) ht
  change Region.pass value .code ("asm" ++ t) = (value "asm").getD "asm" ++
    Region.pass value (if ("asm" : Text) = "asm" then .asmWord else .code) t at hword
  rw [hword, hvalue, if_pos rfl]
  rfl

theorem ofGlyphs_inBraces (space body rest : List Glyph) :
    Text.ofGlyphs (inBraces space body rest) =
      Text.ofGlyphs space ++ ("\x7b" ++ (Text.ofGlyphs body ++ ("\x7d" ++ Text.ofGlyphs rest))) := by
  simp only [inBraces, Text.ofGlyphs_append, Text.ofGlyphs_cons]

theorem startsGap_brace (gs : List Glyph) : startsGap (⟨'\x7b', "\x7b"⟩ :: gs) = false := by
  exact startsGap_eq_false (by decide) (by decide)

/-- The word `asm` and its block are written as they stand. -/
theorem Region.pass_block {key space body : List Glyph} {lexeme : Text} (hvalue : value "asm" = none)
    (hspelled : ∀ g ∈ key ++ inBraces space body rest, g.Spelled)
    (hkey : Lexeme key (inBraces space body rest) .asm lexeme)
    (hspace : ∀ g ∈ space, Region.isPlainBlank g.char = true) (hbody : ∀ g ∈ body, g.char ≠ '\x7d') :
    Region.pass value .code (Text.ofGlyphs (key ++ inBraces space body rest)) =
      Text.ofGlyphs key ++ (Text.ofGlyphs space ++ ("\x7b" ++ (Text.ofGlyphs body ++
        ("\x7d" ++ Region.pass value .code (Text.ofGlyphs rest))))) := by
  obtain ⟨g, run, -, hrun, -⟩ := hkey.asm_run
  have hstop := Region.isWordByte_head (List.forall_mem_append.mp hspelled).2 hrun.2
  have hclose : '\x7d'.toUInt8 ∉ Text.ofGlyphs body :=
    not_mem_ofGlyphs (fun g hg => hspelled g (by simp [hg])) (by decide) hbody
  rw [Text.ofGlyphs_append, hkey.asm_spelled, Region.pass_asm hvalue hstop, ofGlyphs_inBraces,
    Region.pass_space (fun g hg => hspelled g (by simp [hg])) hspace, Region.pass_brace,
    Region.pass_body hclose]

theorem Echoes.block {key space body : List Glyph} {lexeme : Text} (hvalue : value "asm" = none)
    (hread : (Text.ofGlyphs (gap ++ (key ++ inBraces space body rest))).glyphs =
      gap ++ (key ++ inBraces space body rest))
    (hgap : Gap gap (key ++ inBraces space body rest))
    (hkey : Lexeme key (inBraces space body rest) .asm lexeme)
    (hspace : ∀ g ∈ space, Region.isPlainBlank g.char = true) (hbody : ∀ g ∈ body, g.char ≠ '\x7d')
    (hrest : Echoes value rest rest') :
    Echoes value (gap ++ (key ++ inBraces space body rest))
      (gap ++ (key ++ inBraces space body rest')) := by
  have hspelled := spelled_of_glyphs hread
  -- Blanks and the brace in front of the body tell the keyword from a longer word on both sides.
  have hhead : (inBraces space body rest').head? = (inBraces space body rest).head? := by
    cases space <;> rfl
  obtain ⟨g, run, rfl, hrun, hkey'⟩ := hkey.asm_run
  have hkey' := hkey' _ hhead
  have hgap' : Gap gap (g :: run ++ inBraces space body rest') :=
    hgap.of_rest (by simp) (startsGap_wordChar (hrun.1 g (by simp)))
  have htext := Region.pass_block hvalue (List.forall_mem_append.mp hspelled).2 hkey hspace hbody
  have hsplit : ∀ more, g :: run ++ inBraces space body more =
      g :: run ++ inBraces space body [] ++ more := by simp
  -- The body is the raw text of the block, whatever the rest is written as.
  have hraws : ∀ pos ts pos' ts', Layout pos (gap ++ (g :: run ++ inBraces space body rest)) ts →
      Layout pos' (gap ++ (g :: run ++ inBraces space body rest')) ts' → rawTexts ts' = rawTexts ts := by
    intro pos ts pos' ts' h h'
    obtain ⟨pos₁, ts₁, h₁, hraws⟩ := rawTexts_asm (fun g hg => hspelled g (by simp [hg])) hgap hkey
      (gap_of_plain hspace (startsGap_brace _)) hbody h
    obtain ⟨pos₂, ts₂, h₂, hraws'⟩ := rawTexts_asm (spelled_of_glyphs hrest.read) hgap' hkey'
      (gap_of_plain hspace (startsGap_brace _)) hbody h'
    rw [hraws, hraws', hrest.raws pos₁ ts₁ pos₂ ts₂ h₁ h₂]
  rw [hrest.text] at htext
  rw [hsplit] at hread hgap htext
  rw [hsplit, hsplit rest'] at hraws ⊢
  refine .piece hread hgap (Text.glyphs_middle hread) ?_ (hrest.alike.behind _) ?_ hrest hraws
  · exact begun_cons (wordChar_ne_replacement (hrun.1 g (by simp)))
  · rw [← Text.ofGlyphs_append, htext, Text.ofGlyphs_append (g :: run), ofGlyphs_inBraces]
    simp [Text.ofGlyphs]

/-! #### Words and numbers -/

theorem endWord_suffix (t : Text) : t.endWord <:+ t := by
  have htail : (t.reverse.takeWhile isWordByte).reverse <:+ t := by
    have h : t.reverse.takeWhile isWordByte <+: t.reverse := List.takeWhile_prefix _
    simpa using List.reverse_suffix.mpr h
  exact (List.dropWhile_suffix _).trans htail

theorem wordKind_of_endWord {word : Text} (h : word.endWord = "asm")
    (hkind : Token.wordKind word ≠ .asm) : Token.wordKind word = .identifier := by
  have hne : ∀ keyword : Text, keyword.endWord ≠ "asm" → word ≠ keyword := by
    rintro _ hend rfl
    exact hend h
  have hasm : word ≠ "asm" := by
    rintro rfl
    exact hkind rfl
  rw [Token.wordKind, if_neg (hne _ (by decide)), if_neg (hne _ (by decide)), if_neg (hne _ (by decide)),
    if_neg hasm]

/-- An integer has no `s` in it, so it does not end in the word `asm`. -/
theorem integer_no_s {cs : List Char} (h : Token.isIntegerLiteral cs = true) : 's' ∉ cs := by
  have hdigits : ∀ digit ds, digit 's' = false → Token.isDigits digit ds = true → 's' ∉ ds := by
    intro digit ds hs hds hmem
    simp only [Token.isDigits, Bool.and_eq_true, List.all_eq_true] at hds
    rw [hds.2 's' hmem] at hs
    cases hs
  unfold Token.isIntegerLiteral at h
  split at h
  all_goals
    have hnone := hdigits _ _ (by decide) h
    simp [hnone]

theorem no_endWord_of_integer {gs : List Glyph} (hspelled : ∀ g ∈ gs, g.Spelled)
    (h : Token.isIntegerLiteral (gs.map Glyph.char) = true) : (Text.ofGlyphs gs).endWord ≠ "asm" := by
  intro hend
  have hsuffix := endWord_suffix (Text.ofGlyphs gs)
  rw [hend] at hsuffix
  have hmem : 's'.toUInt8 ∈ Text.ofGlyphs gs := hsuffix.subset (by decide)
  obtain ⟨g, hg, hbyte⟩ := List.mem_flatMap.mp hmem
  obtain ⟨hchar, -⟩ := (hspelled g hg).of_mem (by decide) hbyte
  exact integer_no_s h (List.mem_map.mpr ⟨g, hg, hchar⟩)

/-- Whatever stands in a source that cannot be mistaken, its raw texts are kept. -/
theorem Unambiguous.echoes (hvalue : ∀ w v, value w = some v → v.isDigits = true)
    (hasm : value "asm" = none) {gs : List Glyph} (h : Unambiguous gs)
    (hread : (Text.ofGlyphs gs).glyphs = gs) : ∃ gs', Echoes value gs gs' := by
  induction h with
  | stop hgap => exact ⟨_, .stop hgap hread⟩
  | @token gap tok rest kind lexeme hgap htok hkind hstring hword _ ih =>
    have hreadTail : (Text.ofGlyphs (tok ++ rest)).glyphs = tok ++ rest := Text.glyphs_back hread
    obtain ⟨rest', hrest⟩ := ih (Text.glyphs_back hreadTail)
    have hspelled := spelled_of_glyphs hreadTail
    cases htok with
    | @word g run _ hg hrun =>
      refine Echoes.run hvalue hread hgap hrun ?_ ?_ hrest
      · intro heq
        rw [heq] at hkind
        exact hkind rfl
      · exact fun hend => hword (wordKind_of_endWord hend hkind) hend
    -- The last word of an integer is not the keyword, since its digits stand in front of it.
    | @integer g run _ hstart hdigit hrun hshape =>
      have hend := no_endWord_of_integer (fun h hh => hspelled h (List.mem_append_left _ hh)) hshape
      refine Echoes.run hvalue hread hgap hrun ?_ (fun heq => absurd heq hend) hrest
      intro heq
      rw [heq] at hend
      exact hend (by decide)
    | @string a b inside _ ha hinside hb =>
      refine ⟨_, .token hread hgap (.string ha hinside hb) hkind (.string ha hinside hb) ?_ ?_ hrest⟩
      · exact startsGap_eq_false (by rw [ha]; decide) (by rw [ha]; decide)
      · exact Region.pass_string ha hinside hb (fun h hh => hspelled h (List.mem_append_left _ hh))
          (hstring rfl)
    | @single g _ _ hg =>
      exact ⟨_, .token hread hgap (.single hg) hkind (.single hg)
        (hrest.alike.startsGap_cons hgap.rest_starts) (Region.pass_single hg hspelled hgap.rest_starts)
        hrest⟩
    | @double a b _ _ ha hb =>
      have halike : BeginAlike (b :: rest) (b :: rest') := .inl rfl
      exact ⟨_, .token hread hgap (.double ha hb) hkind (.double ha hb)
        (halike.startsGap_cons hgap.rest_starts)
        (Region.pass_double ha hb fun h hh => hspelled h (List.mem_append_left _ hh)) hrest⟩
  -- The brace closes the block, so that the rest is read for itself.
  | @asm gap key space body rest lexeme hgap hkey hspace hbody _ ih =>
    have hreadRest : (Text.ofGlyphs rest).glyphs = rest := by
      have hsplit : gap ++ (key ++ inBraces space body rest) =
          gap ++ (key ++ inBraces space body []) ++ rest := by simp
      rw [hsplit] at hread
      exact Text.glyphs_back hread
    obtain ⟨rest', hrest⟩ := ih hreadRest
    exact ⟨_, .block hasm hread hgap hkey hspace hbody hrest⟩

theorem Unambiguous.layout {gs : List Glyph} (h : Unambiguous gs) (pos : Position) :
    ∃ ts, Layout pos gs ts := by
  induction h generalizing pos with
  | stop hgap => exact ⟨_, .stop hgap⟩
  | token hgap htok hkind _ _ _ ih =>
    obtain ⟨ts, hts⟩ := ih _
    exact ⟨_, .token hgap htok hkind hts⟩
  | asm hgap hkey hspace hbody _ ih =>
    obtain ⟨ts, hts⟩ := ih _
    exact ⟨_, .asm hgap hkey (gap_of_plain hspace (startsGap_brace _)) hbody hts⟩

theorem mem_of_lookup {given : List (Text × Text)} {w v : Text} (h : given.lookup w = some v) :
    (w, v) ∈ given := by
  obtain ⟨before, after, rfl, -⟩ := List.lookup_eq_some_iff.mp h
  simp

end Echoes

/-- No macro is expanded in a raw body of a source in which no raw body can be mistaken: the macros are
given from outside and stand for numbers, and none of them has the name `asm`. -/
theorem preprocess_keeps_raw (disk : Disk) (depth : Nat) (dir : Text) {given : List (Text × Text)}
    {source : Text} (hsource : Unambiguous source.glyphs)
    (hlines : ∀ line ∈ source.lines, Directive.ofLine line = .plain)
    (hgiven : ∀ m ∈ given, m.1 ≠ "asm" ∧ m.2.isDigits = true) :
    ∃ ts out, source.lex = .ok ts ∧ preprocess disk depth dir given source = .ok out ∧
      ∀ ts', out.lex = .ok ts' → rawTexts ts' = rawTexts ts := by
  have hvalue : ∀ w v, given.lookup w = some v → v.isDigits = true := fun w v h =>
    (hgiven _ (mem_of_lookup h)).2
  have hasm : given.lookup ("asm" : Text) = none := by
    cases h : given.lookup ("asm" : Text) with
    | none => rfl
    | some v => exact absurd rfl (hgiven _ (mem_of_lookup h)).1
  obtain ⟨gs', hechoes⟩ := hsource.echoes hvalue hasm (by rw [Text.ofGlyphs_glyphs])
  obtain ⟨ts, hts⟩ := hsource.layout .start
  have htext := hechoes.text
  rw [Text.ofGlyphs_glyphs] at htext
  refine ⟨ts, _, lex_eq_ok_iff.mpr hts, preprocess_eq disk depth dir given hlines, fun ts' hts' => ?_⟩
  rw [htext, lex_eq_ok_iff, hechoes.read] at hts'
  exact hechoes.raws .start ts .start ts' hts hts'

/-! ### Samples -/

/-- A macro that stands for a number. -/
def numberMacro : List (Text × Text) := [("N", "1")]

/-- The macro in code and in a raw body. -/
def keptSource : Text := "N asm \x7b N \x7d"

theorem keptSource_unambiguous : Unambiguous keptSource.glyphs := by
  have hglyphs : keptSource.glyphs = [] ++ ([⟨'N', "N"⟩] ++ ([⟨' ', " "⟩] ++
      ([⟨'a', "a"⟩, ⟨'s', "s"⟩, ⟨'m', "m"⟩] ++
        inBraces [⟨' ', " "⟩] [⟨' ', " "⟩, ⟨'N', "N"⟩, ⟨' ', " "⟩] []))) := by cbv
  have hend : Text.endWord (Text.ofGlyphs [⟨'N', "N"⟩]) ≠ "asm" := by decide
  rw [hglyphs]
  refine .token (.none rfl) (.word rfl ⟨by decide, by decide⟩) (by decide) (by decide)
    (fun _ h => absurd h hend) ?_
  exact .asm (.blank rfl (.none rfl)) (.word rfl ⟨by decide, by decide⟩) (by decide) (by decide)
    (.stop (.none rfl))

theorem mem_of_mem_lines {b : UInt8} {t line : Text} (hline : line ∈ t.lines) (hb : b ∈ line) :
    b ∈ t := by
  induction t generalizing line with
  | nil =>
    obtain rfl := List.mem_singleton.mp hline
    cases hb
  | cons c t ih =>
    obtain ⟨first, more, hlines, -⟩ := Text.lines_eq_cons t
    by_cases hc : c = newline
    · rw [hc, Text.lines_newline] at hline
      rcases List.mem_cons.mp hline with rfl | hline
      · cases hb
      · exact List.mem_cons_of_mem _ (ih hline hb)
    · rw [Text.lines_cons hc hlines] at hline
      rcases List.mem_cons.mp hline with rfl | hline
      · rcases List.mem_cons.mp hb with rfl | hb
        · exact List.mem_cons_self
        · exact List.mem_cons_of_mem _ (ih (by rw [hlines]; exact List.mem_cons_self) hb)
      · exact List.mem_cons_of_mem _ (ih (by rw [hlines]; exact List.mem_cons_of_mem _ hline) hb)

theorem mem_of_mem_trim {b : UInt8} {t : Text} (hb : b ∈ t.trim) : b ∈ t := by
  obtain ⟨g, hg, hb⟩ := List.mem_flatMap.mp hb
  have hmem : g ∈ t.glyphs :=
    (List.dropWhile_suffix _).subset (List.mem_reverse.mp
      ((List.dropWhile_suffix _).subset (List.mem_reverse.mp hg)))
  rw [← Text.ofGlyphs_glyphs t]
  exact List.mem_flatMap.mpr ⟨g, hmem, hb⟩

/-- Directives begin with a number sign. -/
theorem plain_of_no_sign {source : Text} (h : '#'.toUInt8 ∉ source) :
    ∀ line ∈ source.lines, Directive.ofLine line = .plain := by
  intro line hline
  have hnone : ∀ word more : Text, line.trim ≠ '#'.toUInt8 :: word ++ more := by
    intro word more heq
    exact h (mem_of_mem_lines hline (mem_of_mem_trim (by simp [heq])))
  have hinclude : Text.startsWith line.trim "#include" = false := by
    rw [Text.startsWith_eq_false_iff]
    rintro ⟨more, hmore⟩
    exact hnone "include" more hmore.symm
  unfold Directive.ofLine
  dsimp only
  split
  · next rest hrest => exact absurd (Text.after?_eq_some_iff.mp hrest) (hnone "define" rest)
  · rw [hinclude]
    rfl

theorem preprocess_keeps_sample : Unambiguous keptSource.glyphs ∧
    (∀ m ∈ numberMacro, m.1 ≠ "asm" ∧ m.2.isDigits = true) ∧
    ∃ ts out, keptSource.lex = .ok ts ∧ preprocess ⟨[], []⟩ 0 [] numberMacro keptSource = .ok out ∧
      ∀ ts', out.lex = .ok ts' → rawTexts ts' = rawTexts ts :=
  ⟨keptSource_unambiguous, by decide, preprocess_keeps_raw ⟨[], []⟩ 0 [] keptSource_unambiguous
    (plain_of_no_sign (by decide)) (by decide)⟩

/-- A source that has other raw texts once it is preprocessed. -/
def Mistaken (source : Text) : Prop :=
  ∃ ts out ts', source.lex = .ok ts ∧ preprocess ⟨[], []⟩ 0 [] numberMacro source = .ok out ∧
    out.lex = .ok ts' ∧ rawTexts ts' ≠ rawTexts ts

theorem mistaken_of_pass {source : Text} (out : Text) (raws raws' : List Text)
    (hsign : '#'.toUInt8 ∉ source)
    (hpass : Region.pass (fun w => numberMacro.lookup w) .code source = out)
    (hraws : source.lex.toOption.map rawTexts = some raws)
    (hraws' : out.lex.toOption.map rawTexts = some raws') (hne : raws' ≠ raws) : Mistaken source := by
  obtain ⟨ts, hts, rfl⟩ := Option.map_eq_some_iff.mp hraws
  obtain ⟨ts', hts', rfl⟩ := Option.map_eq_some_iff.mp hraws'
  have hout := preprocess_eq ⟨[], []⟩ 0 [] numberMacro (plain_of_no_sign hsign)
  rw [hpass] at hout
  exact ⟨ts, out, ts', eq_ok_of_toOption hts, hout, eq_ok_of_toOption hts', hne⟩

theorem mistaken_comment : Mistaken "asm/**/\x7b N \x7d" :=
  mistaken_of_pass "asm/**/\x7b 1 \x7d" [" N "] [" 1 "] (by decide) (by cbv) (by cbv) (by cbv)
    (by decide)

theorem mistaken_string : Mistaken "\"\\\n\" asm \x7b\n N \x7d" :=
  mistaken_of_pass "\"\\\n\" asm \x7b\n 1 \x7d" ["\n N "] ["\n 1 "] (by decide) (by cbv) (by cbv) (by cbv)
    (by decide)

theorem mistaken_identifier : Mistaken "éasm\x7b\"\x7d\"asm\x7b\"N\x7d" :=
  mistaken_of_pass "éasm\x7b\"\x7d\"asm\x7b\"1\x7d" ["\"N"] ["\"1"] (by decide) (by cbv) (by cbv) (by cbv)
    (by decide)

/-- A raw body is mistaken if a comment stands before its brace, if a string that goes on in the next line
stands before it, and if a word before it ends in `asm` without being that word. -/
theorem raw_body_mistaken : Mistaken "asm/**/\x7b N \x7d" ∧ Mistaken "\"\\\n\" asm \x7b\n N \x7d" ∧
    Mistaken "éasm\x7b\"\x7d\"asm\x7b\"N\x7d" :=
  ⟨mistaken_comment, mistaken_string, mistaken_identifier⟩

end Pocket

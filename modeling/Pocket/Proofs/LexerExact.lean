import Pocket.Proofs.Glyphs
import Pocket.Proofs.Lexical

/-!
# What the lexer reads

The tokens of a source are exactly those of its lexical structure: a step of the lexer takes off one
gap and one token, and after the keyword `asm` the tokens of a whole block.
-/

namespace Pocket

open Lexical

theorem Position.after_append (pos : Position) (gs hs : List Glyph) :
    pos.after (gs ++ hs) = (pos.after gs).after hs :=
  List.foldl_append

theorem Cursor.skip_of_rest {c : Cursor} {tok rest : List Glyph} (h : c.rest = tok ++ rest) :
    c.skip tok.length = ⟨c.pos.after tok, rest⟩ := by
  simp [Cursor.skip, h]

/-! ### Runs and strings -/

variable {pos : Position} {c : Cursor} {g : Glyph} {run rest inside tok more : List Glyph}
  {kind : Token.Kind} {lexeme : Text} {l l' : Lexer} {t : Token}

/-- A run goes as far as its characters do. -/
theorem run_split (c : Cursor) (p : Char → Bool) : ∃ rest, c.rest = c.run p ++ rest ∧
    (∀ g ∈ c.run p, p g.char = true) ∧ ∀ g ∈ rest.head?, p g.char = false := by
  refine ⟨c.rest.dropWhile fun g => p g.char, ?_, ?_, ?_⟩
  · exact List.takeWhile_append_dropWhile.symm
  · intro g hg
    have hall : (c.run p).all (fun g => p g.char) = true := List.all_takeWhile
    exact List.all_eq_true.mp hall g hg
  · intro g hg
    have hhead := List.head?_dropWhile_not (fun g : Glyph => p g.char) c.rest
    rw [Option.mem_def.mp hg] at hhead
    simpa using hhead

theorem run_eq (h : IsRun run rest) : Cursor.run ⟨pos, run ++ rest⟩ Token.isWordChar = run := by
  rw [Cursor.run, List.takeWhile_append_of_pos h.1]
  cases rest with
  | nil => simp
  | cons g rest =>
    have hg : Token.isWordChar g.char = false := h.2 g rfl
    simp [hg]

theorem stringLength_eq (h : Quoted inside) (hg : g.char = '"') :
    Token.stringLength (inside ++ g :: rest) = inside.length := by
  induction h with
  | nil =>
    obtain ⟨gchar, gbytes⟩ := g
    subst hg
    rw [List.nil_append, Token.stringLength]
    rfl
  | @plain a inside ha _ ih =>
    obtain ⟨achar, abytes⟩ := a
    rw [List.cons_append, Token.stringLength, ih, List.length_cons]
    all_goals simp_all
  | @escape a b inside ha _ ih =>
    obtain ⟨achar, abytes⟩ := a
    subst ha
    rw [List.cons_append, List.cons_append, Token.stringLength, ih]
    rfl

/-- A quote behind the scanned part of a string closes it. -/
theorem quoted_of_stringLength {gs : List Glyph}
    (h : (gs.drop (Token.stringLength gs)).head?.map Glyph.char = some '"') :
    ∃ inside b rest, gs = inside ++ b :: rest ∧ Quoted inside ∧ b.char = '"' ∧
      Token.stringLength gs = inside.length := by
  fun_induction Token.stringLength gs with
  | case1 => simp at h
  | case2 bytes rest => exact ⟨[], _, rest, rfl, .nil, rfl, rfl⟩
  | case3 bytes rest => simp at h
  | case4 bytes => simp at h
  | case5 bytes b rest ih =>
    obtain ⟨inside, q, more, rfl, hquoted, hq, hlength⟩ := ih h
    exact ⟨_ :: b :: inside, q, more, rfl, .escape rfl hquoted, hq, by simp [hlength]⟩
  | case6 g rest hquote hnewline hlone hescape ih =>
    obtain ⟨inside, q, more, rfl, hquoted, hq, hlength⟩ := ih h
    obtain ⟨gchar, gbytes⟩ := g
    refine ⟨_ :: inside, q, more, rfl, .plain ⟨?_, ?_, ?_⟩ hquoted, hq, by simp [hlength]⟩
    · rintro rfl
      exact hquote gbytes rfl
    · rintro rfl
      exact hnewline gbytes rfl
    · rintro rfl
      cases inside with
      | nil => exact hescape gbytes _ _ rfl rfl
      | cons b inside => exact hescape gbytes _ _ rfl rfl

/-! ### One token -/

/-- Reads the token that a cursor stands at. -/
def Lexer.tokenAt (l : Lexer) (c : Cursor) (first : Char) : Lexer.Outcome × Lexer :=
  if Token.startsWord first then l.word c
  else if isDigit first then l.integer c
  else if first = '"' then l.stringLiteral c
  else l.punctuation c first

/-- The lexer behind a token. -/
def Lexer.behind (l : Lexer) (pos : Position) (tok rest : List Glyph) (kind : Token.Kind) : Lexer :=
  { l.moveTo ⟨pos.after tok, rest⟩ with afterAsm := kind == .asm }

theorem Lexer.behind_of_ne (l : Lexer) (h : kind ≠ .asm) :
    l.behind pos tok rest kind = l.moveTo ⟨pos.after tok, rest⟩ := by
  simp [behind, moveTo, h]

theorem punctuation?_class {first : Char} (h : Token.punctuation? first = some kind) :
    Token.startsWord first = false ∧ isDigit first = false ∧ first ≠ '"' ∧ kind ≠ .asm ∧
      kind ≠ .eof ∧ kind ≠ .rawText := by
  unfold Token.punctuation? at h
  split at h <;> cases h <;> decide

theorem doubled?_class {first : Char} (h : Token.doubled? first = some kind) :
    Token.startsWord first = false ∧ isDigit first = false ∧ first ≠ '"' ∧
      Token.punctuation? first = none ∧ kind ≠ .asm ∧ kind ≠ .eof ∧ kind ≠ .rawText := by
  unfold Token.doubled? at h
  split at h <;> cases h <;> decide

theorem wordKind_class (word : Text) :
    Token.wordKind word ≠ .eof ∧ Token.wordKind word ≠ .rawText ∧
      (Token.wordKind word = .asm → word = "asm") := by
  unfold Token.wordKind
  split
  · simp
  · split
    · simp
    · split
      · simp
      · split
        · next hasm => exact ⟨by decide, by decide, fun _ => hasm⟩
        · simp

/-- Neither the end of the source nor a raw text is a token in code. -/
theorem Lexical.Lexeme.kind_class (h : Lexeme tok rest kind lexeme) : kind ≠ .eof ∧ kind ≠ .rawText := by
  cases h with
  | word => exact ⟨(wordKind_class _).1, (wordKind_class _).2.1⟩
  | integer => decide
  | string => decide
  | single hg => exact (punctuation?_class hg).2.2.2.2
  | double ha => exact (doubled?_class ha).2.2.2.2.2

theorem Lexical.Lexeme.ne_nil (h : Lexeme tok rest kind lexeme) : tok ≠ [] := by
  cases h <;> simp

theorem tokenAt_complete (l : Lexer) (pos : Position) (h : Lexeme tok rest kind lexeme) :
    ∃ g more, tok ++ rest = g :: more ∧
      l.tokenAt ⟨pos, tok ++ rest⟩ g.char = (.ok ⟨kind, lexeme, pos⟩, l.behind pos tok rest kind) := by
  cases h with
  | @word g run _ hg hrun =>
    refine ⟨g, run ++ rest, rfl, ?_⟩
    rw [Lexer.tokenAt, if_pos hg, Lexer.word]
    dsimp only
    rw [run_eq hrun, Cursor.skip_of_rest rfl]
    rfl
  | @integer g run _ hword hg hrun hshape =>
    refine ⟨g, run ++ rest, rfl, ?_⟩
    rw [Lexer.tokenAt, if_neg (by simp [hword]), if_pos hg, Lexer.integer]
    dsimp only
    rw [run_eq hrun, if_pos hshape, Cursor.skip_of_rest rfl]
    rfl
  | @string a b inside _ ha hinside hb =>
    have hskip : Cursor.skip ⟨pos, a :: inside ++ [b] ++ rest⟩ 1 =
        ⟨pos.after [a], inside ++ b :: rest⟩ := by
      simp [Cursor.skip]
    have hclose : Cursor.char? ⟨(pos.after [a]).after inside, b :: rest⟩ = some '"' := by
      simp [Cursor.char?, hb]
    refine ⟨a, inside ++ [b] ++ rest, rfl, ?_⟩
    rw [Lexer.tokenAt, ha, if_neg (by decide), if_neg (by decide), if_pos rfl, Lexer.stringLiteral]
    dsimp only
    rw [hskip, stringLength_eq hinside hb, Cursor.skip_of_rest rfl, if_pos hclose,
      l.behind_of_ne (by decide), List.take_left]
    simp [Cursor.skip, Position.after]
  -- Punctuation begins with neither a letter nor a digit nor a quote, so the other readers do not take it.
  | @single g _ _ hg =>
    obtain ⟨hword, hdigit, hquote, hasm, -⟩ := punctuation?_class hg
    refine ⟨g, rest, rfl, ?_⟩
    rw [Lexer.tokenAt, if_neg (by simp [hword]), if_neg (by simp [hdigit]), if_neg hquote,
      Lexer.punctuation, hg, l.behind_of_ne hasm]
    rfl
  | @double a b _ _ ha hb =>
    obtain ⟨hword, hdigit, hquote, hsingle, hasm, -⟩ := doubled?_class ha
    -- The second character has to be the same as the first.
    have hsecond : (Cursor.skip ⟨pos, [a, b] ++ rest⟩ 1).char? = some a.char := by
      simp [Cursor.skip, Cursor.char?, hb]
    refine ⟨a, b :: rest, rfl, ?_⟩
    rw [Lexer.tokenAt, if_neg (by simp [hword]), if_neg (by simp [hdigit]), if_neg hquote,
      Lexer.punctuation, hsingle, ha, l.behind_of_ne hasm]
    dsimp only
    rw [if_pos hsecond]
    rfl

/-- A run that begins with a character is not empty. -/
theorem run_of_head (hc : c.rest = g :: more) (hg : Token.isWordChar g.char = true) :
    ∃ run rest, c.rest = g :: run ++ rest ∧ c.run Token.isWordChar = g :: run ∧
      IsRun (g :: run) rest := by
  obtain ⟨rest, hrest, hrun⟩ := run_split c Token.isWordChar
  have hhead : ∃ run, c.run Token.isWordChar = g :: run := by simp [Cursor.run, hc, hg]
  obtain ⟨run, hrun'⟩ := hhead
  rw [hrun'] at hrest hrun
  exact ⟨run, rest, hrest, hrun', hrun⟩

/-- The lexer took the token that a cursor stood at. -/
def Lexer.Took (l : Lexer) (c : Cursor) (t : Token) (l' : Lexer) : Prop :=
  ∃ tok rest, c.rest = tok ++ rest ∧ Lexeme tok rest t.kind t.lexeme ∧ t.pos = c.pos ∧
    l' = l.behind c.pos tok rest t.kind

theorem word_sound (hc : c.rest = g :: more) (hg : Token.startsWord g.char = true)
    (h : l.word c = (.ok t, l')) : l.Took c t l' := by
  have hword : Token.isWordChar g.char = true := by
    simp only [Token.startsWord, Token.isWordChar, Bool.or_eq_true] at hg ⊢
    rcases hg with hg | hg <;> simp [hg]
  obtain ⟨run, rest, hrest, hrun, hisRun⟩ := run_of_head hc hword
  simp only [Lexer.word, hrun, Cursor.skip_of_rest hrest] at h
  cases h
  exact ⟨g :: run, rest, hrest, .word hg hisRun, rfl, rfl⟩

theorem integer_sound (hc : c.rest = g :: more) (hword : Token.startsWord g.char = false)
    (hg : isDigit g.char = true) (h : l.integer c = (.ok t, l')) : l.Took c t l' := by
  obtain ⟨run, rest, hrest, hrun, hisRun⟩ := run_of_head hc (by simp [Token.isWordChar, hg])
  rw [Lexer.integer, hrun, Cursor.skip_of_rest hrest] at h
  split at h
  · next hshape =>
    cases h
    exact ⟨g :: run, rest, hrest, .integer hword hg hisRun hshape, rfl, rfl⟩
  · cases h

theorem stringLiteral_sound (hc : c.rest = g :: more) (hg : g.char = '"')
    (h : l.stringLiteral c = (.ok t, l')) : l.Took c t l' := by
  rw [Lexer.stringLiteral] at h
  split at h
  · next hclose =>
    have hclose' : (more.drop (Token.stringLength more)).head?.map Glyph.char = some '"' := by
      simpa [Cursor.char?, Cursor.skip, hc] using hclose
    obtain ⟨inside, b, rest, rfl, hquoted, hb, hlength⟩ := quoted_of_stringLength hclose'
    have hinside : (c.skip 1).rest = inside ++ b :: rest := by simp [Cursor.skip, hc]
    have hbehind : ((c.skip 1).skip inside.length).skip 1 =
        ⟨c.pos.after (g :: inside ++ [b]), rest⟩ := by
      simp [Cursor.skip, hc, Position.after]
    rw [hinside, hlength, hbehind, List.take_left] at h
    cases h
    exact ⟨g :: inside ++ [b], rest, by simp [hc], .string hg hquoted hb, rfl,
      (l.behind_of_ne (by simp)).symm⟩
  · cases h

theorem punctuation_sound (hc : c.rest = g :: more) (h : l.punctuation c g.char = (.ok t, l')) :
    l.Took c t l' := by
  rw [Lexer.punctuation] at h
  split at h
  · next kind hkind =>
    have hskip : c.skip 1 = ⟨c.pos.after [g], more⟩ := by simp [Cursor.skip, hc]
    rw [hskip] at h
    cases h
    exact ⟨[g], more, hc, .single hkind, rfl,
      (l.behind_of_ne (punctuation?_class hkind).2.2.2.1).symm⟩
  · split at h
    · next kind hkind =>
      split at h
      · next hsecond =>
        cases more with
        | nil => simp [Cursor.char?, Cursor.skip, hc] at hsecond
        | cons b more =>
          have hb : b.char = g.char := by simpa [Cursor.char?, Cursor.skip, hc] using hsecond
          have hskip : c.skip 2 = ⟨c.pos.after [g, b], more⟩ := by simp [Cursor.skip, hc]
          rw [hskip] at h
          cases h
          exact ⟨[g, b], more, hc, .double hkind hb, rfl,
            (l.behind_of_ne (doubled?_class hkind).2.2.2.2.1).symm⟩
      · cases h
    · cases h

theorem tokenAt_sound (hc : c.rest = g :: more) (h : l.tokenAt c g.char = (.ok t, l')) :
    l.Took c t l' := by
  unfold Lexer.tokenAt at h
  split at h
  · next hword => exact word_sound hc hword h
  · next hword =>
    split at h
    · next hdigit => exact integer_sound hc (by simpa using hword) hdigit h
    · split at h
      · next hquote => exact stringLiteral_sound hc hquote h
      · exact punctuation_sound hc h

/-! ### Steps of the lexer -/

/-- A lexer in ordinary code. -/
def Lexer.inCode (source : Text) (pos : Position) (gs : List Glyph) : Lexer :=
  ⟨source, ⟨pos, gs⟩, false, []⟩

/-- A lexer behind the keyword `asm`. -/
def Lexer.afterKeyword (source : Text) (pos : Position) (gs : List Glyph) : Lexer :=
  ⟨source, ⟨pos, gs⟩, true, []⟩

/-- A lexer that has read an `asm` block and still hands out its text and its closing brace. -/
def Lexer.inBlock (source : Text) (pos : Position) (gs : List Glyph) (queue : List Token) : Lexer :=
  ⟨source, ⟨pos, gs⟩, false, queue⟩

variable {source : Text} {gap gs space body : List Glyph}

theorem codeToken_eq (hnext : l.cursor.next = .ok c) (hc : c.rest = g :: more) :
    l.codeToken = l.tokenAt c g.char := by
  simp [Lexer.codeToken, hnext, Cursor.char?, hc, Lexer.tokenAt]

theorem next_inCode_sound (h : (Lexer.inCode source pos gs).next = (.ok t, l')) :
    (Gap gs [] ∧ t = ⟨.eof, [], pos.after gs⟩) ∨
    ∃ gap tok rest, gs = gap ++ (tok ++ rest) ∧ Gap gap (tok ++ rest) ∧
      Lexeme tok rest t.kind t.lexeme ∧ t.pos = pos.after gap ∧
      l' = ⟨source, ⟨pos.after (gap ++ tok), rest⟩, t.kind == .asm, []⟩ := by
  have hstep : (Lexer.inCode source pos gs).codeToken = (.ok t, l') := h
  cases hnext : (Lexer.inCode source pos gs).cursor.next with
  | error start =>
    rw [Lexer.codeToken, hnext] at hstep
    cases hstep
  | ok c =>
    obtain ⟨gap, hgs, hpos, hgap⟩ := Cursor.next_eq_ok_iff.mp hnext
    change gs = gap ++ c.rest at hgs
    change c.pos = pos.after gap at hpos
    -- At the end there is no glyph left behind the gap, otherwise a token begins with the next one.
    cases hc : c.rest with
    | nil =>
      rw [hc] at hgs hgap
      rw [List.append_nil] at hgs
      simp only [Lexer.codeToken, hnext, Cursor.char?, hc] at hstep
      cases hstep
      exact .inl ⟨hgs ▸ hgap, by rw [hpos, hgs]⟩
    | cons g more =>
      rw [codeToken_eq hnext hc] at hstep
      obtain ⟨tok, rest, hrest, htok, htpos, rfl⟩ := tokenAt_sound hc hstep
      rw [hrest] at hgs hgap
      refine .inr ⟨gap, tok, rest, hgs, hgap, htok, htpos.trans hpos, ?_⟩
      rw [Position.after_append, ← hpos]
      rfl

theorem next_inCode_complete (hgap : Gap gap (tok ++ rest)) (htok : Lexeme tok rest kind lexeme) :
    (Lexer.inCode source pos (gap ++ (tok ++ rest))).next =
      (.ok ⟨kind, lexeme, pos.after gap⟩,
        ⟨source, ⟨pos.after (gap ++ tok), rest⟩, kind == .asm, []⟩) := by
  obtain ⟨g, more, hg, hstep⟩ := tokenAt_complete
    (Lexer.inCode source pos (gap ++ (tok ++ rest))) (pos.after gap) htok
  have hnext : (Lexer.inCode source pos (gap ++ (tok ++ rest))).cursor.next =
      .ok ⟨pos.after gap, tok ++ rest⟩ :=
    Cursor.next_eq_ok_iff.mpr ⟨gap, rfl, rfl, hgap⟩
  have hcode := codeToken_eq hnext hg
  rw [hstep] at hcode
  rw [Position.after_append]
  exact hcode

theorem next_inCode_stop (hgap : Gap gap []) :
    (Lexer.inCode source pos gap).next =
      (.ok ⟨.eof, [], pos.after gap⟩, Lexer.inCode source (pos.after gap) []) := by
  have hnext : (Lexer.inCode source pos gap).cursor.next = .ok ⟨pos.after gap, []⟩ :=
    Cursor.next_eq_ok_iff.mpr ⟨gap, by simp [Lexer.inCode], rfl, hgap⟩
  show (Lexer.inCode source pos gap).codeToken = _
  rw [Lexer.codeToken, hnext]
  rfl

theorem asmBlock_eq {lbrace rbrace : Glyph}
    (hnext : l.cursor.next = .ok ⟨pos, lbrace :: (body ++ rbrace :: rest)⟩)
    (hl : lbrace.char = '\x7b') (hbody : ∀ g ∈ body, g.char ≠ '\x7d') (hr : rbrace.char = '\x7d') :
    l.asmBlock = (.ok ⟨.leftBrace, "\x7b", pos⟩,
      Lexer.inBlock l.source (pos.after (lbrace :: body ++ [rbrace])) rest
        [⟨.rawText, .ofGlyphs body, pos.after [lbrace]⟩,
          ⟨.rightBrace, "\x7d", pos.after (lbrace :: body)⟩]) := by
  have hinside : Cursor.skip ⟨pos, lbrace :: (body ++ rbrace :: rest)⟩ 1 =
      ⟨pos.after [lbrace], body ++ rbrace :: rest⟩ := by
    simp [Cursor.skip]
  have hrun : Cursor.run ⟨pos.after [lbrace], body ++ rbrace :: rest⟩ (· != '\x7d') = body := by
    rw [Cursor.run, List.takeWhile_append_of_pos (by simpa using hbody)]
    simp [hr]
  simp only [Lexer.asmBlock, hnext, hinside, hrun]
  simp [Cursor.char?, hl, Cursor.skip, Lexer.moveTo, Lexer.inBlock, Position.after]

/-- An `asm` block that was read has an opening brace, a text without closing brace, and one. -/
theorem asmBlock_sound (h : l.asmBlock = (.ok t, l')) : ∃ space lbrace body rbrace rest,
    l.cursor.rest = space ++ lbrace :: (body ++ rbrace :: rest) ∧
      Gap space (lbrace :: (body ++ rbrace :: rest)) ∧ lbrace.char = '\x7b' ∧
      (∀ g ∈ body, g.char ≠ '\x7d') ∧ rbrace.char = '\x7d' := by
  cases hnext : l.cursor.next with
  | error start =>
    rw [Lexer.asmBlock, hnext] at h
    cases h
  | ok c =>
    obtain ⟨space, hgs, -, hspace⟩ := Cursor.next_eq_ok_iff.mp hnext
    simp only [Lexer.asmBlock, hnext] at h
    split at h
    · next hl =>
      obtain ⟨lbrace, more, hc, hl⟩ := Lexer.char?_eq_some hl
      split at h
      · cases h
      · next hclose =>
        have hmore : (c.skip 1).rest = more := by simp [Cursor.skip, hc]
        -- The text of the block reaches up to the first closing brace.
        obtain ⟨tail, hsplit, hbody, hstop⟩ := run_split (c.skip 1) (· != '\x7d')
        rw [Cursor.skip_of_rest hsplit] at hclose
        rw [hmore] at hsplit
        cases tail with
        | nil => simp at hclose
        | cons rbrace rest =>
          have hr : rbrace.char = '\x7d' := by simpa using hstop rbrace rfl
          rw [hc, hsplit] at hgs hspace
          exact ⟨space, lbrace, _, rbrace, rest, hgs, hspace, hl, fun g hg => by simpa using hbody g hg, hr⟩
    · cases h

/-! ### All tokens -/

theorem tokens_error {e : Position × LexCause} (h : l.next = (.error e, l')) :
    l.tokens = ([], some e) := by
  rw [Lexer.tokens]
  split <;> simp_all

theorem tokens_stop (h : l.next = (.ok t, l')) (ht : t.kind = .eof) : l.tokens = ([t], none) := by
  rw [Lexer.tokens]
  split <;> simp_all

theorem tokens_more (h : l.next = (.ok t, l')) (ht : t.kind ≠ .eof) :
    l.tokens = (t :: l'.tokens.1, l'.tokens.2) := by
  rw [Lexer.tokens]
  split <;> simp_all

theorem tokens_inBlock {queue : List Token} (ht : t.kind ≠ .eof) :
    (Lexer.inBlock source pos gs (t :: queue)).tokens =
      (t :: (Lexer.inBlock source pos gs queue).tokens.1,
        (Lexer.inBlock source pos gs queue).tokens.2) :=
  tokens_more rfl ht

/-- Behind the keyword come the three tokens of the block. -/
theorem tokens_afterKeyword {lbrace rbrace : Glyph} (hspace : Gap space (lbrace :: (body ++ rbrace :: rest)))
    (hl : lbrace.char = '\x7b') (hbody : ∀ g ∈ body, g.char ≠ '\x7d') (hr : rbrace.char = '\x7d') :
    (Lexer.afterKeyword source pos (space ++ lbrace :: (body ++ rbrace :: rest))).tokens =
      (⟨.leftBrace, "\x7b", pos.after space⟩ ::
        ⟨.rawText, .ofGlyphs body, pos.after (space ++ [lbrace])⟩ ::
        ⟨.rightBrace, "\x7d", pos.after (space ++ lbrace :: body)⟩ ::
        (Lexer.inCode source (pos.after (space ++ lbrace :: body ++ [rbrace])) rest).tokens.1,
      (Lexer.inCode source (pos.after (space ++ lbrace :: body ++ [rbrace])) rest).tokens.2) := by
  have hnext : (Lexer.afterKeyword source pos (space ++ lbrace :: (body ++ rbrace :: rest))).cursor.next
      = .ok ⟨pos.after space, lbrace :: (body ++ rbrace :: rest)⟩ :=
    Cursor.next_eq_ok_iff.mpr ⟨space, rfl, rfl, hspace⟩
  have hstep : (Lexer.afterKeyword source pos (space ++ lbrace :: (body ++ rbrace :: rest))).next = _ :=
    asmBlock_eq hnext hl hbody hr
  rw [tokens_more hstep (by simp), tokens_inBlock (by simp), tokens_inBlock (by simp)]
  simp only [List.append_assoc, Position.after_append]
  rfl

theorem tokens_complete {ts : List Token} (h : Layout pos gs ts) :
    (Lexer.inCode source pos gs).tokens = (ts, none) := by
  induction h with
  | stop hgap => exact tokens_stop (next_inCode_stop hgap) rfl
  | @token pos gap tok rest kind lexeme ts hgap htok hkind _ ih =>
    rw [tokens_more (next_inCode_complete hgap htok) htok.kind_class.1]
    have hbeq : (kind == .asm) = false := by simpa using hkind
    rw [hbeq]
    change (_ :: (Lexer.inCode source _ rest).tokens.1, (Lexer.inCode source _ rest).tokens.2) = _
    rw [ih]
  | @asm pos gap key space body rest lexeme ts hgap hkey hspace hbody _ ih =>
    rw [tokens_more (next_inCode_complete hgap hkey) (by simp)]
    change (_ :: (Lexer.afterKeyword source _ _).tokens.1, (Lexer.afterKeyword source _ _).tokens.2) = _
    rw [tokens_afterKeyword hspace rfl hbody rfl]
    simp only [Position.after_append] at ih ⊢
    rw [ih]

theorem brace_eq (hg : g.Spelled) {brace : Char} (h : g.char = brace) (hne : brace ≠ Glyph.replacement) :
    g = ⟨brace, Text.ofChar brace⟩ := by
  obtain ⟨gchar, bytes⟩ := g
  rw [Glyph.mk.injEq]
  exact ⟨h, hg.bytes_eq h hne⟩

/-- Behind the keyword there is a block, or the tokens end in a fault. -/
theorem block_of_tokens (hspelled : ∀ g ∈ gs, g.Spelled)
    (h : (Lexer.afterKeyword source pos gs).tokens.2 = none) : ∃ space body rest,
      gs = space ++ ⟨'\x7b', "\x7b"⟩ :: (body ++ ⟨'\x7d', "\x7d"⟩ :: rest) ∧
      Gap space (⟨'\x7b', "\x7b"⟩ :: (body ++ ⟨'\x7d', "\x7d"⟩ :: rest)) ∧
      ∀ g ∈ body, g.char ≠ '\x7d' := by
  cases hnext : (Lexer.afterKeyword source pos gs).next with
  | mk outcome l' =>
    cases outcome with
    | error e =>
      rw [tokens_error hnext] at h
      cases h
    | ok t =>
      have hstep : (Lexer.afterKeyword source pos gs).asmBlock = (.ok t, l') := hnext
      obtain ⟨space, lbrace, body, rbrace, rest, hgs, hspace, hl, hbody, hr⟩ := asmBlock_sound hstep
      change gs = _ at hgs
      obtain rfl : lbrace = ⟨'\x7b', "\x7b"⟩ :=
        brace_eq (hspelled lbrace (by simp [hgs])) hl (by decide)
      obtain rfl : rbrace = ⟨'\x7d', "\x7d"⟩ :=
        brace_eq (hspelled rbrace (by simp [hgs])) hr (by decide)
      exact ⟨space, body, rest, hgs, hspace, hbody⟩

theorem tokens_sound (source : Text) (n : Nat) : ∀ pos gs ts, gs.length ≤ n → (∀ g ∈ gs, g.Spelled) →
    (Lexer.inCode source pos gs).tokens = (ts, none) → Layout pos gs ts := by
  induction n using Nat.strongRecOn with
  | ind n ih =>
    intro pos gs ts hn hspelled htokens
    cases hnext : (Lexer.inCode source pos gs).next with
    | mk outcome l' =>
      cases outcome with
      | error e =>
        rw [tokens_error hnext] at htokens
        cases htokens
      | ok t =>
        rcases next_inCode_sound hnext with ⟨hgap, rfl⟩ | ⟨gap, tok, rest, rfl, hgap, htok, htpos, rfl⟩
        · rw [tokens_stop hnext rfl] at htokens
          cases htokens
          exact .stop hgap
        · obtain ⟨kind, lexeme, tpos⟩ := t
          change Lexeme tok rest kind lexeme at htok
          obtain rfl : tpos = pos.after gap := htpos
          -- A token has at least one glyph, so the rest is shorter.
          have hlength := List.length_pos_iff.mpr htok.ne_nil
          simp only [List.length_append] at hn
          rw [tokens_more hnext htok.kind_class.1] at htokens
          by_cases hasm : kind = .asm
          -- Behind the keyword the lexer has another state until the block is over.
          · subst hasm
            change (_ :: (Lexer.afterKeyword source _ rest).tokens.1,
              (Lexer.afterKeyword source _ rest).tokens.2) = _ at htokens
            obtain ⟨space, body, rest, rfl, hspace, hbody⟩ := block_of_tokens
              (fun g hg => hspelled g (by simp [hg])) (congrArg Prod.snd htokens)
            rw [tokens_afterKeyword hspace rfl hbody rfl] at htokens
            simp only [← Position.after_append, ← List.append_assoc] at htokens
            obtain ⟨rfl, hnone⟩ := Prod.mk.inj htokens
            simp only [List.length_append, List.length_cons] at hn
            refine .asm hgap htok hspace hbody (ih rest.length (by omega) _ rest _ (Nat.le_refl _) ?_
              (Prod.ext rfl hnone))
            exact fun g hg => hspelled g (by simp [hg])
          · have hbeq : (kind == .asm) = false := by simpa using hasm
            rw [hbeq] at htokens
            change (_ :: (Lexer.inCode source _ rest).tokens.1,
              (Lexer.inCode source _ rest).tokens.2) = _ at htokens
            obtain ⟨rfl, hnone⟩ := Prod.mk.inj htokens
            refine .token hgap htok hasm (ih rest.length (by omega) _ rest _ (Nat.le_refl _) ?_
              (Prod.ext rfl hnone))
            exact fun g hg => hspelled g (by simp [hg])

/-- A source can be read to its end exactly if it has a lexical structure, and its tokens are those of
the structure. -/
theorem lex_eq_ok_iff {ts : List Token} :
    source.lex = .ok ts ↔ Layout .start source.glyphs ts := by
  have hstart : Lexer.ofText source = Lexer.inCode source .start source.glyphs := rfl
  unfold Text.lex Text.tokens
  rw [hstart]
  constructor
  · intro h
    refine tokens_sound source source.glyphs.length .start _ ts (Nat.le_refl _) Glyph.spelled_glyphs ?_
    split at h
    · next ts' htokens =>
      cases h
      exact htokens
    · cases h
  · intro h
    rw [tokens_complete h]

end Pocket

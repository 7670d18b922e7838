import Mathlib
import Pocket.Proofs.Diagnosed
import Pocket.Proofs.Joined
import Pocket.Proofs.Trimming

/-!
# Comments behind a text

Where a lexer stands does not matter for the kinds and lexemes of the tokens it reads, nor for the cause of
a fault. So a comment at the end of a line, behind a text that leaves nothing open, changes neither.
-/

namespace Pocket

open Lexical

/-! ### Lexers at other places -/

/-- Kinds and lexemes of tokens, and the cause of the fault that cuts them short. -/
def wordsRead (read : List Token × Option (Position × LexCause)) :
    List (Token.Kind × Text) × Option LexCause :=
  (read.1.map Token.word, read.2.map Prod.snd)

namespace Lexer

/-- Lexers before the same glyphs, which may stand at different positions. -/
structure Moved (l l' : Lexer) : Prop where
  rest : l'.cursor.rest = l.cursor.rest
  afterAsm : l'.afterAsm = l.afterAsm
  queue : l'.queue.map Token.word = l.queue.map Token.word

/-- Steps that read the same token, or fail for the same cause. -/
inductive StepAlike : Outcome × Lexer → Outcome × Lexer → Prop where
  | token {t t' : Token} {l l' : Lexer} (hword : t'.word = t.word) (hmoved : l.Moved l') :
      StepAlike (.ok t, l) (.ok t', l')
  | fault (pos pos' : Position) (cause : LexCause) (l l' : Lexer) :
      StepAlike (.error (pos, cause), l) (.error (pos', cause), l')

/-- Both are at the same token, or before comments that are not closed. -/
inductive NextAlike : Except Position Cursor → Except Position Cursor → Prop where
  | token (pos pos' : Position) (rest : List Glyph) : NextAlike (.ok ⟨pos, rest⟩) (.ok ⟨pos', rest⟩)
  | unclosed (start start' : Position) : NextAlike (.error start) (.error start')

variable {l l' : Lexer} {c c' : Cursor} {pos pos' : Position} {gs rest : List Glyph} {first : Char}

theorem nextAlike_of_rest (h : c'.rest = c.rest) : NextAlike c.next c'.next := by
  have hmove : ∀ {c c' d : Cursor}, c'.rest = c.rest → c.next = .ok d → ∃ pos, c'.next = .ok ⟨pos, d.rest⟩ := by
    intro c c' d h hnext
    obtain ⟨gap, hrest, -, hgap⟩ := Cursor.next_eq_ok_iff.mp hnext
    exact ⟨c'.pos.after gap, Cursor.next_eq_ok_iff.mpr ⟨gap, h.trans hrest, rfl, hgap⟩⟩
  cases hnext : c.next with
  | ok d =>
    obtain ⟨pos, hnext'⟩ := hmove h hnext
    rw [hnext']
    exact .token d.pos pos d.rest
  | error start =>
    cases hnext' : c'.next with
    | error start' => exact .unclosed start start'
    | ok d =>
      obtain ⟨pos, hnext''⟩ := hmove h.symm hnext'
      rw [hnext] at hnext''
      cases hnext''

theorem StepAlike.ite {p p' : Prop} [Decidable p] [Decidable p'] {r₁ r₂ r₁' r₂' : Outcome × Lexer}
    (hp : p ↔ p') (h₁ : StepAlike r₁ r₁') (h₂ : StepAlike r₂ r₂') :
    StepAlike (if p then r₁ else r₂) (if p' then r₁' else r₂') := by
  by_cases h : p
  · rwa [if_pos h, if_pos (hp.mp h)]
  · rwa [if_neg h, if_neg (mt hp.mpr h)]

theorem integer_alike (l l' : Lexer) (pos pos' : Position) (gs : List Glyph) :
    StepAlike (l.integer ⟨pos, gs⟩) (l'.integer ⟨pos', gs⟩) := by
  have hrun : Cursor.run ⟨pos', gs⟩ Token.isWordChar = Cursor.run ⟨pos, gs⟩ Token.isWordChar := rfl
  rw [integer, integer, hrun]
  dsimp only
  split
  · exact .token rfl ⟨rfl, rfl, rfl⟩
  · exact .fault _ _ _ _ _

theorem tokenAt_alike (l l' : Lexer) (pos pos' : Position) (gs : List Glyph) (first : Char) :
    StepAlike (l.tokenAt ⟨pos, gs⟩ first) (l'.tokenAt ⟨pos', gs⟩ first) := by
  rw [tokenAt, tokenAt]
  refine .ite Iff.rfl (.token rfl ⟨rfl, rfl, rfl⟩) (.ite Iff.rfl (integer_alike l l' pos pos' gs) (.ite Iff.rfl ?_ ?_))
  · exact .ite Iff.rfl (.token rfl ⟨rfl, rfl, rfl⟩) (.fault _ _ _ _ _)
  · rw [punctuation, punctuation]
    split
    · exact .token rfl ⟨rfl, rfl, rfl⟩
    · split
      · exact .ite Iff.rfl (.token rfl ⟨rfl, rfl, rfl⟩) (.fault _ _ _ _ _)
      · exact .fault _ _ _ _ _

theorem codeToken_alike (h : NextAlike l.cursor.next l'.cursor.next) :
    StepAlike l.codeToken l'.codeToken := by
  rw [codeToken, codeToken]
  generalize l.cursor.next = n at h
  generalize l'.cursor.next = n' at h
  cases h with
  | unclosed start start' => exact .fault _ _ _ _ _
  | token pos pos' rest =>
    cases rest with
    | nil => exact .token rfl ⟨rfl, rfl, rfl⟩
    | cons g rest => exact tokenAt_alike l l' pos pos' (g :: rest) g.char

theorem asmBlock_alike (h : NextAlike l.cursor.next l'.cursor.next) :
    StepAlike l.asmBlock l'.asmBlock := by
  rw [asmBlock, asmBlock]
  generalize l.cursor.next = n at h
  generalize l'.cursor.next = n' at h
  cases h with
  | unclosed start start' => exact .fault _ _ _ _ _
  | token pos pos' rest =>
    exact .ite Iff.rfl (.ite Iff.rfl (.fault _ _ _ _ _) (.token rfl ⟨rfl, rfl, rfl⟩)) (.fault _ _ _ _ _)

theorem Moved.next (h : l.Moved l') : StepAlike l.next l'.next := by
  have hqueue := h.queue
  rw [Lexer.next, Lexer.next]
  cases hq : l.queue with
  | nil =>
    rw [hq, List.map_nil, List.map_eq_nil_iff] at hqueue
    rw [hqueue]
    dsimp only
    rw [h.afterAsm]
    split
    · exact asmBlock_alike (nextAlike_of_rest h.rest)
    · exact codeToken_alike (nextAlike_of_rest h.rest)
  | cons t queue =>
    cases hq' : l'.queue with
    | nil =>
      rw [hq, hq'] at hqueue
      cases hqueue
    | cons t' queue' =>
      rw [hq, hq'] at hqueue
      obtain ⟨hword, htail⟩ := List.cons.inj hqueue
      exact .token hword ⟨h.rest, h.afterAsm, htail⟩

/-- After a step alike, what is read depends on what the lexers behind it read. -/
theorem StepAlike.wordsRead (h : StepAlike l.next l'.next)
    (hrest : ∀ t m m', l.next = (.ok t, m) → t.kind ≠ .eof → m.Moved m' →
      wordsRead m'.tokens = wordsRead m.tokens) : wordsRead l'.tokens = wordsRead l.tokens := by
  generalize hnext : l.next = r at h hrest
  generalize hnext' : l'.next = r' at h
  cases h with
  | fault pos pos' cause m m' =>
    rw [tokens_error hnext, tokens_error hnext']
    rfl
  | @token t t' m m' hword hmoved =>
    have hkind : t'.kind = t.kind := congrArg Prod.fst hword
    by_cases ht : t.kind = .eof
    · rw [tokens_stop hnext ht, tokens_stop hnext' (hkind.trans ht)]
      simp [Pocket.wordsRead, hword]
    · have hmore := hrest t m m' rfl ht hmoved
      rw [tokens_more hnext ht, tokens_more hnext' (hkind ▸ ht)]
      simp only [Pocket.wordsRead, Prod.mk.injEq, List.map_cons] at hmore ⊢
      exact ⟨by rw [hword, hmore.1], hmore.2⟩

theorem Moved.wordsRead (h : l.Moved l') : wordsRead l'.tokens = wordsRead l.tokens := by
  generalize hn : l.remaining = n
  induction n using Nat.strongRecOn generalizing l l' with
  | ind n ih =>
    refine h.next.wordsRead fun t m m' hnext ht hmoved => ih m.remaining ?_ hmoved rfl
    have hless := remaining_next_lt (congrArg Prod.fst hnext) ht
    rwa [hnext, hn] at hless

end Lexer

/-! ### A comment at the end of a line -/

section Behind

variable {pos : Position} {gs gap more text : List Glyph} {nl blank a b : Glyph}

theorem Cursor.skipTrivia_followed (h : Gap gap []) (hnl : nl.char = '\n') (more : List Glyph) :
    Cursor.skipTrivia .blanks pos (gap ++ nl :: more) =
      Cursor.skipTrivia .blanks ((pos.after gap).next nl.char) more := by
  have hblank : isBlank nl.char = true := by
    rw [hnl]
    decide
  generalize hend : ([] : List Glyph) = stop at h
  induction h generalizing pos with
  | none =>
    rw [List.nil_append, skipTrivia_blank hblank]
    rfl
  | blank hg _ ih =>
    rw [List.cons_append, skipTrivia_blank hg, ih hend]
    rfl
  | line ha hb htext hnewline _ ih =>
    simp only [List.cons_append, List.append_assoc]
    rw [skipTrivia_slashes ha hb, skipTrivia_line htext, skipTrivia, if_pos hnewline, ih hend]
    simp [Position.after]
  | lastLine ha hb htext =>
    simp only [List.cons_append]
    rw [skipTrivia_slashes ha hb, skipTrivia_line htext, skipTrivia, if_pos hnl]
    simp [Position.after]
  | block ha hb htext hc hd _ ih =>
    simp only [List.cons_append, List.append_assoc]
    rw [skipTrivia_slashStar ha hb, skipTrivia_block htext hc hd, ih hend]
    simp [Position.after]

/-- A comment to the end of the line may be put behind a gap that ends a text. -/
theorem Lexical.Gap.commented (h : Gap gap []) (hblank : isBlank blank.char = true)
    (ha : a.char = '/') (hb : b.char = '/') (htext : ∀ g ∈ blank :: text, g.char ≠ '\n') :
    Gap (gap ++ blank :: a :: b :: text) [] := by
  generalize hend : ([] : List Glyph) = stop at h ⊢
  induction h with
  | none =>
    subst hend
    exact .blank hblank (.lastLine ha hb (List.forall_mem_cons.mp htext).2)
  | blank hg _ ih => exact .blank hg (ih hend)
  | line ha' hb' htext' hnewline _ ih =>
    simp only [List.cons_append, List.append_assoc]
    exact .line ha' hb' htext' hnewline (ih hend)
  | @lastLine a' b' text' ha' hb' htext' =>
    refine .lastLine ha' hb' fun g hg => ?_
    rcases List.mem_append.mp hg with hg | hg
    · exact htext' g hg
    simp only [List.mem_cons] at hg htext
    rcases hg with rfl | rfl | rfl | hg
    · exact htext g (.inl rfl)
    · rw [ha]
      decide
    · rw [hb]
      decide
    · exact htext g (.inr hg)
  | block ha' hb' htext' hc hd _ ih =>
    simp only [List.cons_append, List.append_assoc]
    exact .block ha' hb' htext' hc hd (ih hend)

/-- Behind a gap the next line is read, wherever the gap ends. -/
theorem wordsRead_behind_gap {gap' : List Glyph} {source source' : Text} {pos' : Position}
    (h : Gap gap []) (h' : Gap gap' []) (hmore : ∀ g ∈ more.head?, g.char = '\n') :
    wordsRead (Lexer.inCode source' pos' (gap' ++ more)).tokens =
      wordsRead (Lexer.inCode source pos (gap ++ more)).tokens := by
  cases more with
  | nil =>
    rw [List.append_nil, List.append_nil, tokens_stop (next_inCode_stop h) rfl,
      tokens_stop (next_inCode_stop h') rfl]
    rfl
  | cons nl more =>
    have hnl : nl.char = '\n' := hmore nl rfl
    have hstep : Lexer.StepAlike (Lexer.inCode source pos (gap ++ nl :: more)).next
        (Lexer.inCode source' pos' (gap' ++ nl :: more)).next := by
      refine Lexer.codeToken_alike ?_
      change Lexer.NextAlike (Cursor.skipTrivia .blanks pos (gap ++ nl :: more))
        (Cursor.skipTrivia .blanks pos' (gap' ++ nl :: more))
      rw [Cursor.skipTrivia_followed h hnl, Cursor.skipTrivia_followed h' hnl]
      change Lexer.NextAlike (Cursor.next ⟨_, more⟩) (Cursor.next ⟨_, more⟩)
      exact Lexer.nextAlike_of_rest rfl
    exact hstep.wordsRead fun _ _ _ _ _ hmoved => hmoved.wordsRead

end Behind

/-! ### Texts that leave nothing open -/

/-- Whether a fault at the end of a text may be gone once the text goes on. -/
def LexCause.isOpen : LexCause → Bool
  | .unterminatedComment | .unterminatedString | .unterminatedAsm | .asmWithoutBrace none => true
  | _ => false

/-- Glyphs that begin with no token, for a cause that lies in the glyphs up to there. -/
inductive Lexical.Misfit : List Glyph → LexCause → Prop where
  | integer {g : Glyph} {run rest : List Glyph} (hword : Token.startsWord g.char = false)
      (hg : isDigit g.char = true) (hrun : IsRun (g :: run) rest)
      (hshape : Token.isIntegerLiteral ((g :: run).map Glyph.char) = false) :
      Misfit (g :: run ++ rest) (.malformedInteger (.ofGlyphs (g :: run)))
  | character {g : Glyph} {rest : List Glyph} (hword : Token.startsWord g.char = false)
      (hdigit : isDigit g.char = false) (hquote : g.char ≠ '"') (hsingle : Token.punctuation? g.char = none)
      (hdouble : Token.doubled? g.char = none ∨ ∀ d ∈ rest.head?, d.char ≠ g.char) :
      Misfit (g :: rest) (.unexpected g.char)

section Followed

variable {l l' : Lexer} {pos : Position} {g : Glyph} {gs more rest gap tok : List Glyph} {source : Text}
  {e : Position × LexCause} {kind : Token.Kind} {lexeme : Text} {cause : LexCause}

theorem Cursor.next_followed {c d : Cursor} (hmore : ∀ g ∈ more.head?, isBlank g.char = true)
    (hnext : c.next = .ok d) (hd : d.rest ≠ []) :
    Cursor.next ⟨c.pos, c.rest ++ more⟩ = .ok ⟨d.pos, d.rest ++ more⟩ := by
  obtain ⟨gap, hrest, hpos, hgap⟩ := Cursor.next_eq_ok_iff.mp hnext
  refine Cursor.next_eq_ok_iff.mpr ⟨gap, by rw [hrest, List.append_assoc], hpos, ?_⟩
  exact hgap.of_rest hd (startsGap_followed hmore hd hgap.rest_starts)

theorem Lexical.Misfit.followed (hmore : ∀ g ∈ more.head?, isBlank g.char = true) (h : Misfit gs cause) :
    Misfit (gs ++ more) cause := by
  cases h with
  | integer hword hg hrun hshape =>
    rw [List.append_assoc]
    exact .integer hword hg (hrun.followed hmore) hshape
  | @character g rest hword hdigit hquote hsingle hdouble =>
    refine .character hword hdigit hquote hsingle ?_
    cases rest with
    | cons d rest => exact hdouble
    | nil =>
      by_cases hnone : Token.doubled? g.char = none
      · exact .inl hnone
      · refine .inr fun d hd heq => hnone ?_
        have hblank := hmore d hd
        rw [heq] at hblank
        unfold Token.doubled?
        split
        · next hchar =>
          rw [hchar] at hblank
          exact absurd hblank (by decide)
        · next hchar =>
          rw [hchar] at hblank
          exact absurd hblank (by decide)
        · rfl

theorem tokenAt_misfit (l : Lexer) (pos : Position) (h : Misfit gs cause) :
    ∃ g more l', gs = g :: more ∧ l.tokenAt ⟨pos, gs⟩ g.char = (.error (pos, cause), l') := by
  cases h with
  | @integer g run rest hword hg hrun hshape =>
    refine ⟨g, run ++ rest, l.moveTo (Cursor.skip ⟨pos, g :: run ++ rest⟩ (run.length + 1)), rfl, ?_⟩
    rw [Lexer.tokenAt, if_neg (by simp [hword]), if_pos hg, Lexer.integer, run_eq hrun,
      if_neg (by rw [hshape]; exact Bool.false_ne_true)]
    rfl
  | @character g rest hword hdigit hquote hsingle hdouble =>
    refine ⟨g, rest, l.moveTo (Cursor.skip ⟨pos, g :: rest⟩ 1), rfl, ?_⟩
    rw [Lexer.tokenAt, if_neg (by simp [hword]), if_neg (by simp [hdigit]), if_neg hquote,
      Lexer.punctuation, hsingle]
    dsimp only
    split
    · next hkind =>
      rw [if_neg]
      intro hsecond
      rcases hdouble with hnone | hdouble
      · rw [hnone] at hkind
        cases hkind
      · cases rest with
        | nil => cases hsecond
        | cons d rest => exact hdouble d rfl (Option.some.inj hsecond)
    · rfl

/-- A fault at a token that nothing behind the text can repair is in the token. -/
theorem misfit_of_tokenAt (h : l.tokenAt ⟨pos, g :: gs⟩ g.char = (.error e, l')) (hopen : e.2.isOpen = false) :
    e.1 = pos ∧ Misfit (g :: gs) e.2 := by
  unfold Lexer.tokenAt at h
  split at h
  · cases h
  · next hword =>
    have hword : Token.startsWord g.char = false := by simpa using hword
    split at h
    · next hdigit =>
      obtain ⟨run, rest, hrest, hrun, hisRun⟩ := run_of_head (c := ⟨pos, g :: gs⟩) rfl
        (by simp [Token.isWordChar, hdigit])
      rw [Lexer.integer, hrun] at h
      dsimp only at h hrest
      split at h
      · cases h
      · next hshape =>
        cases h
        rw [hrest]
        exact ⟨rfl, .integer hword hdigit hisRun (by simpa using hshape)⟩
    · next hdigit =>
      have hdigit : isDigit g.char = false := by simpa using hdigit
      split at h
      -- A string can only fail by not being closed, and then it is open.
      · rw [Lexer.stringLiteral] at h
        split at h
        · cases h
        · cases h
          cases hopen
      · next hquote =>
        rw [Lexer.punctuation] at h
        split at h
        · cases h
        · next hsingle =>
          split at h
          · split at h
            · cases h
            -- A sign that needs a second one fails whatever other character comes next.
            · next hsecond =>
              cases h
              refine ⟨rfl, .character hword hdigit hquote hsingle (.inr fun d hd heq => hsecond ?_)⟩
              simpa [Cursor.skip, Cursor.char?] using ⟨d, hd, heq⟩
          · next hnone =>
            cases h
            exact ⟨rfl, .character hword hdigit hquote hsingle (.inl hnone)⟩

theorem fault_inCode_followed (hmore : ∀ g ∈ more.head?, isBlank g.char = true)
    (h : (Lexer.inCode source pos gs).next = (.error e, l')) (hopen : e.2.isOpen = false) :
    ∃ l₂, (Lexer.inCode source pos (gs ++ more)).next = (.error e, l₂) := by
  have hstep : (Lexer.inCode source pos gs).codeToken = (.error e, l') := h
  cases hnext : (Lexer.inCode source pos gs).cursor.next with
  | error start =>
    rw [Lexer.codeToken, hnext] at hstep
    cases hstep
    cases hopen
  | ok c =>
    obtain ⟨place, rest⟩ := c
    cases rest with
    | nil =>
      rw [Lexer.codeToken, hnext] at hstep
      cases hstep
    | cons g rest =>
      rw [codeToken_eq hnext rfl] at hstep
      obtain ⟨hplace, hmisfit⟩ := misfit_of_tokenAt hstep hopen
      have hnext' := Cursor.next_followed hmore hnext (List.cons_ne_nil _ _)
      obtain ⟨g', rest', l₂, heq, hfault⟩ := tokenAt_misfit (Lexer.inCode source pos (gs ++ more)) place
        (hmisfit.followed hmore)
      refine ⟨l₂, ?_⟩
      rw [show e = (place, e.2) from Prod.ext hplace rfl, ← hfault]
      obtain ⟨rfl, -⟩ := List.cons.inj heq
      exact codeToken_eq hnext' rfl

theorem fault_afterKeyword_followed (hmore : ∀ g ∈ more.head?, isBlank g.char = true)
    (h : (Lexer.afterKeyword source pos gs).next = (.error e, l')) (hopen : e.2.isOpen = false) :
    ∃ l₂, (Lexer.afterKeyword source pos (gs ++ more)).next = (.error e, l₂) := by
  have hstep : (Lexer.afterKeyword source pos gs).asmBlock = (.error e, l') := h
  cases hnext : (Lexer.afterKeyword source pos gs).cursor.next with
  | error start =>
    rw [Lexer.asmBlock, hnext] at hstep
    cases hstep
    cases hopen
  | ok c =>
    obtain ⟨place, rest⟩ := c
    simp only [Lexer.asmBlock, hnext] at hstep
    split at hstep
    -- A block without its closing brace is open, so only a missing opening brace is left.
    · split at hstep
      · cases hstep
        cases hopen
      · cases hstep
    · next hbrace =>
      cases hstep
      cases rest with
      | nil => cases hopen
      | cons g rest =>
        have hnext' : (Lexer.afterKeyword source pos (gs ++ more)).cursor.next =
            .ok ⟨place, g :: (rest ++ more)⟩ := Cursor.next_followed hmore hnext (List.cons_ne_nil _ _)
        refine ⟨(Lexer.afterKeyword source pos (gs ++ more)).moveTo ⟨place, g :: (rest ++ more)⟩, ?_⟩
        show (Lexer.afterKeyword source pos (gs ++ more)).asmBlock = _
        simp only [Lexer.asmBlock, hnext']
        exact if_neg hbrace

theorem next_inCode_followed (hmore : ∀ g ∈ more.head?, isBlank g.char = true)
    (hgap : Gap gap (tok ++ rest)) (htok : Lexeme tok rest kind lexeme) :
    (Lexer.inCode source pos (gap ++ (tok ++ rest) ++ more)).next =
      (.ok ⟨kind, lexeme, pos.after gap⟩,
        ⟨source, ⟨pos.after (gap ++ tok), rest ++ more⟩, kind == .asm, []⟩) := by
  have hne : tok ++ rest ≠ [] := by simp [htok.ne_nil]
  have hgap' := hgap.of_rest hne (startsGap_followed hmore hne hgap.rest_starts)
  rw [List.append_assoc] at hgap'
  rw [List.append_assoc, List.append_assoc]
  exact next_inCode_complete hgap' (htok.followed hmore)

end Followed

/-- Reading to the end leaves nothing open: no comment, no string literal and no block of `asm`. -/
def Lexer.Settled (l : Lexer) : Prop :=
  ∀ cause ∈ (wordsRead l.tokens).2, cause.isOpen = false

section Exchange

variable {source : Text} {pos : Position} {gs more more' : List Glyph} {l l' : Lexer} {t : Token}

theorem Lexer.Settled.behind (h : l.Settled) (hnext : l.next = (.ok t, l')) (ht : t.kind ≠ .eof) :
    l'.Settled := by
  rw [Settled, tokens_more hnext ht] at h
  exact h

theorem wordsRead_more (hnext : l.next = (.ok t, l')) (ht : t.kind ≠ .eof) :
    wordsRead l.tokens = (t.word :: (wordsRead l'.tokens).1, (wordsRead l'.tokens).2) := by
  rw [tokens_more hnext ht]
  rfl

/-- What is read behind the keyword `asm`, from what is read behind its block. -/
theorem wordsRead_afterKeyword (hmore : ∀ g ∈ more.head?, isBlank g.char = true)
    (hmore' : ∀ g ∈ more'.head?, isBlank g.char = true) (h : (Lexer.afterKeyword source pos gs).Settled)
    (hcode : ∀ pos rest, rest.length < gs.length → (Lexer.inCode source pos rest).Settled →
      wordsRead (Lexer.inCode source pos (rest ++ more')).tokens =
        wordsRead (Lexer.inCode source pos (rest ++ more)).tokens) :
    wordsRead (Lexer.afterKeyword source pos (gs ++ more')).tokens =
      wordsRead (Lexer.afterKeyword source pos (gs ++ more)).tokens := by
  cases hnext : (Lexer.afterKeyword source pos gs).next with
  | mk outcome l' =>
    cases outcome with
    -- The fault is not open, so it comes up with either continuation.
    | error e =>
      have hopen := h e.2 (by rw [tokens_error hnext]; rfl)
      obtain ⟨l₁, hnext₁⟩ := fault_afterKeyword_followed hmore hnext hopen
      obtain ⟨l₂, hnext₂⟩ := fault_afterKeyword_followed hmore' hnext hopen
      rw [tokens_error hnext₁, tokens_error hnext₂]
    | ok t =>
      obtain ⟨space, lbrace, body, rbrace, rest, hgs, hspace, hl, hbody, hr⟩ := asmBlock_sound hnext
      change gs = _ at hgs
      subst hgs
      rw [Lexer.Settled, tokens_afterKeyword hspace hl hbody hr] at h
      have hrest := hcode _ rest (by simp; omega) h
      -- The first glyph of a continuation is blank, so it begins no comment with the last one of the block.
      have hblock : ∀ more : List Glyph, (∀ g ∈ more.head?, isBlank g.char = true) →
          Gap space (lbrace :: (body ++ rbrace :: (rest ++ more))) := by
        intro more hmore
        have hne : lbrace :: (body ++ rbrace :: rest) ≠ [] := List.cons_ne_nil _ _
        simpa using hspace.of_rest hne (startsGap_followed hmore hne hspace.rest_starts)
      simp only [List.append_assoc, List.cons_append]
      rw [tokens_afterKeyword (hblock more' hmore') hl hbody hr, tokens_afterKeyword (hblock more hmore) hl hbody hr]
      simp only [wordsRead, Prod.mk.injEq, List.map_cons] at hrest ⊢
      simp only [List.append_assoc, List.cons_append] at hrest
      simp [hrest]

/-- Continuations that are read alike behind every gap are read alike behind every text that leaves
nothing open. -/
theorem wordsRead_exchange (hmore : ∀ g ∈ more.head?, isBlank g.char = true)
    (hmore' : ∀ g ∈ more'.head?, isBlank g.char = true)
    (hgap : ∀ pos gap, Gap gap [] → wordsRead (Lexer.inCode source pos (gap ++ more')).tokens =
      wordsRead (Lexer.inCode source pos (gap ++ more)).tokens)
    (h : (Lexer.inCode source pos gs).Settled) :
    wordsRead (Lexer.inCode source pos (gs ++ more')).tokens =
      wordsRead (Lexer.inCode source pos (gs ++ more)).tokens := by
  generalize hn : gs.length = n
  induction n using Nat.strongRecOn generalizing gs pos with
  | ind n ih =>
    cases hnext : (Lexer.inCode source pos gs).next with
    | mk outcome l' =>
      cases outcome with
      | error e =>
        have hopen := h e.2 (by rw [tokens_error hnext]; rfl)
        obtain ⟨l₁, hnext₁⟩ := fault_inCode_followed hmore hnext hopen
        obtain ⟨l₂, hnext₂⟩ := fault_inCode_followed hmore' hnext hopen
        rw [tokens_error hnext₁, tokens_error hnext₂]
      | ok t =>
        rcases next_inCode_sound hnext with ⟨hstop, -⟩ | ⟨gap, tok, rest, rfl, hbefore, htok, htpos, rfl⟩
        -- Only blanks and comments are left, for which the continuations are read alike by assumption.
        · exact hgap pos gs hstop
        · have hlength := List.length_pos_iff.mpr htok.ne_nil
          simp only [List.length_append] at hn
          have hkind := htok.kind_class.1
          have hrest := h.behind hnext hkind
          rw [wordsRead_more (next_inCode_followed hmore hbefore htok) hkind,
            wordsRead_more (next_inCode_followed hmore' hbefore htok) hkind]
          by_cases hasm : t.kind = .asm
          · rw [hasm] at hrest ⊢
            have heq := wordsRead_afterKeyword hmore hmore' hrest fun pos rest' hless hsettled =>
              ih rest'.length (by omega) hsettled rfl
            change (_ :: (wordsRead (Lexer.afterKeyword source _ (rest ++ more')).tokens).1,
              (wordsRead (Lexer.afterKeyword source _ (rest ++ more')).tokens).2) = _
            rw [heq]
            rfl
          · have hbeq : (t.kind == .asm) = false := by simpa using hasm
            rw [hbeq] at hrest ⊢
            have heq := ih rest.length (by omega) hrest rfl
            change (_ :: (wordsRead (Lexer.inCode source _ (rest ++ more')).tokens).1,
              (wordsRead (Lexer.inCode source _ (rest ++ more')).tokens).2) = _
            rw [heq]
            rfl

end Exchange

/-! ### Sources with a comment put in -/

theorem Text.OneLine.char_ne_newline {t : Text} (h : t.OneLine) : ∀ g ∈ t.glyphs, g.char ≠ '\n' := by
  intro g hg hchar
  have hcount := count_newline (Glyph.spelled_glyphs (t := t))
  rw [ofGlyphs_glyphs, List.count_eq_zero.mpr h, eq_comm, List.countP_eq_zero] at hcount
  exact hcount g hg (by simpa using hchar)

theorem Text.fresh_of_newline {t : Text} (h : ∀ b ∈ t.head?, b = newline) : Glyph.Fresh t := by
  intro b hb
  rw [h b hb]
  decide

theorem Text.head_glyphs_of_newline {t : Text} (h : ∀ b ∈ t.head?, b = newline) :
    ∀ g ∈ t.glyphs.head?, g.char = '\n' := by
  cases t with
  | nil => simp [show Text.glyphs [] = [] from rfl]
  | cons b t =>
    obtain rfl := h b rfl
    have hread : Text.glyphs (newline :: t) = Glyph.of '\n' :: Text.glyphs t :=
      Text.glyphs_ofChar_append '\n' t
    rw [hread]
    intro g hg
    obtain rfl : Glyph.of '\n' = g := Option.some.inj hg
    rfl

/-- The glyphs of a comment, with the blank before it. -/
def commentGlyphs (text : Text) : List Glyph :=
  Glyph.of ' ' :: Glyph.of '/' :: Glyph.of '/' :: Glyph.of ' ' :: text.glyphs

theorem glyphs_commented (before text : Text) {after : Text} (hafter : Glyph.Fresh after) :
    (before ++ " // " ++ text ++ after).glyphs = before.glyphs ++ (commentGlyphs text ++ after.glyphs) := by
  have hmark : before ++ " // " ++ text ++ after =
      before ++ (Text.ofChars [' ', '/', '/', ' '] ++ (text ++ after)) := by
    rw [← List.append_assoc, ← List.append_assoc]
    rfl
  have hfresh : Glyph.Fresh (Text.ofChars [' ', '/', '/', ' '] ++ (text ++ after)) := by
    intro b hb
    obtain rfl : ' '.toUInt8 = b := Option.some.inj hb
    decide
  rw [hmark, Text.glyphs_append before hfresh, Text.glyphs_ofChars, Text.glyphs_append text hafter]
  rfl

theorem Lexical.Gap.commentGlyphs {gap : List Glyph} {text : Text} (h : Gap gap []) (htext : text.OneLine) :
    Gap (gap ++ commentGlyphs text) [] := by
  refine h.commented (by decide) rfl rfl fun g hg => ?_
  simp only [List.mem_cons] at hg
  rcases hg with rfl | rfl | hg
  · decide
  · decide
  · exact htext.char_ne_newline g hg

/-- A comment at the end of a line is skipped, if what stands before it leaves nothing open. -/
theorem wordsRead_commented {before text after : Text} (hbefore : (Lexer.ofText before).Settled)
    (htext : text.OneLine) (hafter : ∀ b ∈ after.head?, b = newline) :
    wordsRead (before ++ " // " ++ text ++ after).tokens = wordsRead (before ++ after).tokens := by
  have hfresh := Text.fresh_of_newline hafter
  have hmore := Text.head_glyphs_of_newline hafter
  have hblank : ∀ g ∈ after.glyphs.head?, isBlank g.char = true := by
    intro g hg
    rw [hmore g hg]
    decide
  have hblank' : ∀ g ∈ (commentGlyphs text ++ after.glyphs).head?, isBlank g.char = true := by
    intro g hg
    obtain rfl : Glyph.of ' ' = g := Option.some.inj hg
    decide
  have hgap : ∀ pos gap, Gap gap [] →
      wordsRead (Lexer.inCode before pos (gap ++ (commentGlyphs text ++ after.glyphs))).tokens =
        wordsRead (Lexer.inCode before pos (gap ++ after.glyphs)).tokens := by
    intro pos gap h
    rw [← List.append_assoc]
    exact wordsRead_behind_gap h (h.commentGlyphs htext) hmore
  -- What the tokens are does not depend on the text that the lexer keeps for its reports.
  have hmoved : ∀ source gs, Lexer.Moved (Lexer.inCode before .start gs) (Lexer.inCode source .start gs) :=
    fun _ _ => ⟨rfl, rfl, rfl⟩
  calc wordsRead (before ++ " // " ++ text ++ after).tokens
      = wordsRead (Lexer.inCode before .start
          (before.glyphs ++ (commentGlyphs text ++ after.glyphs))).tokens := by
        rw [← glyphs_commented before text hfresh]
        exact (hmoved _ _).wordsRead
    _ = wordsRead (Lexer.inCode before .start (before.glyphs ++ after.glyphs)).tokens :=
        wordsRead_exchange hblank hblank' hgap hbefore
    _ = wordsRead (before ++ after).tokens := by
        rw [← Text.glyphs_append before hfresh]
        exact (hmoved _ _).wordsRead.symm

end Pocket

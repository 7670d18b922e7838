import Pocket.Token.Lexer

/-!
# Lexical structure

A source is a sequence of tokens with gaps of blanks and comments between them. The relations here say
how its glyphs are divided, each piece with what follows it, so that a piece is as long as it can be.
The keyword `asm` stands together with the block behind it.
-/

namespace Pocket

namespace Lexical

/-! ### Gaps -/

/-- Whether a blank or a comment begins here. -/
def startsGap : List Glyph → Bool
  | ⟨'/', _⟩ :: ⟨'/', _⟩ :: _ => true
  | ⟨'/', _⟩ :: ⟨'*', _⟩ :: _ => true
  | g :: _ => isBlank g.char
  | [] => false

/-- Glyphs among which there is no end of a comment. -/
def NoClose (text : List Glyph) : Prop :=
  ¬['*', '/'] <:+: text.map Glyph.char

/-- All the blanks and comments in front of what follows them. A comment to the end of the line may be
the last thing in a source; a comment in delimiters has to be closed. -/
inductive Gap : List Glyph → List Glyph → Prop where
  | none {rest : List Glyph} (hrest : startsGap rest = false) : Gap [] rest
  | blank {g : Glyph} {gap rest : List Glyph} (hg : isBlank g.char = true) :
      Gap gap rest → Gap (g :: gap) rest
  | line {a b newline : Glyph} {text gap rest : List Glyph} (ha : a.char = '/') (hb : b.char = '/')
      (htext : ∀ g ∈ text, g.char ≠ '\n') (hnewline : newline.char = '\n') :
      Gap gap rest → Gap (a :: b :: (text ++ newline :: gap)) rest
  | lastLine {a b : Glyph} {text : List Glyph} (ha : a.char = '/') (hb : b.char = '/')
      (htext : ∀ g ∈ text, g.char ≠ '\n') : Gap (a :: b :: text) []
  | block {a b c d : Glyph} {text gap rest : List Glyph} (ha : a.char = '/') (hb : b.char = '*')
      (htext : NoClose text) (hc : c.char = '*') (hd : d.char = '/') :
      Gap gap rest → Gap (a :: b :: (text ++ c :: d :: gap)) rest

/-! ### Tokens -/

/-- What may stand between the quotes of a string: a quote or a newline only behind a backslash. -/
inductive Quoted : List Glyph → Prop where
  | nil : Quoted []
  | plain {g : Glyph} {inside : List Glyph}
      (hg : g.char ≠ '"' ∧ g.char ≠ '\n' ∧ g.char ≠ '\\') : Quoted inside → Quoted (g :: inside)
  | escape {a b : Glyph} {inside : List Glyph} (ha : a.char = '\\') :
      Quoted inside → Quoted (a :: b :: inside)

/-- A run of word characters that goes no further. -/
def IsRun (run rest : List Glyph) : Prop :=
  (∀ g ∈ run, Token.isWordChar g.char = true) ∧ ∀ g ∈ rest.head?, Token.isWordChar g.char = false

/-- The glyphs of a token in front of what follows, with its kind and its lexeme. -/
inductive Lexeme : List Glyph → List Glyph → Token.Kind → Text → Prop where
  | word {g : Glyph} {run rest : List Glyph} (hg : Token.startsWord g.char = true)
      (hrun : IsRun (g :: run) rest) :
      Lexeme (g :: run) rest (Token.wordKind (.ofGlyphs (g :: run))) (.ofGlyphs (g :: run))
  | integer {g : Glyph} {run rest : List Glyph} (hword : Token.startsWord g.char = false)
      (hg : isDigit g.char = true) (hrun : IsRun (g :: run) rest)
      (hshape : Token.isIntegerLiteral ((g :: run).map Glyph.char) = true) :
      Lexeme (g :: run) rest .integer (.ofGlyphs (g :: run))
  | string {a b : Glyph} {inside rest : List Glyph} (ha : a.char = '"') (hinside : Quoted inside)
      (hb : b.char = '"') : Lexeme (a :: inside ++ [b]) rest .string (.ofGlyphs inside)
  | single {g : Glyph} {rest : List Glyph} {kind : Token.Kind}
      (hg : Token.punctuation? g.char = some kind) : Lexeme [g] rest kind (.ofChar g.char)
  | double {a b : Glyph} {rest : List Glyph} {kind : Token.Kind}
      (ha : Token.doubled? a.char = some kind) (hb : b.char = a.char) :
      Lexeme [a, b] rest kind (.ofChars [a.char, a.char])

/-- A source from a position on and its tokens up to the end. The keyword `asm` comes with the block
behind it: the text from the opening brace to the first closing one is one token. -/
inductive Layout : Position → List Glyph → List Token → Prop where
  | stop {pos : Position} {gap : List Glyph} (hgap : Gap gap []) :
      Layout pos gap [⟨.eof, [], pos.after gap⟩]
  | token {pos : Position} {gap tok rest : List Glyph} {kind : Token.Kind} {lexeme : Text}
      {ts : List Token} (hgap : Gap gap (tok ++ rest)) (htok : Lexeme tok rest kind lexeme)
      (hkind : kind ≠ .asm) :
      Layout (pos.after (gap ++ tok)) rest ts →
      Layout pos (gap ++ (tok ++ rest)) (⟨kind, lexeme, pos.after gap⟩ :: ts)
  | asm {pos : Position} {gap key space body rest : List Glyph} {lexeme : Text} {ts : List Token}
      (hgap : Gap gap (key ++ (space ++ ⟨'\x7b', "\x7b"⟩ :: (body ++ ⟨'\x7d', "\x7d"⟩ :: rest))))
      (hkey : Lexeme key (space ++ ⟨'\x7b', "\x7b"⟩ :: (body ++ ⟨'\x7d', "\x7d"⟩ :: rest)) .asm lexeme)
      (hspace : Gap space (⟨'\x7b', "\x7b"⟩ :: (body ++ ⟨'\x7d', "\x7d"⟩ :: rest)))
      (hbody : ∀ g ∈ body, g.char ≠ '\x7d') :
      Layout (pos.after (gap ++ key ++ space ++ ⟨'\x7b', "\x7b"⟩ :: body ++ [⟨'\x7d', "\x7d"⟩])) rest ts →
      Layout pos (gap ++ (key ++ (space ++ ⟨'\x7b', "\x7b"⟩ :: (body ++ ⟨'\x7d', "\x7d"⟩ :: rest))))
        (⟨.asm, lexeme, pos.after gap⟩ ::
          ⟨.leftBrace, "\x7b", pos.after (gap ++ key ++ space)⟩ ::
          ⟨.rawText, .ofGlyphs body, pos.after (gap ++ key ++ space ++ [⟨'\x7b', "\x7b"⟩])⟩ ::
          ⟨.rightBrace, "\x7d", pos.after (gap ++ key ++ space ++ ⟨'\x7b', "\x7b"⟩ :: body)⟩ :: ts)

end Lexical

/-! ### Skipping gaps -/

namespace Cursor

open Lexical

variable {pos : Position} {g : Glyph} {gs text gap rest : List Glyph} {c : Cursor}

theorem isBlank_slash : isBlank '/' = false := by decide

theorem skipTrivia_none (h : startsGap rest = false) :
    skipTrivia .blanks pos rest = .ok ⟨pos, rest⟩ := by
  unfold startsGap at h
  unfold skipTrivia
  split at h <;> simp_all

theorem skipTrivia_blank (h : isBlank g.char = true) :
    skipTrivia .blanks pos (g :: gs) = skipTrivia .blanks (pos.next g.char) gs := by
  have hne : g.char ≠ '/' := by
    intro he
    rw [he, isBlank_slash] at h
    cases h
  rw [skipTrivia, if_pos h]
  all_goals
    rintro _ _ _ rfl
    exact absurd rfl hne

theorem skipTrivia_slashes {a b : Glyph} (ha : a.char = '/') (hb : b.char = '/') :
    skipTrivia .blanks pos (a :: b :: gs) = skipTrivia .line (pos.after [a, b]) gs := by
  obtain ⟨achar, abytes⟩ := a
  obtain ⟨bchar, bbytes⟩ := b
  subst ha hb
  rw [skipTrivia]
  rfl

theorem skipTrivia_slashStar {a b : Glyph} (ha : a.char = '/') (hb : b.char = '*') :
    skipTrivia .blanks pos (a :: b :: gs) = skipTrivia (.block pos) (pos.after [a, b]) gs := by
  obtain ⟨achar, abytes⟩ := a
  obtain ⟨bchar, bbytes⟩ := b
  subst ha hb
  rw [skipTrivia]
  rfl

theorem skipTrivia_line (htext : ∀ g ∈ text, g.char ≠ '\n') :
    skipTrivia .line pos (text ++ gs) = skipTrivia .line (pos.after text) gs := by
  induction text generalizing pos with
  | nil => rfl
  | cons g text ih =>
    obtain ⟨hg, htext⟩ := List.forall_mem_cons.mp htext
    rw [List.cons_append, skipTrivia, if_neg hg, ih htext]
    rfl

theorem skipTrivia_block {start : Position} {d e : Glyph} (htext : NoClose text) (hd : d.char = '*')
    (he : e.char = '/') :
    skipTrivia (.block start) pos (text ++ d :: e :: gs) =
      skipTrivia .blanks (pos.after (text ++ [d, e])) gs := by
  obtain ⟨dchar, dbytes⟩ := d
  obtain ⟨echar, ebytes⟩ := e
  subst hd he
  induction text generalizing pos with
  | nil => rfl
  | cons g text ih =>
    rw [NoClose, List.map_cons, List.infix_cons_iff, not_or] at htext
    rw [List.cons_append, skipTrivia, ih htext.2]
    · rfl
    · -- A close here would lie in the text, or its star is the last glyph before the real close.
      rintro _ _ more rfl hmore
      cases text with
      | nil => cases hmore
      | cons h text =>
        cases hmore
        exact htext.1 ⟨_, rfl⟩

theorem skipTrivia_complete (h : Gap gap rest) :
    skipTrivia .blanks pos (gap ++ rest) = .ok ⟨pos.after gap, rest⟩ := by
  induction h generalizing pos with
  | none hrest => exact skipTrivia_none hrest
  | blank hg _ ih =>
    rw [List.cons_append, skipTrivia_blank hg, ih]
    rfl
  | line ha hb htext hnewline _ ih =>
    simp only [List.cons_append, List.append_assoc]
    rw [skipTrivia_slashes ha hb, skipTrivia_line htext, skipTrivia, if_pos hnewline, ih]
    simp [Position.after]
  | lastLine ha hb htext =>
    simp only [List.cons_append]
    rw [skipTrivia_slashes ha hb, skipTrivia_line htext]
    rfl
  | block ha hb htext hc hd _ ih =>
    simp only [List.cons_append, List.append_assoc]
    rw [skipTrivia_slashStar ha hb, skipTrivia_block htext hc hd, ih]
    simp [Position.after]

/-- What has been skipped when the next token is reached, by what was being skipped. -/
def Skips : Skipping → List Glyph → List Glyph → Prop
  | .blanks, used, rest => Gap used rest
  | .line, used, rest => ∃ text, (∀ g ∈ text, g.char ≠ '\n') ∧
      ((used = text ∧ rest = []) ∨
        ∃ newline gap, used = text ++ newline :: gap ∧ newline.char = '\n' ∧ Gap gap rest)
  | .block _, used, rest => ∃ text d e gap,
      used = text ++ d :: e :: gap ∧ NoClose text ∧ d.char = '*' ∧ e.char = '/' ∧ Gap gap rest

theorem Skips.slashes {a b : Glyph} {used : List Glyph} (h : Skips .line used rest) (ha : a.char = '/')
    (hb : b.char = '/') : Gap (a :: b :: used) rest := by
  obtain ⟨text, htext, ⟨rfl, rfl⟩ | ⟨newline, gap, rfl, hnewline, hgap⟩⟩ := h
  · exact .lastLine ha hb htext
  · exact .line ha hb htext hnewline hgap

theorem Skips.slashStar {a b : Glyph} {start : Position} {used : List Glyph}
    (h : Skips (.block start) used rest) (ha : a.char = '/') (hb : b.char = '*') :
    Gap (a :: b :: used) rest := by
  obtain ⟨text, d, e, gap, rfl, htext, hd, he, hgap⟩ := h
  exact .block ha hb htext hd he hgap

theorem Skips.newline {used : List Glyph} (h : Gap used rest) (hg : g.char = '\n') :
    Skips .line (g :: used) rest :=
  ⟨[], by simp, .inr ⟨g, used, rfl, hg, h⟩⟩

theorem Skips.lineGlyph {used : List Glyph} (h : Skips .line used rest) (hg : g.char ≠ '\n') :
    Skips .line (g :: used) rest := by
  obtain ⟨text, htext, hend⟩ := h
  refine ⟨g :: text, List.forall_mem_cons.mpr ⟨hg, htext⟩, ?_⟩
  rcases hend with ⟨rfl, rfl⟩ | ⟨newline, gap, rfl, hnewline, hgap⟩
  · exact .inl ⟨rfl, rfl⟩
  · exact .inr ⟨newline, gap, rfl, hnewline, hgap⟩

theorem Skips.blockGlyph {start : Position} {used : List Glyph} (h : Skips (.block start) used rest)
    (hg : ∀ a b more, g = ⟨'*', a⟩ → used ++ rest = ⟨'/', b⟩ :: more → False) :
    Skips (.block start) (g :: used) rest := by
  obtain ⟨text, d, e, gap, rfl, htext, hd, he, hgap⟩ := h
  refine ⟨g :: text, d, e, gap, rfl, ?_, hd, he, hgap⟩
  rw [NoClose, List.map_cons, List.infix_cons_iff, not_or]
  refine ⟨?_, htext⟩
  rintro ⟨more, hmore⟩
  obtain ⟨gchar, gbytes⟩ := g
  cases text with
  | nil => simp at hmore
  | cons h text =>
    obtain ⟨hchar, hbytes⟩ := h
    simp only [List.map_cons, List.cons_append, List.nil_append, List.cons.injEq] at hmore
    obtain ⟨rfl, rfl, -⟩ := hmore
    exact hg gbytes hbytes _ rfl rfl

theorem skipTrivia_sound {mode : Skipping} (h : skipTrivia mode pos gs = .ok c) :
    ∃ used, gs = used ++ c.rest ∧ c.pos = pos.after used ∧ Skips mode used c.rest := by
  fun_induction skipTrivia mode pos gs with
  | case1 pos abytes bbytes rest ih =>
    obtain ⟨used, rfl, hpos, hskips⟩ := ih h
    exact ⟨_ :: _ :: used, rfl, hpos, hskips.slashes rfl rfl⟩
  | case2 pos abytes bbytes rest ih =>
    obtain ⟨used, rfl, hpos, hskips⟩ := ih h
    exact ⟨_ :: _ :: used, rfl, hpos, hskips.slashStar rfl rfl⟩
  | case3 pos g rest _ _ hblank ih =>
    obtain ⟨used, rfl, hpos, hskips⟩ := ih h
    exact ⟨g :: used, rfl, hpos, .blank hblank hskips⟩
  -- Neither a comment nor a blank begins here.
  | case4 pos g rest hslashes hslashStar hblank =>
    cases h
    refine ⟨[], rfl, rfl, .none ?_⟩
    unfold startsGap
    split <;> simp_all
  | case5 pos =>
    cases h
    exact ⟨[], rfl, rfl, .none rfl⟩
  | case6 pos g rest ih =>
    obtain ⟨used, rfl, hpos, hskips⟩ := ih h
    refine ⟨g :: used, rfl, hpos, ?_⟩
    split at hskips
    · next hg => exact .newline hskips hg
    · next hg => exact hskips.lineGlyph hg
  | case7 pos =>
    cases h
    -- A comment at the end of the source needs no newline.
    exact ⟨[], rfl, rfl, [], by simp, .inl ⟨rfl, rfl⟩⟩
  | case8 start pos abytes bbytes rest ih =>
    obtain ⟨used, rfl, hpos, hskips⟩ := ih h
    exact ⟨_ :: _ :: used, rfl, hpos, [], _, _, used, rfl, by simp [NoClose], rfl, rfl, hskips⟩
  | case9 start pos g rest hclose ih =>
    obtain ⟨used, rfl, hpos, hskips⟩ := ih h
    exact ⟨g :: used, rfl, hpos, hskips.blockGlyph hclose⟩
  | case10 => cases h

/-- The next token is reached exactly behind the gap in front of it. -/
theorem next_eq_ok_iff {c d : Cursor} : c.next = .ok d ↔
    ∃ gap, c.rest = gap ++ d.rest ∧ d.pos = c.pos.after gap ∧ Gap gap d.rest := by
  constructor
  · exact skipTrivia_sound
  · rintro ⟨gap, hrest, hpos, hgap⟩
    rw [next, hrest, skipTrivia_complete hgap, ← hpos]

end Cursor

end Pocket

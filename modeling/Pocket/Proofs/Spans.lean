import Mathlib.Data.List.Induction
import Pocket.Proofs.Decoding
import Pocket.Proofs.LexerExact

/-!
# Where tokens stand

Every token is cut out of the source between two byte offsets. In front of it there are only blanks and
comments, and its position is the line and the column of its first byte.
-/

namespace Pocket

open Lexical

/-- The line and the column of an offset: one more than the newlines before it, and one more than the
characters between the last of them and the offset. -/
def Text.placeAt (source : Text) (offset : Nat) : Position :=
  let before := source.take offset
  let line : Text := (before.reverse.takeWhile (· != newline)).reverse
  ⟨1 + before.count newline, 1 + line.width⟩

/-- Blanks and comments in front of what follows them. -/
inductive Trivia : Text → Text → Prop where
  | none (rest : Text) : Trivia [] rest
  | blank {c : Char} {gap rest : Text} (hc : isBlank c = true) :
      Trivia gap rest → Trivia (.ofChar c ++ gap) rest
  | line {text gap rest : Text} (htext : newline ∉ text)
      (hend : ∀ b ∈ (gap ++ rest).head?, b = newline) :
      Trivia gap rest → Trivia ("//" ++ (text ++ gap)) rest
  | block {text gap rest : Text} (htext : ¬("*/" : Text) <:+: text) :
      Trivia gap rest → Trivia ("/*" ++ (text ++ ("*/" ++ gap))) rest

/-- A token as it stands in a source: a string has quotes around its lexeme. -/
def Token.written (t : Token) : Text :=
  if t.kind = .string then "\"" ++ (t.lexeme ++ "\"") else t.lexeme

/-- What is read from a source behind an offset: tokens at offsets further on, and then the end of the
source or a fault at some offset. -/
inductive Located (source : Text) : Nat → List Token → Option (Position × LexCause) → Prop where
  | fault {stop offset : Nat} {pos : Position} (cause : LexCause) (hoffset : stop ≤ offset)
      (hlength : offset ≤ source.length) (hpos : pos = source.placeAt offset) :
      Located source stop [] (some (pos, cause))
  | stop {stop : Nat} {pos : Position} (hstop : stop ≤ source.length)
      (hgap : Trivia (source.drop stop) []) (hpos : pos = source.placeAt source.length) :
      Located source stop [⟨.eof, [], pos⟩] none
  | token {stop start stop' : Nat} {t : Token} {ts : List Token} {fault : Option (Position × LexCause)}
      (hstart : stop ≤ start) (hstop : start ≤ stop') (hlength : stop' ≤ source.length)
      (hgap : Trivia (source.extract stop start) (source.drop start))
      (hwritten : source.extract start stop' = t.written) (hpos : t.pos = source.placeAt start)
      (hkind : t.kind ≠ .eof) :
      Located source stop' ts fault → Located source stop (t :: ts) fault

/-! ### Bytes and glyphs -/

section Bytes

variable {g : Glyph} {gs as bs cs gap rest : List Glyph} {source : Text} {c : Char}

theorem count_newline (hspelled : ∀ g ∈ gs, g.Spelled) :
    (Text.ofGlyphs gs).count newline = gs.countP (·.char == '\n') := by
  induction gs with
  | nil => rfl
  | cons g gs ih =>
    obtain ⟨hg, hgs⟩ := List.forall_mem_cons.mp hspelled
    rw [Text.ofGlyphs_cons, List.count_append, ih hgs, List.countP_cons, Nat.add_comm]
    congr 1
    by_cases hchar : g.char = '\n'
    · rw [hg.bytes_eq hchar (by decide), hchar]
      rfl
    · have hnone : newline ∉ g.bytes := hg.not_mem_bytes (by decide) hchar
      simp [List.count_eq_zero.mpr hnone, hchar]

/-- The glyphs behind the last newline. -/
def lastLine (gs : List Glyph) : List Glyph :=
  (gs.reverse.takeWhile (·.char != '\n')).reverse

theorem lastLine_suffix (gs : List Glyph) : lastLine gs <:+ gs := by
  have h : gs.reverse.takeWhile (·.char != '\n') <+: gs.reverse := List.takeWhile_prefix _
  simpa [lastLine] using List.reverse_suffix.mpr h

theorem lastLine_append_newline (hg : g.char = '\n') : lastLine (gs ++ [g]) = [] := by
  simp [lastLine, hg]

theorem lastLine_append (hg : g.char ≠ '\n') : lastLine (gs ++ [g]) = lastLine gs ++ [g] := by
  simp [lastLine, hg]

theorem takeWhile_newline (hspelled : ∀ g ∈ gs, g.Spelled) :
    ((Text.ofGlyphs gs).reverse.takeWhile (· != newline)).reverse = Text.ofGlyphs (lastLine gs) := by
  induction gs using List.reverseRecOn with
  | nil => rfl
  | append_singleton gs g ih =>
    have hg : g.Spelled := hspelled g (by simp)
    have ih := ih fun g hg => hspelled g (by simp [hg])
    rw [Text.ofGlyphs_append, Text.ofGlyphs_cons]
    by_cases hchar : g.char = '\n'
    · rw [hg.bytes_eq hchar (by decide), lastLine_append_newline hchar, List.reverse_append]
      rfl
    · have hnone : ∀ b ∈ g.bytes.reverse, (b != newline) = true := by
        intro b hb
        rw [bne_iff_ne]
        rintro rfl
        exact hg.not_mem_bytes (by decide) hchar (List.mem_reverse.mp hb)
      rw [lastLine_append hchar, Text.ofGlyphs_append, Text.ofGlyphs_cons, ← ih, List.reverse_append]
      simp [Text.ofGlyphs, List.takeWhile_append_of_pos hnone]

theorem start_after (gs : List Glyph) :
    Position.start.after gs = ⟨1 + gs.countP (·.char == '\n'), 1 + (lastLine gs).length⟩ := by
  induction gs using List.reverseRecOn with
  | nil => rfl
  | append_singleton gs g ih =>
    rw [Position.after_append, ih, List.countP_append]
    simp only [Position.after, List.foldl_cons, List.foldl_nil, Position.next]
    by_cases hchar : g.char = '\n'
    · rw [if_pos hchar, lastLine_append_newline hchar]
      simp [hchar, Int.add_assoc]
    · rw [if_neg hchar, lastLine_append hchar]
      simp [hchar, Int.add_assoc]

/-! ### Offsets between glyphs -/

theorem text_of_glyphs (h : source.glyphs = as ++ bs) :
    source = Text.ofGlyphs as ++ Text.ofGlyphs bs := by
  rw [← Text.ofGlyphs_append, ← h, Text.ofGlyphs_glyphs]

theorem offset_le (h : source.glyphs = as ++ bs) : (Text.ofGlyphs as).length ≤ source.length := by
  have hlength := congrArg List.length (text_of_glyphs h)
  rw [List.length_append] at hlength
  omega

theorem drop_offset (h : source.glyphs = as ++ bs) :
    source.drop (Text.ofGlyphs as).length = Text.ofGlyphs bs := by
  rw [text_of_glyphs h, List.drop_left]

theorem extract_offsets (h : source.glyphs = as ++ (bs ++ cs)) :
    source.extract (Text.ofGlyphs as).length (Text.ofGlyphs (as ++ bs)).length = Text.ofGlyphs bs := by
  rw [List.extract_eq_take_drop, drop_offset h, Text.ofGlyphs_append, Text.ofGlyphs_append,
    List.length_append, Nat.add_sub_cancel_left, List.take_left]

/-- The place of an offset between two glyphs is the position that counting the glyphs gives. -/
theorem placeAt_offset (h : source.glyphs = as ++ bs) :
    source.placeAt (Text.ofGlyphs as).length = Position.start.after as := by
  obtain ⟨hspelled, -⟩ := List.forall_mem_append.mp (spelled_of_glyphs h)
  obtain ⟨before, hbefore⟩ := lastLine_suffix as
  have hline : (Text.ofGlyphs (lastLine as)).glyphs = lastLine as := by
    rw [← hbefore, List.append_assoc] at h
    exact Text.glyphs_middle h
  have htake : source.take (Text.ofGlyphs as).length = Text.ofGlyphs as := by
    rw [text_of_glyphs h, List.take_left]
  rw [start_after, Text.placeAt, htake, takeWhile_newline hspelled, count_newline hspelled, Text.width,
    hline]

/-! ### Gaps and lexemes -/

/-- The end of a comment in some bytes is one among the glyphs. -/
theorem noClose_bytes (hspelled : ∀ g ∈ gs, g.Spelled) (h : NoClose gs) :
    ¬("*/" : Text) <:+: Text.ofGlyphs gs := by
  induction gs with
  | nil => decide
  | cons g gs ih =>
    obtain ⟨hg, hgs⟩ := List.forall_mem_cons.mp hspelled
    rw [NoClose, List.map_cons, List.infix_cons_iff, not_or] at h
    rintro ⟨before, after, heq⟩
    rw [Text.ofGlyphs_cons, List.append_assoc, List.append_eq_append_iff] at heq
    rcases heq with ⟨more, hbytes, hmore⟩ | ⟨more, -, hmore⟩
    · cases more with
      | nil => exact ih hgs h.2 ⟨[], after, hmore⟩
      | cons b more =>
        -- The star lies in the first glyph, which then is nothing else.
        obtain ⟨rfl, hslash⟩ := List.cons.inj hmore
        have hmem : '*'.toUInt8 ∈ g.bytes := hbytes ▸ List.mem_append_right _ List.mem_cons_self
        obtain ⟨hstar, hspelling⟩ := hg.of_mem (by decide) hmem
        rw [hspelling, show Text.ofChar '*' = [] ++ '*'.toUInt8 :: [] from rfl] at hbytes
        obtain ⟨-, hnone⟩ := List.append_inj' hbytes (by
          have := congrArg List.length hbytes
          simp only [List.length_append, List.length_cons, List.length_nil] at this ⊢
          omega)
        obtain rfl : [] = more := (List.cons.inj hnone).2
        obtain ⟨chars, hchars⟩ := head_of_bytes hgs (c := '/') (by decide) hslash.symm
        refine h.1 ⟨chars, ?_⟩
        rw [hstar, hchars]
        rfl
    · exact ih hgs h.2 ⟨more, after, by rw [hmore, List.append_assoc]⟩

theorem isBlank_ne_replacement (h : isBlank c = true) : c ≠ Glyph.replacement := by
  rintro rfl
  exact absurd h (by decide)

theorem Lexical.Gap.trivia (h : Gap gap rest) (hspelled : ∀ g ∈ gap, g.Spelled) :
    Trivia (Text.ofGlyphs gap) (Text.ofGlyphs rest) := by
  induction h with
  | none hrest => exact .none _
  | @blank g gap rest hg _ ih =>
    obtain ⟨hspelled, hgap⟩ := List.forall_mem_cons.mp hspelled
    rw [Text.ofGlyphs_cons, hspelled.bytes_eq rfl (isBlank_ne_replacement hg)]
    exact .blank hg (ih hgap)
  -- The newline is not part of the comment but a blank behind it.
  | @line a b newline' text gap rest ha hb htext hnewline _ ih =>
    have hbytes : Text.ofGlyphs (a :: b :: (text ++ newline' :: gap)) =
        "//" ++ (Text.ofGlyphs text ++ (Text.ofChar '\n' ++ Text.ofGlyphs gap)) := by
      rw [Text.ofGlyphs_cons, Text.ofGlyphs_cons, Text.ofGlyphs_append, Text.ofGlyphs_cons,
        (hspelled a (by simp)).bytes_of_ascii ha (by decide),
        (hspelled b (by simp)).bytes_of_ascii hb (by decide),
        (hspelled newline' (by simp)).bytes_of_ascii hnewline (by decide)]
      rfl
    rw [hbytes]
    refine .line ?_ ?_ (.blank (by decide) (ih fun g hg => hspelled g (by simp [hg])))
    · exact not_mem_ofGlyphs (fun g hg => hspelled g (by simp [hg])) (by decide) htext
    · intro x hx
      exact (Option.some.inj hx).symm
  -- At the end of a source a comment needs no newline.
  | @lastLine a b text ha hb htext =>
    have hbytes : Text.ofGlyphs (a :: b :: text) = "//" ++ (Text.ofGlyphs text ++ ([] : Text)) := by
      rw [Text.ofGlyphs_cons, Text.ofGlyphs_cons,
        (hspelled a (by simp)).bytes_of_ascii ha (by decide),
        (hspelled b (by simp)).bytes_of_ascii hb (by decide), List.append_nil]
      rfl
    rw [hbytes]
    refine .line ?_ (by rintro x ⟨⟩) (.none _)
    exact not_mem_ofGlyphs (fun g hg => hspelled g (by simp [hg])) (by decide) htext
  | @block a b c d text gap rest ha hb htext hc hd _ ih =>
    have hbytes : Text.ofGlyphs (a :: b :: (text ++ c :: d :: gap)) =
        "/*" ++ (Text.ofGlyphs text ++ ("*/" ++ Text.ofGlyphs gap)) := by
      rw [Text.ofGlyphs_cons, Text.ofGlyphs_cons, Text.ofGlyphs_append, Text.ofGlyphs_cons,
        Text.ofGlyphs_cons, (hspelled a (by simp)).bytes_of_ascii ha (by decide),
        (hspelled b (by simp)).bytes_of_ascii hb (by decide),
        (hspelled c (by simp)).bytes_of_ascii hc (by decide),
        (hspelled d (by simp)).bytes_of_ascii hd (by decide)]
      rfl
    rw [hbytes]
    exact .block (noClose_bytes (fun g hg => hspelled g (by simp [hg])) htext)
      (ih fun g hg => hspelled g (by simp [hg]))

theorem wordKind_ne_string (word : Text) : Token.wordKind word ≠ .string := by
  unfold Token.wordKind
  repeat' split
  all_goals decide

theorem punctuation?_ne_string (c : Char) : Token.punctuation? c ≠ some .string := by
  unfold Token.punctuation?
  split <;> decide

theorem doubled?_ne_string (c : Char) : Token.doubled? c ≠ some .string := by
  unfold Token.doubled?
  split <;> decide

theorem punctuation?_ne_replacement {kind : Token.Kind} (h : Token.punctuation? c = some kind) :
    c ≠ Glyph.replacement := by
  rintro rfl
  cases h

theorem doubled?_ne_replacement {kind : Token.Kind} (h : Token.doubled? c = some kind) :
    c ≠ Glyph.replacement := by
  rintro rfl
  cases h

theorem Token.written_of_ne {kind : Token.Kind} {lexeme : Text} {pos : Position} (h : kind ≠ .string) :
    Token.written ⟨kind, lexeme, pos⟩ = lexeme :=
  if_neg h

/-- The glyphs of a token are the token as it is written. -/
theorem Lexical.Lexeme.written {tok : List Glyph} {t : Token} (h : Lexeme tok rest t.kind t.lexeme)
    (hspelled : ∀ g ∈ tok, g.Spelled) : Text.ofGlyphs tok = t.written := by
  obtain ⟨kind, lexeme, pos⟩ := t
  change Lexeme tok rest kind lexeme at h
  cases h with
  | word => exact (Token.written_of_ne (wordKind_ne_string _)).symm
  | integer => rfl
  | @string a b inside _ ha hinside hb =>
    rw [List.cons_append, Text.ofGlyphs_cons, Text.ofGlyphs_append, Text.ofGlyphs_cons,
      (hspelled a (by simp)).bytes_of_ascii ha (by decide),
      (hspelled b (by simp)).bytes_of_ascii hb (by decide)]
    rfl
  | @single g _ _ hg =>
    have hkind : kind ≠ .string := by
      rintro rfl
      exact punctuation?_ne_string _ hg
    rw [Token.written_of_ne hkind, Text.ofGlyphs_cons,
      (hspelled g (by simp)).bytes_eq rfl (punctuation?_ne_replacement hg)]
    exact List.append_nil _
  | @double a b _ _ ha hb =>
    have hkind : kind ≠ .string := by
      rintro rfl
      exact doubled?_ne_string _ ha
    have hascii := doubled?_ne_replacement ha
    rw [Token.written_of_ne hkind, Text.ofGlyphs_cons, Text.ofGlyphs_cons,
      (hspelled a (by simp)).bytes_eq rfl hascii, (hspelled b (by simp)).bytes_eq hb hascii]
    rfl

end Bytes

/-! ### Faults -/

section Faults

variable {pos place : Position} {gs : List Glyph} {e : Position × LexCause} {l l' : Lexer} {c : Cursor}

/-- A position that is reached from another one by some of the glyphs behind it. -/
def Position.Within (pos : Position) (gs : List Glyph) (place : Position) : Prop :=
  ∃ used rest, gs = used ++ rest ∧ place = pos.after used

/-- A position that is reached in this way, and no blank stands there. -/
def Position.Begins (pos : Position) (gs : List Glyph) (place : Position) : Prop :=
  ∃ used rest, gs = used ++ rest ∧ place = pos.after used ∧ ∀ g ∈ rest.head?, isBlank g.char = false

theorem Position.Begins.within (h : pos.Begins gs place) : pos.Within gs place := by
  obtain ⟨used, rest, hgs, hplace, -⟩ := h
  exact ⟨used, rest, hgs, hplace⟩

theorem Position.Begins.behind (used : List Glyph) (h : (pos.after used).Begins gs place) :
    pos.Begins (used ++ gs) place := by
  obtain ⟨more, rest, rfl, rfl, hrest⟩ := h
  exact ⟨used ++ more, rest, by simp, (Position.after_append pos used more).symm, hrest⟩

theorem Lexical.Gap.rest_starts {gap rest : List Glyph} (h : Gap gap rest) : startsGap rest = false := by
  induction h with
  | none hrest => exact hrest
  | blank _ _ ih => exact ih
  | line _ _ _ _ _ ih => exact ih
  | lastLine => rfl
  | block _ _ _ _ _ _ ih => exact ih

theorem Lexical.Gap.not_blank {gap rest : List Glyph} (h : Gap gap rest) :
    ∀ g ∈ rest.head?, isBlank g.char = false := by
  have hrest := h.rest_starts
  unfold startsGap at hrest
  split at hrest <;> simp_all

/-- Behind a gap there is no blank. -/
theorem Lexical.Gap.begins {gap rest : List Glyph} (h : Gap gap rest) (pos : Position) :
    pos.Begins (gap ++ rest) (pos.after gap) :=
  ⟨gap, rest, rfl, rfl, h.not_blank⟩

/-- A comment that is not closed begins where it is being skipped, or further on. -/
theorem skipTrivia_error {mode : Cursor.Skipping} (h : Cursor.skipTrivia mode pos gs = .error place) :
    mode = .block place ∨ pos.Begins gs place := by
  fun_induction Cursor.skipTrivia mode pos gs with
  | case1 pos abytes bbytes rest ih =>
    rcases ih h with hmode | hbegins
    · cases hmode
    · exact .inr (.behind [⟨'/', abytes⟩, ⟨'/', bbytes⟩] hbegins)
  | case2 pos abytes bbytes rest ih =>
    rcases ih h with hmode | hbegins
    -- The comment that is not closed is the one that has just begun.
    · cases hmode
      refine .inr ⟨[], _, rfl, rfl, ?_⟩
      rintro g ⟨⟩
      exact Cursor.isBlank_slash
    · exact .inr (.behind [⟨'/', abytes⟩, ⟨'*', bbytes⟩] hbegins)
  | case3 pos g rest _ _ _ ih =>
    rcases ih h with hmode | hbegins
    · cases hmode
    · exact .inr (.behind [g] hbegins)
  | case4 => cases h
  | case5 => cases h
  | case6 pos g rest ih =>
    rcases ih h with hmode | hbegins
    · split at hmode <;> cases hmode
    · exact .inr (.behind [g] hbegins)
  | case7 => cases h
  | case8 start pos abytes bbytes rest ih =>
    rcases ih h with hmode | hbegins
    · cases hmode
    · exact .inr (.behind [⟨'*', abytes⟩, ⟨'/', bbytes⟩] hbegins)
  | case9 start pos g rest _ ih =>
    rcases ih h with hmode | hbegins
    · exact .inl hmode
    · exact .inr (.behind [g] hbegins)
  -- The source ends while a comment is being skipped.
  | case10 start pos =>
    cases h
    exact .inl rfl

theorem next_error (h : c.next = .error place) : c.pos.Begins c.rest place := by
  rcases skipTrivia_error h with hmode | hbegins
  · cases hmode
  · exact hbegins

theorem next_begins {d : Cursor} (h : c.next = .ok d) : c.pos.Begins c.rest d.pos := by
  obtain ⟨gap, hrest, hpos, hgap⟩ := Cursor.next_eq_ok_iff.mp h
  rw [hrest, hpos]
  exact hgap.begins c.pos

/-- A token that cannot be read is reported where it begins. -/
theorem tokenAt_error {first : Char} (h : l.tokenAt c first = (.error e, l')) : e.1 = c.pos := by
  unfold Lexer.tokenAt at h
  split at h
  · cases h
  · split at h
    · rw [Lexer.integer] at h
      split at h <;> cases h
      rfl
    · split at h
      · rw [Lexer.stringLiteral] at h
        split at h <;> cases h
        rfl
      · rw [Lexer.punctuation] at h
        repeat' split at h
        all_goals cases h
        all_goals rfl

theorem codeToken_error (h : l.codeToken = (.error e, l')) : l.cursor.pos.Begins l.cursor.rest e.1 := by
  cases hnext : l.cursor.next with
  | error start =>
    rw [Lexer.codeToken, hnext] at h
    cases h
    exact next_error hnext
  | ok d =>
    cases hd : d.rest with
    | nil =>
      simp only [Lexer.codeToken, hnext, Cursor.char?, hd] at h
      cases h
    | cons g more =>
      rw [codeToken_eq hnext hd] at h
      rw [tokenAt_error h]
      exact next_begins hnext

theorem asmBlock_error (h : l.asmBlock = (.error e, l')) : l.cursor.pos.Begins l.cursor.rest e.1 := by
  cases hnext : l.cursor.next with
  | error start =>
    rw [Lexer.asmBlock, hnext] at h
    cases h
    exact next_error hnext
  | ok d =>
    simp only [Lexer.asmBlock, hnext] at h
    repeat' split at h
    all_goals cases h
    all_goals exact next_begins hnext

end Faults

/-! ### All tokens -/

section Located

variable {source : Text} {past gap gs : List Glyph} {t : Token} {ts : List Token}
  {fault : Option (Position × LexCause)} {l l' : Lexer} {e : Position × LexCause}

theorem located_fault (h : source.glyphs = past ++ gs)
    (hwithin : (Position.start.after past).Within gs e.1) :
    Located source (Text.ofGlyphs past).length [] (some e) := by
  obtain ⟨used, rest, rfl, hpos⟩ := hwithin
  rw [← List.append_assoc] at h
  refine .fault e.2 ?_ (offset_le h) ?_
  · rw [Text.ofGlyphs_append, List.length_append]
    exact Nat.le_add_right _ _
  · rw [placeAt_offset h, hpos, Position.after_append]

theorem located_stop (h : source.glyphs = past ++ gap) (hgap : Gap gap []) :
    Located source (Text.ofGlyphs past).length
      [⟨.eof, [], (Position.start.after past).after gap⟩] none := by
  obtain ⟨-, hspelled⟩ := List.forall_mem_append.mp (spelled_of_glyphs h)
  refine .stop (offset_le h) ?_ ?_
  · rw [drop_offset h]
    exact hgap.trivia hspelled
  · have hall : source.glyphs = (past ++ gap) ++ [] := by rw [h, List.append_nil]
    have hsource : source = Text.ofGlyphs (past ++ gap) := by rw [← h, Text.ofGlyphs_glyphs]
    rw [← Position.after_append, ← placeAt_offset hall, ← hsource]

theorem located_token (gap tok rest : List Glyph) (h : source.glyphs = past ++ (gap ++ (tok ++ rest)))
    (hgap : Trivia (Text.ofGlyphs gap) (Text.ofGlyphs (tok ++ rest)))
    (hwritten : Text.ofGlyphs tok = t.written)
    (hpos : t.pos = (Position.start.after past).after gap) (hkind : t.kind ≠ .eof)
    (hmore : Located source (Text.ofGlyphs (past ++ gap ++ tok)).length ts fault) :
    Located source (Text.ofGlyphs past).length (t :: ts) fault := by
  have hbefore : source.glyphs = past ++ gap ++ (tok ++ rest) := by simp [h]
  have hbehind : source.glyphs = past ++ gap ++ tok ++ rest := by simp [h]
  have hstart : (Text.ofGlyphs past).length ≤ (Text.ofGlyphs (past ++ gap)).length := by
    rw [Text.ofGlyphs_append, List.length_append]
    exact Nat.le_add_right _ _
  have hstop : (Text.ofGlyphs (past ++ gap)).length ≤ (Text.ofGlyphs (past ++ gap ++ tok)).length := by
    rw [Text.ofGlyphs_append (past ++ gap), List.length_append]
    exact Nat.le_add_right _ _
  refine .token hstart hstop (offset_le hbehind) ?_ ?_ ?_ hkind hmore
  · rw [extract_offsets h, drop_offset hbefore]
    exact hgap
  · rw [extract_offsets hbefore, hwritten]
  · rw [placeAt_offset hbefore, hpos, Position.after_append]

/-- Behind the keyword `asm` the tokens of its block stand where the block does. -/
theorem located_afterKeyword (h : source.glyphs = past ++ gs)
    (hcode : ∀ used rest, gs = used ++ rest → used ≠ [] →
      Located source (Text.ofGlyphs (past ++ used)).length
        (Lexer.inCode source (Position.start.after (past ++ used)) rest).tokens.1
        (Lexer.inCode source (Position.start.after (past ++ used)) rest).tokens.2) :
    Located source (Text.ofGlyphs past).length
      (Lexer.afterKeyword source (Position.start.after past) gs).tokens.1
      (Lexer.afterKeyword source (Position.start.after past) gs).tokens.2 := by
  obtain ⟨-, hspelled⟩ := List.forall_mem_append.mp (spelled_of_glyphs h)
  cases hnext : (Lexer.afterKeyword source (Position.start.after past) gs).next with
  | mk outcome l' =>
    cases outcome with
    | error e =>
      rw [tokens_error hnext]
      exact located_fault h (asmBlock_error hnext).within
    | ok t =>
      obtain ⟨space, lbrace, body, rbrace, rest, hgs, hspace, hl, hbody, hr⟩ := asmBlock_sound hnext
      change gs = _ at hgs
      subst hgs
      -- The tokens of the block are located one by one, and code goes on behind its last brace.
      have hcode := hcode (space ++ lbrace :: body ++ [rbrace]) rest (by simp) (by simp)
      rw [tokens_afterKeyword hspace hl hbody hr]
      refine located_token space [lbrace] _ h
        (hspace.trivia fun g hg => hspelled g (by simp [hg])) ?_ rfl (by simp) ?_
      · rw [Text.ofGlyphs_cons, (hspelled lbrace (by simp)).bytes_of_ascii hl (by decide)]
        rfl
      refine located_token [] body (rbrace :: rest) (by simp [h])
        (.none _) rfl ?_ (by simp) ?_
      · simp only [Position.after_append]
        rfl
      refine located_token [] [rbrace] rest (by simp [h])
        (.none _) ?_ ?_ (by simp) ?_
      · rw [Text.ofGlyphs_cons, (hspelled rbrace (by simp)).bytes_of_ascii hr (by decide)]
        rfl
      · simp only [Position.after_append]
        rfl
      · have hused : past ++ space ++ [lbrace] ++ [] ++ body ++ [] ++ [rbrace] =
            past ++ (space ++ lbrace :: body ++ [rbrace]) := by simp
        rw [hused, ← Position.after_append]
        exact hcode

theorem located_inCode (source : Text) (n : Nat) : ∀ past gs, gs.length ≤ n →
    source.glyphs = past ++ gs →
    Located source (Text.ofGlyphs past).length
      (Lexer.inCode source (Position.start.after past) gs).tokens.1
      (Lexer.inCode source (Position.start.after past) gs).tokens.2 := by
  induction n using Nat.strongRecOn with
  | ind n ih =>
    intro past gs hn h
    obtain ⟨-, hspelled⟩ := List.forall_mem_append.mp (spelled_of_glyphs h)
    cases hnext : (Lexer.inCode source (Position.start.after past) gs).next with
    | mk outcome l' =>
      cases outcome with
      | error e =>
        rw [tokens_error hnext]
        exact located_fault h (codeToken_error hnext).within
      | ok t =>
        rcases next_inCode_sound hnext with ⟨hgap, rfl⟩ | ⟨gap, tok, rest, rfl, hgap, htok, htpos, rfl⟩
        · rw [tokens_stop hnext rfl]
          exact located_stop h hgap
        · have hlength := List.length_pos_iff.mpr htok.ne_nil
          simp only [List.length_append] at hn
          have hbehind : source.glyphs = past ++ gap ++ tok ++ rest := by simp [h]
          rw [tokens_more hnext htok.kind_class.1]
          refine located_token gap tok rest h (hgap.trivia fun g hg => hspelled g (by simp [hg]))
            (htok.written fun g hg => hspelled g (by simp [hg])) htpos htok.kind_class.1 ?_
          rw [← Position.after_append, ← List.append_assoc]
          by_cases hasm : t.kind = .asm
          · rw [hasm]
            refine located_afterKeyword hbehind fun used more hrest hused => ?_
            -- The block is not empty, so less of the source is left.
            have hused := List.length_pos_iff.mpr hused
            have hrest' := congrArg List.length hrest
            rw [List.length_append] at hrest'
            exact ih more.length (by omega) _ more (Nat.le_refl _) (by simp [hbehind, hrest])
          · have hbeq : (t.kind == .asm) = false := by simpa using hasm
            rw [hbeq]
            exact ih rest.length (by omega) _ rest (Nat.le_refl _) hbehind

/-- Every byte string is read as tokens that stand in it one after the other, with nothing but blanks and
comments between them, up to its end or to a fault; each position is the place of an offset. -/
theorem tokens_located (source : Text) : Located source 0 source.tokens.1 source.tokens.2 :=
  located_inCode source source.glyphs.length [] source.glyphs (Nat.le_refl _) rfl

end Located

end Pocket

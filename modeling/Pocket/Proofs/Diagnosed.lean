import Mathlib
import Pocket.Diagnostic
import Pocket.Proofs.Blame
import Pocket.Proofs.LayoutFree
import Pocket.Proofs.Pieces

/-!
# Faults shown in their source

When a source is refused, the fault has a line and a column in it. The diagnostic has three lines: the
message, the source line behind its gutter, and a caret under the character at the reported place. This
needs three things: no wording reaches over the end of a line, lines and columns are counted as the lexer
counts them, and gutter, tabs and carriage returns leave every character in its column.
-/

namespace Pocket

/-! ### Texts on one line -/

def Text.OneLine (t : Text) : Prop := newline ∉ t

instance (t : Text) : Decidable t.OneLine := inferInstanceAs (Decidable (newline ∉ t))

theorem Text.OneLine.append {s t : Text} (hs : s.OneLine) (ht : t.OneLine) : (s ++ t).OneLine := by
  intro hmem
  rcases List.mem_append.mp hmem with hmem | hmem
  · exact hs hmem
  · exact ht hmem

theorem Text.OneLine.flatMap {α : Type} {xs : List α} {f : α → Text} (h : ∀ x ∈ xs, (f x).OneLine) :
    Text.OneLine (xs.flatMap f) := by
  intro hmem
  obtain ⟨x, hx, hmem⟩ := List.mem_flatMap.mp hmem
  exact h x hx hmem

theorem oneLine_ofChar {c : Char} (hc : c ≠ '\n') : (Text.ofChar c).OneLine :=
  newline_not_mem_ofChar hc

/-- Bytes that are printable ASCII characters. -/
def Text.Printed (t : Text) : Prop :=
  ∀ b ∈ t, 32 ≤ b.toNat ∧ b.toNat < 128

instance (t : Text) : Decidable t.Printed :=
  inferInstanceAs (Decidable (∀ b ∈ t, 32 ≤ b.toNat ∧ b.toNat < 128))

section Printed

variable {s t : Text}

theorem Text.Printed.append (hs : s.Printed) (ht : t.Printed) : (s ++ t).Printed := by
  intro b hb
  rcases List.mem_append.mp hb with hb | hb
  · exact hs b hb
  · exact ht b hb

theorem Text.Printed.oneLine (h : t.Printed) : t.OneLine := by
  intro hmem
  exact absurd (h _ hmem).1 (by decide)

theorem printed_replicate {b : UInt8} (hb : 32 ≤ b.toNat ∧ b.toNat < 128) (n : Nat) :
    Text.Printed (List.replicate n b) := by
  intro c hc
  rwa [(List.mem_replicate.mp hc).2]

theorem printed_spaces (n : Nat) : (Text.spaces n).Printed :=
  printed_replicate (by decide) n

theorem digitChar_printed (d : Nat) :
    32 ≤ (Nat.digitChar d).toUInt8.toNat ∧ (Nat.digitChar d).toUInt8.toNat < 128 := by
  rcases Nat.lt_or_ge d 16 with hd | hd
  · revert d
    decide
  · have hstar : Nat.digitChar d = '*' := by
      unfold Nat.digitChar
      repeat rw [if_neg (by omega)]
    rw [hstar]
    decide

theorem mem_toDigitsCore {base fuel n : Nat} {cs : List Char} {c : Char}
    (h : c ∈ Nat.toDigitsCore base fuel n cs) : c ∈ cs ∨ ∃ d, c = Nat.digitChar d := by
  induction fuel generalizing n cs with
  | zero => exact .inl h
  | succ fuel ih =>
    rw [Nat.toDigitsCore] at h
    have hcons : c ∈ Nat.digitChar (n % base) :: cs → c ∈ cs ∨ ∃ d, c = Nat.digitChar d := by
      intro hc
      rcases List.mem_cons.mp hc with rfl | hc
      · exact .inr ⟨_, rfl⟩
      · exact .inl hc
    split at h
    · exact hcons h
    · rcases ih h with hc | hc
      · exact hcons hc
      · exact .inr hc

theorem printed_toDigits (base n : Nat) : Text.Printed ((Nat.toDigits base n).map Char.toUInt8) := by
  intro b hb
  obtain ⟨c, hc, rfl⟩ := List.mem_map.mp hb
  rcases mem_toDigitsCore hc with hc | ⟨d, rfl⟩
  · cases hc
  · exact digitChar_printed d

theorem printed_ofInt (n : Int) : (Text.ofInt n).Printed := by
  cases n with
  | ofNat n => exact printed_toDigits 10 n
  | negSucc n => exact List.forall_mem_cons.mpr ⟨by decide, printed_toDigits 10 (n + 1)⟩

theorem printed_ofHex (width n : Nat) : (Text.ofHex width n).Printed :=
  (printed_replicate (by decide) _).append (printed_toDigits 16 n)

theorem printed_render (pos : Position) : pos.render.Printed := by
  have hcolon : Text.Printed ":" := by decide +kernel
  exact ((printed_ofInt pos.line).append hcolon).append (printed_ofInt pos.col)

end Printed

/-! ### Wordings -/

section Wordings

theorem oneLine_escapeChar {q : Char} (hq : q ≠ '\n') (c : Char) : (Text.escapeChar q c).OneLine := by
  unfold Text.escapeChar
  split
  · next h =>
    have hc : c ≠ '\n' := by
      rintro rfl
      simp [Ne.symm hq] at h
    exact .append (by decide) (.append (oneLine_ofChar hc) (by decide))
  split
  · next h =>
    refine oneLine_ofChar ?_
    rintro rfl
    exact absurd h (by decide)
  split
  · next letter hletter =>
    refine .append (by decide) (.append (oneLine_ofChar ?_) (by decide))
    rintro rfl
    unfold Text.escapeLetter? at hletter
    split at hletter <;> cases hletter
  · repeat' split
    all_goals exact .append (by decide) (printed_ofHex _ _).oneLine

theorem oneLine_quoteChar (c : Char) : (Text.quoteChar c).OneLine :=
  .append (.append (by decide) (oneLine_escapeChar (by decide) c)) (by decide)

theorem oneLine_quote (t : Text) : t.quote.OneLine := by
  refine .append (.append (by decide) (.flatMap fun g _ => ?_)) (by decide)
  unfold Text.escapeGlyph
  split
  · exact .flatMap fun b _ => .append (by decide) (printed_ofHex _ _).oneLine
  · exact oneLine_escapeChar (by decide) g.char

theorem oneLine_describe (t : Token) : t.describe.OneLine := by
  unfold Token.describe
  split
  · decide
  · decide
  · exact oneLine_quote t.lexeme

theorem oneLine_kindName (kind : Token.Kind) : kind.name.OneLine := by
  cases kind with
  | other code => exact .append (.append (by decide) (printed_ofInt code).oneLine) (by decide)
  | _ => decide

theorem LexCause.oneLine (cause : LexCause) : cause.message.OneLine := by
  cases cause with
  | unterminatedComment => decide
  | unterminatedString => decide
  | unterminatedAsm => decide
  | asmWithoutBrace got =>
    cases got with
    | none => decide
    | some c => exact .append (by decide) (oneLine_quoteChar c)
  | malformedInteger run => exact .append (by decide) (oneLine_quote run)
  | unexpected c => exact .append (by decide) (oneLine_quoteChar c)

theorem Wanted.oneLine (what : Wanted) : what.describe.OneLine := by
  cases what <;> decide

theorem ParseCause.oneLine (cause : ParseCause) : cause.message.OneLine := by
  cases cause with
  | expectedDeclaration got => exact .append (by decide) (oneLine_describe got)
  | expected what got =>
    exact .append (.append (.append (by decide) what.oneLine) (by decide)) (oneLine_describe got)
  | hasParameters => decide
  | unclosedFunction name => exact .append (.append (by decide) (oneLine_quote name)) (by decide)
  | asmNotWholeBody => decide
  | unknownStatement got => exact .append (by decide) (oneLine_describe got)
  | extraArgument callee => exact .append (.append (by decide) (oneLine_quote callee)) (by decide)
  | stringLiteral => decide
  | notConstant name => exact .append (oneLine_quote name) (by decide)
  | expectedExpression got => exact .append (by decide) (oneLine_describe got)
  | redeclared name first =>
    exact .append (.append (.append (.append (by decide) (oneLine_quote name)) (by decide))
      (printed_render first).oneLine) (by decide)
  | labelTaken name label entry =>
    exact .append (.append (.append (.append (.append (by decide) (oneLine_quote name)) (by decide))
      (oneLine_quote label)) (by decide)) (oneLine_quote entry)
  | undeclared name listed =>
    refine .append (.append (by decide) (oneLine_quote name)) ?_
    cases listed <;> decide
  | noEntry name => exact .append (by decide) (oneLine_quote name)

theorem EvalCause.oneLine {cause : EvalCause}
    (h : ∀ literal, cause = .tooLarge literal → literal.OneLine) : cause.message.OneLine := by
  cases cause with
  | tooLarge literal => exact .append (.append (by decide) (h literal rfl)) (by decide)
  | divisionByZero => decide
  | moduloByZero => decide
  | negativeShift => decide
  | unknownUnary op => exact .append (by decide) (oneLine_kindName op)
  | unknownBinary op => exact .append (by decide) (oneLine_kindName op)

end Wordings

/-! ### Lines -/

section Lines

variable {a b t : Text}

theorem Text.OneLine.lines (h : t.OneLine) : t.lines = [t] := by
  have hlines := Text.lines_append h (t := []) rfl
  rwa [List.append_nil] at hlines

theorem lines_newline_between (a b : Text) : (a ++ newline :: b).lines = a.lines ++ b.lines := by
  induction a with
  | nil => exact Text.lines_newline b
  | cons c a ih =>
    by_cases hc : c = newline
    · rw [hc, List.cons_append, Text.lines_newline, Text.lines_newline, ih]
      rfl
    · obtain ⟨line, more, hlines, -⟩ := Text.lines_eq_cons a
      rw [hlines, List.cons_append] at ih
      rw [List.cons_append, Text.lines_cons hc ih, Text.lines_cons hc hlines]
      rfl

theorem length_lines (t : Text) : t.lines.length = t.count newline + 1 := by
  induction t with
  | nil => rfl
  | cons c t ih =>
    by_cases hc : c = newline
    · rw [hc, Text.lines_newline, List.length_cons, ih, List.count_cons_self]
    · obtain ⟨line, more, hlines, -⟩ := Text.lines_eq_cons t
      rw [Text.lines_cons hc hlines, List.count_cons_of_ne hc, ← ih, hlines]
      rfl

theorem oneLine_of_mem_lines {line : Text} (h : line ∈ t.lines) : line.OneLine := by
  induction t generalizing line with
  | nil =>
    obtain rfl := List.mem_singleton.mp h
    decide
  | cons c t ih =>
    by_cases hc : c = newline
    · rw [hc, Text.lines_newline] at h
      rcases List.mem_cons.mp h with rfl | h
      · decide
      · exact ih h
    · obtain ⟨first, more, hlines, -⟩ := Text.lines_eq_cons t
      rw [Text.lines_cons hc hlines] at h
      rcases List.mem_cons.mp h with rfl | h
      · have hfirst : Text.OneLine first := ih (by rw [hlines]; exact List.mem_cons_self)
        exact .append (s := [c]) (by simpa [Text.OneLine] using Ne.symm hc) hfirst
      · exact ih (by rw [hlines]; exact List.mem_cons_of_mem _ h)

variable {gs past rest : List Glyph} {source : Text}

/-- The glyphs up to the next newline. -/
def restOfLine (gs : List Glyph) : List Glyph :=
  gs.takeWhile (·.char != '\n')

theorem no_newline_restOfLine (gs : List Glyph) : ∀ g ∈ restOfLine gs, g.char ≠ '\n' := by
  intro g hg
  simpa using List.mem_takeWhile_imp hg

theorem restOfLine_cases (gs : List Glyph) :
    gs = restOfLine gs ∨ ∃ g more, gs = restOfLine gs ++ g :: more ∧ g.char = '\n' := by
  have hsplit : gs = restOfLine gs ++ gs.dropWhile (·.char != '\n') := List.takeWhile_append_dropWhile.symm
  cases hdrop : gs.dropWhile (·.char != '\n') with
  | nil =>
    rw [hdrop, List.append_nil] at hsplit
    exact .inl hsplit
  | cons g more =>
    rw [hdrop] at hsplit
    have hg := List.head?_dropWhile_not (·.char != '\n') gs
    rw [hdrop] at hg
    exact .inr ⟨g, more, hsplit, by simpa using hg⟩

theorem no_newline_lastLine (gs : List Glyph) : ∀ g ∈ lastLine gs, g.char ≠ '\n' := by
  intro g hg
  simpa using List.mem_takeWhile_imp (List.mem_reverse.mp hg)

theorem countP_lastLine (gs : List Glyph) : (lastLine gs).countP (·.char == '\n') = 0 := by
  rw [List.countP_eq_zero]
  intro g hg
  simpa using no_newline_lastLine gs g hg

theorem lastLine_cases (gs : List Glyph) :
    gs = lastLine gs ∨ ∃ front g, gs = front ++ g :: lastLine gs ∧ g.char = '\n' := by
  rcases restOfLine_cases gs.reverse with hall | ⟨g, more, hsplit, hg⟩
  · refine .inl (List.reverse_injective ?_)
    rw [lastLine, List.reverse_reverse]
    exact hall
  · refine .inr ⟨more.reverse, g, List.reverse_injective ?_, hg⟩
    rw [hsplit]
    simp [lastLine, restOfLine]

theorem oneLine_ofGlyphs (hspelled : ∀ g ∈ gs, g.Spelled) (h : ∀ g ∈ gs, g.char ≠ '\n') :
    (Text.ofGlyphs gs).OneLine :=
  not_mem_ofGlyphs hspelled (by decide) h

theorem ofGlyphs_newline {g : Glyph} (hg : g.Spelled) (hchar : g.char = '\n') (gs : List Glyph) :
    Text.ofGlyphs (g :: gs) = newline :: Text.ofGlyphs gs := by
  rw [Text.ofGlyphs_cons, hg.bytes_of_ascii hchar (by decide)]
  rfl

theorem head_lines (hspelled : ∀ g ∈ gs, g.Spelled) :
    (Text.ofGlyphs gs).lines[0]? = some (Text.ofGlyphs (restOfLine gs)) := by
  have hline : (Text.ofGlyphs (restOfLine gs)).OneLine :=
    oneLine_ofGlyphs (fun g hg => hspelled g (List.takeWhile_subset _ hg)) (no_newline_restOfLine gs)
  rcases restOfLine_cases gs with hall | ⟨g, more, hsplit, hg⟩
  · rw [← hall] at hline ⊢
    rw [hline.lines]
    rfl
  · have htext : Text.ofGlyphs gs = Text.ofGlyphs (restOfLine gs) ++ newline :: Text.ofGlyphs more := by
      rw [← ofGlyphs_newline (hspelled g (by rw [hsplit]; simp)) hg, ← Text.ofGlyphs_append, ← hsplit]
    rw [htext, lines_newline_between, hline.lines]
    rfl

theorem restOfLine_append (h : ∀ g ∈ past, g.char ≠ '\n') (rest : List Glyph) :
    restOfLine (past ++ rest) = past ++ restOfLine rest :=
  List.takeWhile_append_of_pos fun g hg => by simpa using h g hg

/-- The line of a place is the one with as many lines before it as there are newlines. -/
theorem line_at (h : source.glyphs = past ++ rest) :
    source.lines[past.countP (·.char == '\n')]? =
      some (Text.ofGlyphs (lastLine past ++ restOfLine rest)) := by
  have hspelled := spelled_of_glyphs h
  obtain ⟨hpast, hrest⟩ := List.forall_mem_append.mp hspelled
  have hsource : source = Text.ofGlyphs (past ++ rest) := by rw [← h, Text.ofGlyphs_glyphs]
  have hlast : ∀ g ∈ lastLine past ++ rest, g.Spelled := by
    intro g hg
    rcases List.mem_append.mp hg with hg | hg
    · exact hpast g ((lastLine_suffix past).subset hg)
    · exact hrest g hg
  have hhead := head_lines hlast
  rw [restOfLine_append (no_newline_lastLine past)] at hhead
  -- The place lies in the first line, or a newline stands before its line.
  rcases lastLine_cases past with hall | ⟨front, g, hsplit, hg⟩
  · have hcount : past.countP (·.char == '\n') = 0 := by
      rw [hall]
      exact countP_lastLine past
    rw [hcount, hsource]
    rwa [← hall] at hhead ⊢
  · have hcount : past.countP (·.char == '\n') = front.countP (·.char == '\n') + 1 := by
      rw [hsplit, List.countP_append, List.countP_cons, countP_lastLine]
      simp [hg]
    have hfront : ∀ g ∈ front, g.Spelled := fun g hg => hpast g (by rw [hsplit]; simp [hg])
    have htext : source = Text.ofGlyphs front ++ newline :: Text.ofGlyphs (lastLine past ++ rest) := by
      rw [← ofGlyphs_newline (hpast g (by rw [hsplit]; simp)) hg, ← Text.ofGlyphs_append, hsource]
      congr 1
      rw [← List.cons_append, ← List.append_assoc, ← hsplit]
    have hlength : (Text.ofGlyphs front).lines.length = past.countP (·.char == '\n') := by
      rw [length_lines, count_newline hfront, hcount]
    rw [htext, lines_newline_between, List.getElem?_append_right (Nat.le_of_eq hlength), hlength,
      Nat.sub_self]
    exact hhead

end Lines

/-! ### Columns -/

section Columns

variable {t line : Text}

/-- A printed text in front of another one is read character by character. -/
theorem Text.Printed.glyphs (h : t.Printed) (more : Text) :
    (t ++ more).glyphs = t.map (fun b => Glyph.of (Char.ofNat b.toNat)) ++ more.glyphs := by
  induction t with
  | nil => rfl
  | cons b t ih =>
    obtain ⟨hb, ht⟩ := List.forall_mem_cons.mp h
    rw [List.cons_append, glyphs_ascii hb.2, ih ht]
    rfl

theorem Text.Printed.width (h : t.Printed) : t.width = t.length := by
  have hglyphs := h.glyphs []
  rw [List.append_nil] at hglyphs
  rw [Text.width, hglyphs]
  simp [show Text.glyphs [] = [] from rfl]

theorem spellingLength_zero {b : UInt8} (h : Glyph.spellingLength b = 0) : 128 ≤ b.toNat := by
  rw [Glyph.spellingLength_eq] at h
  split at h
  · cases h
  · omega

/-- Bytes beyond ASCII are where they were when ASCII bytes are replaced by ASCII bytes. -/
theorem begins_of_replaced {f : UInt8 → UInt8} (hf : ∀ b, f b = b ∨ (f b).toNat < 128) {x t : Text}
    (hx : ∀ b ∈ x, 128 ≤ b.toNat) (h : x <+: t.map f) : x <+: t := by
  induction x generalizing t with
  | nil => exact List.nil_prefix
  | cons b x ih =>
    obtain ⟨hb, hx⟩ := List.forall_mem_cons.mp hx
    cases t with
    | nil => simp at h
    | cons c t =>
      obtain ⟨hbc, h⟩ := List.cons_prefix_cons.mp h
      rcases hf c with hc | hc
      · exact List.cons_prefix_cons.mpr ⟨hbc.trans hc, ih hx h⟩
      · rw [hbc] at hb
        omega

theorem replaceByte_append (o n : UInt8) (s t : Text) :
    Text.replaceByte o n (s ++ t) = Text.replaceByte o n s ++ Text.replaceByte o n t :=
  List.map_append

theorem replaceByte_of_not_mem {o n : UInt8} (h : o ∉ t) : Text.replaceByte o n t = t := by
  refine (List.map_congr_left fun b hb => ?_).trans (List.map_id t)
  rw [if_neg, id_eq]
  rintro rfl
  exact h hb

/-- What follows an ill-formed byte does not complete a spelling after a replacement either. -/
theorem glyphs_ill_formed {b o n : UInt8} {rest : Text} (hn : n.toNat < 128)
    (h : ∀ c, ¬Text.ofChar c <+: b :: rest) :
    Text.glyphs (b :: Text.replaceByte o n rest) =
      ⟨Glyph.replacement, [b]⟩ :: (Text.replaceByte o n rest).glyphs := by
  have hill : Glyph.first b (Text.replaceByte o n rest) = ⟨Glyph.replacement, [b]⟩ := by
    refine Glyph.first_of_ill_formed fun c hc => h c ?_
    obtain ⟨b', tail, hshape, -, htail⟩ := ofChar_shape c
    rw [hshape] at hc ⊢
    obtain ⟨hb', hbegins⟩ := List.cons_prefix_cons.mp hc
    refine List.cons_prefix_cons.mpr ⟨hb', begins_of_replaced ?_ ?_ hbegins⟩
    · intro x
      split
      · exact .inr hn
      · exact .inl rfl
    · exact fun x hx => spellingLength_zero (htail x hx)
  obtain ⟨after, htext, hglyphs⟩ := Text.glyphs_cons_eq b (Text.replaceByte o n rest)
  rw [hill] at htext hglyphs
  rw [hglyphs, (List.cons.inj htext).2]
  rfl

/-- An ASCII character replaced by another one leaves all other characters as they are. -/
theorem glyphs_replaceByte (old new : Char) (hold : old.toNat < 128) (hnew : new.toNat < 128) (t : Text) :
    (t.replaceByte old.toUInt8 new.toUInt8).glyphs =
      t.glyphs.map fun g => if g.char = old then Glyph.of new else g := by
  have hnewByte : new.toUInt8.toNat < 128 := by
    simp only [Char.toUInt8, UInt32.toNat_toUInt8, Char.toNat] at hnew ⊢
    omega
  generalize hn : t.length = n
  induction n using Nat.strongRecOn generalizing t with
  | ind n ih =>
    cases t with
    | nil => rfl
    | cons b rest =>
      -- A glyph may have several bytes, so the induction is on the length.
      obtain ⟨after, htext, hglyphs⟩ := Text.glyphs_cons_eq b rest
      have hspelled := Glyph.spelled_first b rest
      have hshort : after.length < n := by
        have hlength := congrArg List.length htext
        have hne := List.length_pos_iff.mpr hspelled.ne_nil
        rw [List.length_append] at hlength
        omega
      have ih := ih after.length hshort after rfl
      rw [hglyphs, List.map_cons, ← ih]
      rcases Glyph.first_cases b rest with ⟨c, -, hfirst⟩ | ⟨hnone, hfirst⟩
      · rw [hfirst] at htext hspelled ⊢
        rw [htext, replaceByte_append]
        by_cases hc : c = old
        · have hbytes : Text.replaceByte old.toUInt8 new.toUInt8 (Glyph.of c).bytes = Text.ofChar new := by
            rw [hc, Glyph.of, ofChar_ascii hold, ofChar_ascii hnew]
            simp [Text.replaceByte]
          rw [hbytes, Text.glyphs_ofChar_append, if_pos (show (Glyph.of c).char = old from hc)]
        · rw [replaceByte_of_not_mem (hspelled.not_mem_bytes hold hc),
            if_neg (show ¬(Glyph.of c).char = old from hc)]
          exact Text.glyphs_ofChar_append c _
      · rw [hfirst] at htext hspelled ⊢
        obtain rfl : rest = after := (List.cons.inj htext).2
        -- A byte that is no character is not the one to be replaced, and it does not become one.
        have hreplacement : Glyph.replacement ≠ old := by
          rintro rfl
          exact absurd hold (by decide)
        have hb : Text.replaceByte old.toUInt8 new.toUInt8 [b] = [b] :=
          replaceByte_of_not_mem (hspelled.not_mem_bytes hold hreplacement)
        rw [if_neg hreplacement, ← List.singleton_append, replaceByte_append, hb]
        exact glyphs_ill_formed hnewByte hnone

/-- A source line as a diagnostic shows it: the carriage returns at its end are left out, and a tab is
one space. -/
def Shows (line shown : Text) : Prop :=
  ∃ body k, line = body ++ List.replicate k '\r'.toUInt8 ∧ body.getLast? ≠ some '\r'.toUInt8 ∧
    shown = body.map fun b => if b = '\t'.toUInt8 then ' '.toUInt8 else b

theorem shows_shownLine (line : Text) : Shows line (Diagnostic.shownLine line) := by
  have hsplit : line.reverse.takeWhile (· == '\r'.toUInt8) ++ line.reverse.dropWhile (· == '\r'.toUInt8)
      = line.reverse := List.takeWhile_append_dropWhile
  have hreturns : line.reverse.takeWhile (· == '\r'.toUInt8) =
      List.replicate (line.reverse.takeWhile (· == '\r'.toUInt8)).length '\r'.toUInt8 := by
    refine List.eq_replicate_of_mem fun b hb => ?_
    simpa using List.mem_takeWhile_imp hb
  refine ⟨(line.reverse.dropWhile (· == '\r'.toUInt8)).reverse,
    (line.reverse.takeWhile (· == '\r'.toUInt8)).length, ?_, ?_, rfl⟩
  · refine List.reverse_injective ?_
    rw [List.reverse_append, List.reverse_reverse, List.reverse_replicate, ← hreturns, hsplit]
  · rw [List.getLast?_reverse]
    intro hhead
    have hfirst := List.head?_dropWhile_not (· == '\r'.toUInt8) line.reverse
    rw [hhead] at hfirst
    simp at hfirst

theorem glyphs_returns (k : Nat) :
    Text.glyphs (List.replicate k '\r'.toUInt8) = List.replicate k (Glyph.of '\r') := by
  induction k with
  | zero => rfl
  | succ k ih =>
    rw [List.replicate_succ, List.replicate_succ, ← ih]
    exact Text.glyphs_ofChar_append '\r' _

/-- A character other than a tab or a carriage return is shown in its column. -/
theorem Shows.glyph {shown : Text} (h : Shows line shown) {i : Nat} {g : Glyph}
    (hg : line.glyphs[i]? = some g) (htab : g.char ≠ '\t') (hreturn : g.char ≠ '\r') :
    shown.glyphs[i]? = some g := by
  obtain ⟨body, k, rfl, -, hshown⟩ := h
  have hfresh : Glyph.Fresh (List.replicate k '\r'.toUInt8) := by
    cases k with
    | zero => simp [Glyph.Fresh]
    | succ k => exact Glyph.fresh_ofChar '\r' (List.replicate k '\r'.toUInt8)
  rw [Text.glyphs_append body hfresh, glyphs_returns] at hg
  have hbody : body.glyphs[i]? = some g := by
    rcases Nat.lt_or_ge i body.glyphs.length with hi | hi
    · rwa [List.getElem?_append_left hi] at hg
    · rw [List.getElem?_append_right hi] at hg
      have hmem := List.mem_of_getElem? hg
      rw [(List.mem_replicate.mp hmem).2] at hreturn
      exact absurd rfl hreturn
  have hglyphs := glyphs_replaceByte '\t' ' ' (by decide) (by decide) body
  rw [Text.replaceByte, ← hshown] at hglyphs
  rw [hglyphs, List.getElem?_map, hbody, Option.map_some, if_neg htab]

end Columns

/-! ### Places -/

/-- A position in a source: there is a line with its number, and the column is one of that line's
characters or the place behind the last one. -/
structure Position.Inside (pos : Position) (source line : Text) : Prop where
  line_pos : 1 ≤ pos.line
  line_le : pos.line ≤ source.lines.length
  at_line : source.lines[(pos.line - 1).toNat]? = some line
  col_pos : 1 ≤ pos.col
  col_le : pos.col ≤ line.width + 1

/-- Where something begins there is a line, and the character in its column is not blank. -/
theorem Position.Begins.inside {source : Text} {pos : Position}
    (h : Position.start.Begins source.glyphs pos) : ∃ line, pos.Inside source line ∧
      ∀ g, line.glyphs[(pos.col - 1).toNat]? = some g → isBlank g.char = false := by
  obtain ⟨past, rest, hgs, rfl, hrest⟩ := h
  obtain ⟨front, hfront⟩ := lastLine_suffix past
  have hline := line_at hgs
  have hglyphs : (Text.ofGlyphs (lastLine past ++ restOfLine rest)).glyphs =
      lastLine past ++ restOfLine rest := by
    have hsplit : restOfLine rest ++ rest.dropWhile (·.char != '\n') = rest :=
      List.takeWhile_append_dropWhile
    -- The glyphs of the line are among those of the source, and are read back as they are.
    rw [← hfront, ← hsplit, List.append_assoc, ← List.append_assoc (lastLine past)] at hgs
    exact Text.glyphs_middle hgs
  obtain ⟨hlt, -⟩ := List.getElem?_eq_some_iff.mp hline
  rw [start_after]
  have hcol : (1 + ((lastLine past).length : Int) - 1).toNat = (lastLine past).length := by omega
  have hnumber : (1 + (past.countP (·.char == '\n') : Int) - 1).toNat =
      past.countP (·.char == '\n') := by omega
  refine ⟨Text.ofGlyphs (lastLine past ++ restOfLine rest), ⟨?_, ?_, ?_, ?_, ?_⟩, ?_⟩
  · dsimp only
    omega
  · dsimp only
    omega
  · dsimp only
    rw [hnumber]
    exact hline
  · dsimp only
    omega
  · rw [Text.width, hglyphs, List.length_append]
    dsimp only
    omega
  · intro g hg
    dsimp only at hg
    rw [hcol, hglyphs, List.getElem?_append_right (Nat.le_refl _), Nat.sub_self] at hg
    -- The place itself is not blank, so it is not the newline behind the line either.
    cases rest with
    | nil => cases hg
    | cons g' rest =>
      refine hrest g ?_
      rw [restOfLine, List.takeWhile_cons] at hg
      split at hg
      · exact hg
      · cases hg

/-! ### Diagnostics -/

namespace Diagnostic

theorem printed_gutter (n : Int) : (gutter n).Printed := by
  have hbar : Text.Printed " | " := by decide +kernel
  exact ((printed_spaces _).append (printed_ofInt n)).append hbar

theorem length_gutter (n : Int) : 3 ≤ (gutter n).length := by
  have hbar : (" | " : Text).length = 3 := by decide
  rw [gutter, List.length_append, hbar]
  omega

theorem render_eq {file source line : Text} {r : Report} (hphase : r.phase ≠ .emit)
    (hline : source.line? r.pos.line = some line) (hcol : 1 ≤ r.pos.col) :
    render file source r = file ++ ":" ++ r.message ++
      newline :: (gutter r.pos.line ++ shownLine line ++ newline :: caretLine r.pos) := by
  have hbreak : ("\n" : Text) = [newline] := by decide
  have hmessage : r.message = r.pos.render ++ ": " ++ r.phase.name ++ " error: " ++ r.detail := by
    unfold Report.message
    split
    · next h => exact absurd h hphase
    · rfl
  simp only [render, hline, if_pos hcol, hbreak, hmessage]
  simp

/-- What stands before the caret. -/
def margin (pos : Position) : Text :=
  Text.spaces ((gutter pos.line).length - 2) ++ "| " ++ Text.spaces (pos.col - 1).toNat

theorem mem_margin {pos : Position} {b : UInt8} (hb : b ∈ margin pos) :
    b = ' '.toUInt8 ∨ b = '|'.toUInt8 := by
  have hbar : ("| " : Text) = ['|'.toUInt8, ' '.toUInt8] := by decide
  rw [margin, hbar] at hb
  rcases List.mem_append.mp hb with hb | hb
  · rcases List.mem_append.mp hb with hb | hb
    · exact .inl (List.mem_replicate.mp hb).2
    · simpa [or_comm] using hb
  · exact .inl (List.mem_replicate.mp hb).2

theorem printed_margin (pos : Position) : (margin pos).Printed := by
  intro b hb
  rcases mem_margin hb with rfl | rfl
  · decide
  · decide

theorem length_margin (pos : Position) :
    (margin pos).length = (gutter pos.line).width + (pos.col - 1).toNat := by
  have hbar : ("| " : Text).length = 2 := by decide
  have hlength := length_gutter pos.line
  rw [(printed_gutter pos.line).width, margin, List.length_append, List.length_append, hbar]
  simp only [Text.spaces, List.length_replicate]
  omega

theorem printed_caretLine (pos : Position) : (caretLine pos).Printed := by
  have hcaret : Text.Printed "^" := by decide +kernel
  exact (printed_margin pos).append hcaret

/-- The caret stands alone behind a margin as wide as the gutter and the columns before it. -/
theorem glyphs_caretLine (pos : Position) : ∃ before : List Glyph,
    (caretLine pos).glyphs = before ++ [Glyph.of '^'] ∧ (∀ g ∈ before, g.char ≠ '^') ∧
      before.length = (gutter pos.line).width + (pos.col - 1).toNat := by
  have hcaret : ("^" : Text).glyphs = [Glyph.of '^'] := by decide +kernel
  refine ⟨(margin pos).map fun b => Glyph.of (Char.ofNat b.toNat), ?_, ?_, ?_⟩
  · rw [← hcaret]
    exact (printed_margin pos).glyphs "^"
  · intro g hg
    obtain ⟨b, hb, rfl⟩ := List.mem_map.mp hg
    rcases mem_margin hb with rfl | rfl
    · decide
    · decide
  · rw [List.length_map, length_margin]

/-- A source line behind its gutter, and below it a caret under the character at the position; columns
are counted in characters. -/
structure Underlines (line : Text) (pos : Position) (second third : Text) : Prop where
  shown : ∃ shown, Shows line shown ∧ second = gutter pos.line ++ shown
  caret : ∃ before, third.glyphs = before ++ [Glyph.of '^'] ∧ (∀ g ∈ before, g.char ≠ '^') ∧
    before.length = (gutter pos.line).width + (pos.col - 1).toNat
  under : ∀ g, line.glyphs[(pos.col - 1).toNat]? = some g →
    second.glyphs[(gutter pos.line).width + (pos.col - 1).toNat]? = some g

theorem underlines {line : Text} {pos : Position}
    (h : ∀ g, line.glyphs[(pos.col - 1).toNat]? = some g → isBlank g.char = false) :
    Underlines line pos (gutter pos.line ++ shownLine line) (caretLine pos) where
  shown := ⟨_, shows_shownLine line, rfl⟩
  caret := glyphs_caretLine pos
  under := by
    intro g hg
    have hblank := h g hg
    have hshown : (shownLine line).glyphs[(pos.col - 1).toNat]? = some g := by
      refine (shows_shownLine line).glyph hg ?_ ?_
      · intro htab
        rw [htab] at hblank
        exact absurd hblank (by decide)
      · intro hreturn
        rw [hreturn] at hblank
        exact absurd hblank (by decide)
    have hgutter := printed_gutter pos.line
    rw [hgutter.glyphs, hgutter.width, List.getElem?_append_right (by simp), List.length_map,
      Nat.add_sub_cancel_left]
    exact hshown

theorem oneLine_shownLine {line : Text} (h : line.OneLine) : (shownLine line).OneLine := by
  intro hmem
  obtain ⟨body, k, rfl, -, hshown⟩ := shows_shownLine line
  rw [hshown] at hmem
  obtain ⟨b, hb, heq⟩ := List.mem_map.mp hmem
  split at heq
  · exact absurd heq (by decide)
  · exact h (List.mem_append_left _ (heq ▸ hb))

end Diagnostic

/-! ### Refusals -/

namespace Fault

variable {source : Text} {fault : Fault}

theorem Points.begins (h : fault.Points source) :
    Position.start.Begins source.glyphs fault.report.pos ∧
      fault.report.phase ∈ [.lex, .parse, .eval] := by
  cases fault with
  | lex => exact ⟨h, by simp [report]⟩
  | parse => exact ⟨h, by simp [report]⟩
  | eval => exact ⟨h.1, by simp [report]⟩
  | emit => cases h

theorem Points.oneLine (h : fault.Points source) : fault.report.message.OneLine := by
  have hreport : ∀ pos : Position, ∀ name detail : Text, name.OneLine → detail.OneLine →
      (pos.render ++ ": " ++ name ++ " error: " ++ detail).OneLine := fun pos name detail hname hdetail =>
    .append (.append (.append (.append (printed_render pos).oneLine (by decide)) hname) (by decide)) hdetail
  cases fault with
  | lex pos cause => exact hreport pos Phase.lex.name _ (by decide) cause.oneLine
  | parse pos cause => exact hreport pos Phase.parse.name _ (by decide) cause.oneLine
  | eval pos cause => exact hreport pos Phase.eval.name _ (by decide) (EvalCause.oneLine h.2)
  | emit => cases h

end Fault

variable {p : Profile} {source : Text} {r : Refusal}

/-- A program that could be read has a listing, so only reading can fail. -/
theorem refusal_cases (hflaw : p.flaw? = none) (h : compile p source = .error r) :
    ∃ fault, r = .source fault ∧ (source.lex = .error fault ∨
      ∃ ts, source.lex = .ok ts ∧ Program.ofTokens p ts = .error fault) := by
  cases hlex : source.lex with
  | error fault =>
    rw [compile, hflaw] at h
    dsimp only at h
    rw [hlex] at h
    cases h
    exact ⟨fault, rfl, .inl rfl⟩
  | ok ts =>
    cases hprog : Program.ofTokens p ts with
    | error fault =>
      rw [compile_eq_error hflaw hlex hprog] at h
      cases h
      exact ⟨fault, rfl, .inr ⟨ts, rfl, hprog⟩⟩
    | ok prog =>
      obtain ⟨o, ho, -⟩ := exists_compile_eq_ok hflaw hlex hprog
      rw [ho] at h
      cases h

/-- A source that is refused under a valid profile has a fault of the lexer, the parser or the folder,
and never one of writing or of a missing entry that was not noticed before. The fault has a place in the
source, and the diagnostic underlines it. -/
theorem refusal_underlined (p : Profile) (source : Text) (r : Refusal) (hflaw : p.flaw? = none)
    (h : compile p source = .error r) : ∃ fault line, r = .source fault ∧
      (source.lex = .error fault ∨ ∃ ts, source.lex = .ok ts ∧ Program.ofTokens p ts = .error fault) ∧
      fault.report.phase ∈ [.lex, .parse, .eval] ∧ fault.report.pos.Inside source line ∧
      ∀ file, newline ∉ file → ∃ second third,
        (Diagnostic.render file source fault.report).lines =
          [file ++ ":" ++ fault.report.message, second, third] ∧
        Diagnostic.Underlines line fault.report.pos second third := by
  obtain ⟨fault, rfl, hfault⟩ := refusal_cases hflaw h
  have hpoints : fault.Points source := by
    rcases hfault with hlex | ⟨ts, hlex, hprog⟩
    · exact lex_points hlex
    · exact ofTokens_points hlex hprog
  obtain ⟨hbegins, hphase⟩ := hpoints.begins
  obtain ⟨line, hinside, hblank⟩ := hbegins.inside
  refine ⟨fault, line, rfl, hfault, hphase, hinside, fun file hfile => ?_⟩
  refine ⟨_, _, ?_, Diagnostic.underlines hblank⟩
  -- Faults of writing would be shown without a line.
  have hemit : fault.report.phase ≠ .emit := by
    intro hemit
    simp [hemit] at hphase
  have hline : source.line? fault.report.pos.line = some line := by
    rw [Text.line?, if_pos hinside.line_pos, hinside.at_line]
  have hheadline : (file ++ ":" ++ fault.report.message).OneLine :=
    .append (.append hfile (by decide)) hpoints.oneLine
  have hshown : (Diagnostic.gutter fault.report.pos.line ++ Diagnostic.shownLine line).OneLine :=
    .append (Diagnostic.printed_gutter _).oneLine
      (Diagnostic.oneLine_shownLine (oneLine_of_mem_lines (List.mem_of_getElem? hinside.at_line)))
  rw [Diagnostic.render_eq hemit hline hinside.col_pos, lines_newline_between, lines_newline_between,
    hheadline.lines, hshown.lines, (Diagnostic.printed_caretLine _).oneLine.lines]
  rfl

/-- A division by zero behind a tab, in a line that ends with a carriage return. -/
def faultySource : Text :=
  "void main() \x7b\n\tprint(1/0);\r\n\x7d"

theorem faultySource_refused : ∃ r, compile sampleProfile faultySource = .error r := by
  have h : (compile sampleProfile faultySource).isOk = false := by cbv
  cases hr : compile sampleProfile faultySource with
  | ok o => simp [hr, Except.isOk, Except.toBool] at h
  | error r => exact ⟨r, rfl⟩

theorem refusal_underlined_division : sampleProfile.flaw? = none ∧ ∃ fault line second third,
    compile sampleProfile faultySource = .error (.source fault) ∧
    fault.report.pos.Inside faultySource line ∧
    (Diagnostic.render "a.c" faultySource fault.report).lines =
      ["a.c" ++ ":" ++ fault.report.message, second, third] ∧
    Diagnostic.Underlines line fault.report.pos second third := by
  obtain ⟨r, hr⟩ := faultySource_refused
  obtain ⟨fault, line, rfl, -, -, hinside, hlines⟩ :=
    refusal_underlined sampleProfile faultySource r sampleProfile_flaw hr
  obtain ⟨second, third, hlines, hunderlines⟩ := hlines "a.c" (by decide)
  exact ⟨sampleProfile_flaw, fault, line, second, third, hr, hinside, hlines, hunderlines⟩

end Pocket

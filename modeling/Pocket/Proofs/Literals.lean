import Mathlib
import Pocket.Proofs.Commented
import Pocket.Proofs.Numerals

/-!
# Integer literals in a source

The lexer and the parser agree on integer literals. Every integer token writes a number, which the parser
reads or finds too large; and a run of word characters that begins with a digit is one such token or a
fault where the run begins, but never several tokens.
-/

namespace Pocket

open Lexical Pocket.Parser

/-! ### Numbers among the tokens -/

section Numbered

variable {l l' : Lexer} {t : Token} {tok run rest : List Glyph} {lexeme : Text}

/-- The spelling of word characters. -/
theorem Text.ofGlyphs_run (hrun : ∀ g ∈ run, Token.isWordChar g.char = true) (hspelled : ∀ g ∈ run, g.Spelled) :
    Text.ofGlyphs run = .ofChars (run.map Glyph.char) := by
  rw [Text.ofGlyphs, Text.ofChars, List.flatMap_map]
  refine List.flatMap_congr fun g hg => ?_
  exact (hspelled g hg).bytes_eq rfl (wordChar_ne_replacement (hrun g hg))

/-- A run has the shape of a literal exactly if it writes a number. -/
theorem isIntegerLiteral_run (hrun : IsRun run rest) (hspelled : ∀ g ∈ run, g.Spelled) :
    Token.isIntegerLiteral (run.map Glyph.char) = true ↔ ∃ n, WritesNumber (.ofGlyphs run) n := by
  rw [Text.ofGlyphs_run hrun.1 hspelled, isIntegerLiteral_iff]

theorem Lexical.Lexeme.writesNumber (h : Lexeme tok rest .integer lexeme) (hspelled : ∀ g ∈ tok, g.Spelled) :
    ∃ n, WritesNumber lexeme n := by
  generalize hkind : Token.Kind.integer = kind at h
  cases h with
  | word =>
    unfold Token.wordKind at hkind
    split_ifs at hkind
  | integer hword hg hrun hshape => exact (isIntegerLiteral_run hrun hspelled).mp hshape
  | string => cases hkind
  | single hg =>
    unfold Token.punctuation? at hg
    split at hg <;> cases hg <;> cases hkind
  | double ha =>
    unfold Token.doubled? at ha
    split at ha <;> cases ha <;> cases hkind

/-- If a token is an integer, it writes a number. -/
def Token.Numbered (t : Token) : Prop :=
  t.kind = .integer → ∃ n, WritesNumber t.lexeme n

/-- What a lexer keeps along its way: it reads glyphs of a text, and only tokens of a block wait. -/
structure Lexer.Orderly (l : Lexer) : Prop where
  spelled : ∀ g ∈ l.cursor.rest, g.Spelled
  queue : ∀ t ∈ l.queue, t.kind ≠ .integer

theorem Lexer.orderly_afterKeyword {source : Text} {pos : Position} {gs : List Glyph}
    (h : ∀ g ∈ gs, g.Spelled) (hnext : (Lexer.afterKeyword source pos gs).next = (.ok t, l')) :
    l'.Orderly ∧ t.Numbered := by
  have hblock : (Lexer.afterKeyword source pos gs).asmBlock = (.ok t, l') := hnext
  obtain ⟨space, lbrace, body, rbrace, rest, hgs, hspace, hl, hbody, hr⟩ := asmBlock_sound hblock
  change gs = _ at hgs
  have hcursor : (Lexer.afterKeyword source pos gs).cursor.next =
      .ok ⟨pos.after space, lbrace :: (body ++ rbrace :: rest)⟩ :=
    Cursor.next_eq_ok_iff.mpr ⟨space, hgs, rfl, hspace⟩
  rw [asmBlock_eq hcursor hl hbody hr] at hblock
  cases hblock
  exact ⟨⟨fun g hg => h g (by rw [hgs]; simp_all [Lexer.inBlock]), by simp [Lexer.inBlock]⟩, by simp [Token.Numbered]⟩

theorem Lexer.orderly_inCode {source : Text} {pos : Position} {gs : List Glyph}
    (h : ∀ g ∈ gs, g.Spelled) (hnext : (Lexer.inCode source pos gs).next = (.ok t, l')) (ht : t.kind ≠ .eof) :
    l'.Orderly ∧ t.Numbered := by
  rcases next_inCode_sound hnext with ⟨-, rfl⟩ | ⟨gap, tok, rest, rfl, -, htok, -, rfl⟩
  · exact absurd rfl ht
  · refine ⟨⟨fun g hg => h g (by simp_all), by simp⟩, fun hkind => ?_⟩
    rw [hkind] at htok
    exact htok.writesNumber fun g hg => h g (by simp [hg])

/-- A step keeps a lexer orderly, and the token it takes off is a number only if one is written there. -/
theorem Lexer.Orderly.next (h : l.Orderly) (hnext : l.next = (.ok t, l')) (ht : t.kind ≠ .eof) :
    l'.Orderly ∧ t.Numbered := by
  obtain ⟨source, ⟨pos, gs⟩, afterAsm, queue⟩ := l
  cases queue with
  | cons u queue =>
    cases hnext
    obtain ⟨hu, hqueue⟩ := List.forall_mem_cons.mp h.queue
    exact ⟨⟨h.spelled, hqueue⟩, fun hkind => absurd hkind hu⟩
  | nil =>
    cases afterAsm with
    | true => exact Lexer.orderly_afterKeyword h.spelled hnext
    | false => exact Lexer.orderly_inCode h.spelled hnext ht

theorem Lexer.Orderly.tokens (h : l.Orderly) : ∀ t ∈ l.tokens.1, t.Numbered := by
  fun_induction Lexer.tokens l with
  | case1 => simp
  | case2 l t l' hnext ht => simp [Token.Numbered, ht]
  | case3 l t l' hnext ht ts e htokens ih =>
    obtain ⟨hl', hnumbered⟩ := h.next hnext ht
    have hts := ih hl'
    rw [htokens] at hts
    exact List.forall_mem_cons.mpr ⟨hnumbered, hts⟩

theorem Lexer.orderly_ofText (source : Text) : (Lexer.ofText source).Orderly :=
  ⟨Glyph.spelled_glyphs, by simp [Lexer.ofText]⟩

end Numbered

/-! ### Digits and letters -/

/-- Whether two lists of ranges have nothing in common, found in one pass over both. -/
def Ranges.apart : Ranges → Ranges → Bool
  | [], _ => true
  | (low, high) :: rest, rs =>
    let rs := rs.dropWhile fun r => r.2 < low
    rs.head?.all (fun r => high < r.1) && apart rest rs

theorem Ranges.contains_dropWhile {rs : Ranges} {low n : Nat} (hn : low ≤ n) (h : rs.contains n = true) :
    Ranges.contains (rs.dropWhile fun r => r.2 < low) n = true := by
  induction rs with
  | nil => exact h
  | cons r rs ih =>
    by_cases hr : r.2 < low
    · rw [List.dropWhile_cons_of_pos (by simpa using hr)]
      rw [contains] at h
      split_ifs at h
      · omega
      · exact ih h
    · rwa [List.dropWhile_cons_of_neg (by simpa using hr)]

theorem Ranges.not_contains_of_apart {rs ss : Ranges} {n : Nat} (hapart : rs.apart ss = true)
    (h : rs.contains n = true) : ss.contains n = false := by
  rw [← Bool.not_eq_true]
  intro hss
  induction rs generalizing ss with
  | nil => cases h
  | cons r rs ih =>
    rw [apart, Bool.and_eq_true] at hapart
    rw [contains] at h
    split_ifs at h with hlow hhigh
    · -- The number lies in the first range, and all that is left of the other list begins behind it.
      have hrest := contains_dropWhile (Nat.le_of_not_lt hlow) hss
      cases hdrop : ss.dropWhile fun s => s.2 < r.1 with
      | nil =>
        rw [hdrop] at hrest
        cases hrest
      | cons s more =>
        rw [hdrop] at hapart hrest
        have hs : r.2 < s.1 := by simpa using hapart.1
        rw [contains, if_pos (by omega)] at hrest
        cases hrest
    · exact ih hapart.2 h (contains_dropWhile (Nat.le_of_not_lt hlow) hss)

/-- A digit begins no word. -/
theorem startsWord_of_digit {c : Char} (h : isDigit c = true) : Token.startsWord c = false := by
  have hapart : digitRanges.apart letterRanges = true := by decide +kernel
  have hletter : isLetter c = false := Ranges.not_contains_of_apart hapart h
  have hline : c ≠ '_' := by
    rintro rfl
    exact absurd h (by decide)
  simp [Token.startsWord, hletter, hline]

/-! ### Places in code -/

/-- What stands in front of a place in code, with its tokens: gaps and whole tokens, the keyword `asm` with
its block. What stands behind the place counts too, since a token goes as far as it can. -/
inductive Lexical.Leads : Position → List Glyph → List Glyph → List Token → Prop where
  | here {pos : Position} {gap rest : List Glyph} (hgap : Gap gap rest) : Leads pos gap rest []
  | token {pos : Position} {gap tok past rest : List Glyph} {kind : Token.Kind} {lexeme : Text} {ts : List Token}
      (hgap : Gap gap (tok ++ (past ++ rest))) (htok : Lexeme tok (past ++ rest) kind lexeme) (hkind : kind ≠ .asm) :
      Leads (pos.after (gap ++ tok)) past rest ts →
      Leads pos (gap ++ (tok ++ past)) rest (⟨kind, lexeme, pos.after gap⟩ :: ts)
  | asm {pos : Position} {gap key space body past rest : List Glyph} {lexeme : Text} {ts : List Token}
      (hgap : Gap gap (key ++ inBraces space body (past ++ rest)))
      (hkey : Lexeme key (inBraces space body (past ++ rest)) .asm lexeme)
      (hspace : Gap space (inBraces [] body (past ++ rest))) (hbody : ∀ g ∈ body, g.char ≠ '\x7d') :
      Leads (pos.after (gap ++ key ++ space ++ ⟨'\x7b', "\x7b"⟩ :: body ++ [⟨'\x7d', "\x7d"⟩])) past rest ts →
      Leads pos (gap ++ (key ++ inBraces space body past)) rest
        (⟨.asm, lexeme, pos.after gap⟩ ::
          ⟨.leftBrace, "\x7b", pos.after (gap ++ key ++ space)⟩ ::
          ⟨.rawText, .ofGlyphs body, pos.after (gap ++ key ++ space ++ [⟨'\x7b', "\x7b"⟩])⟩ ::
          ⟨.rightBrace, "\x7d", pos.after (gap ++ key ++ space ++ ⟨'\x7b', "\x7b"⟩ :: body)⟩ :: ts)

section Leads

variable {l m : Lexer} {pos : Position} {past rest : List Glyph} {ts : List Token} {source : Text}

theorem tokens_of_next (h : l.next = m.next) : l.tokens = m.tokens := by
  cases hnext : m.next with
  | mk outcome l' =>
    rw [hnext] at h
    cases outcome with
    | error e => rw [tokens_error h, tokens_error hnext]
    | ok t =>
      by_cases ht : t.kind = .eof
      · rw [tokens_stop h ht, tokens_stop hnext ht]
      · rw [tokens_more h ht, tokens_more hnext ht]

/-- In code a lexer reads the same from in front of a gap as from behind it. -/
theorem next_behind_gap {gap : List Glyph} (h : Gap gap rest) :
    (Lexer.inCode source pos (gap ++ rest)).next = (Lexer.inCode source (pos.after gap) rest).next := by
  have hfront : (Lexer.inCode source pos (gap ++ rest)).cursor.next = .ok ⟨pos.after gap, rest⟩ :=
    Cursor.next_eq_ok_iff.mpr ⟨gap, rfl, rfl, h⟩
  have hbehind : (Lexer.inCode source (pos.after gap) rest).cursor.next = .ok ⟨pos.after gap, rest⟩ :=
    Cursor.next_eq_ok_iff.mpr ⟨[], rfl, rfl, .none h.rest_starts⟩
  change Lexer.codeToken _ = Lexer.codeToken _
  rw [Lexer.codeToken, Lexer.codeToken, hfront, hbehind]
  rfl

/-- The tokens of a source are those in front of a place in code and those from there on. -/
theorem Lexical.Leads.tokens (h : Leads pos past rest ts) :
    (Lexer.inCode source pos (past ++ rest)).tokens =
      (ts ++ (Lexer.inCode source (pos.after past) rest).tokens.1,
        (Lexer.inCode source (pos.after past) rest).tokens.2) := by
  induction h with
  | here hgap =>
    rw [tokens_of_next (next_behind_gap hgap)]
    rfl
  | @token pos gap tok past rest kind lexeme ts hgap htok hkind _ ih =>
    have hbeq : (kind == .asm) = false := by simpa using hkind
    rw [List.append_assoc, List.append_assoc, tokens_more (next_inCode_complete hgap htok) htok.kind_class.1, hbeq]
    change (_ :: (Lexer.inCode source _ (past ++ rest)).tokens.1, (Lexer.inCode source _ (past ++ rest)).tokens.2) = _
    rw [ih, ← Position.after_append, List.append_assoc]
    rfl
  -- The three tokens of the block are read at once.
  | @asm pos gap key space body past rest lexeme ts hgap hkey hspace hbody _ ih =>
    have hglyphs : gap ++ (key ++ inBraces space body past) ++ rest =
        gap ++ (key ++ inBraces space body (past ++ rest)) := by simp
    rw [hglyphs, tokens_more (next_inCode_complete hgap hkey) (by simp)]
    change (_ :: (Lexer.afterKeyword source _ _).tokens.1, (Lexer.afterKeyword source _ _).tokens.2) = _
    rw [tokens_afterKeyword hspace rfl hbody rfl]
    have hpast : pos.after (gap ++ (key ++ inBraces space body past)) =
        (pos.after (gap ++ key ++ space ++ ⟨'\x7b', "\x7b"⟩ :: body ++ [⟨'\x7d', "\x7d"⟩])).after past := by
      rw [← Position.after_append]
      simp
    rw [hpast]
    simp only [Position.after_append] at ih ⊢
    rw [ih]
    rfl

/-- A run that begins with a digit is read whole, as an integer or as a fault. -/
theorem tokens_run {run : List Glyph} {g : Glyph} (hrun : IsRun (g :: run) rest) (hg : isDigit g.char = true) :
    (Token.isIntegerLiteral ((g :: run).map Glyph.char) = true →
      ∃ more fault, (Lexer.inCode source pos (g :: run ++ rest)).tokens =
        (⟨.integer, .ofGlyphs (g :: run), pos⟩ :: more, fault)) ∧
    (Token.isIntegerLiteral ((g :: run).map Glyph.char) = false →
      (Lexer.inCode source pos (g :: run ++ rest)).tokens =
        ([], some (pos, .malformedInteger (.ofGlyphs (g :: run))))) := by
  have hgap : Gap [] (g :: run ++ rest) := .none (startsGap_wordChar (hrun.1 g List.mem_cons_self))
  have hword := startsWord_of_digit hg
  constructor
  · intro hshape
    exact ⟨_, _, tokens_more (next_inCode_complete hgap (.integer hword hg hrun hshape)) (by simp)⟩
  · intro hshape
    obtain ⟨g', more, l', heq, hstep⟩ := tokenAt_misfit (Lexer.inCode source pos (g :: run ++ rest)) pos
      (.integer hword hg hrun hshape)
    obtain ⟨rfl, -⟩ := List.cons.inj heq
    have hcursor : (Lexer.inCode source pos (g :: run ++ rest)).cursor.next = .ok ⟨pos, g :: run ++ rest⟩ :=
      Cursor.next_eq_ok_iff.mpr ⟨[], rfl, rfl, hgap⟩
    have hnext := codeToken_eq hcursor rfl
    rw [hstep] at hnext
    exact tokens_error hnext

end Leads

/-! ### Agreement -/

/-- The parser reads a number that sixteen bits can hold, and finds any other too large. -/
theorem primary_number {t : Token} {n : Nat} (hkind : t.kind = .integer) (hn : WritesNumber t.lexeme n)
    (stop : Token) (rest : List Token) :
    (n ≤ 65535 → ∃ value : Word, value.toNat = n ∧
      bare (primary stop (t :: rest)) = .ok (.literal value t.lexeme t.pos, rest)) ∧
    (65535 < n → bare (primary stop (t :: rest)) = .error (.eval t.pos (.tooLarge t.lexeme))) := by
  have hread := bare_primary_integer stop hkind rest
  constructor
  · intro hle
    rw [hn.ofLiteral?, if_pos hle] at hread
    exact ⟨_, (BitVec.toNat_ofNat n 16).trans (Nat.mod_eq_of_lt (by omega)), hread⟩
  · intro hlt
    rwa [hn.ofLiteral?, if_neg (by omega)] at hread

theorem Text.lex_of_tokens {source : Text} {ts : List Token} {pos : Position} {cause : LexCause}
    (h : source.tokens = (ts, some (pos, cause))) : source.lex = .error (.lex pos cause) := by
  rw [Text.lex, h]

/-- Lexer and parser agree on integer literals. An integer token writes one number, which the parser reads if
sixteen bits can hold it, and finds too large if not. In code a run of word characters that begins with a digit is
one integer token if it writes a number, and else a fault where it begins. -/
theorem integer_literals_agree (source : Text) :
    (∀ t ∈ source.tokens.1, t.kind = .integer → ∃ n, (∀ m, WritesNumber t.lexeme m ↔ m = n) ∧ ∀ stop rest,
      (n ≤ 65535 → ∃ value : Word, value.toNat = n ∧
        bare (primary stop (t :: rest)) = .ok (.literal value t.lexeme t.pos, rest)) ∧
      (65535 < n → bare (primary stop (t :: rest)) = .error (.eval t.pos (.tooLarge t.lexeme)))) ∧
    ∀ past run rest ts, source.glyphs = past ++ (run ++ rest) → Leads .start past (run ++ rest) ts →
      IsRun run rest → (∃ g ∈ run.head?, isDigit g.char = true) →
      ((∃ n, WritesNumber (.ofGlyphs run) n) → ∃ more fault, source.tokens =
        (ts ++ ⟨.integer, .ofGlyphs run, Position.start.after past⟩ :: more, fault)) ∧
      ((¬∃ n, WritesNumber (.ofGlyphs run) n) →
        source.tokens = (ts, some (Position.start.after past, .malformedInteger (.ofGlyphs run))) ∧
        source.lex = .error (.lex (Position.start.after past) (.malformedInteger (.ofGlyphs run)))) := by
  constructor
  · intro t ht hkind
    obtain ⟨n, hn⟩ := (Lexer.orderly_ofText source).tokens t ht hkind
    exact ⟨n, fun m => ⟨hn.unique, fun h => h ▸ hn⟩, primary_number hkind hn⟩
  · intro past run rest ts hglyphs hleads hrun hdigit
    obtain _ | ⟨g, run⟩ := run
    · simp at hdigit
    replace hdigit : isDigit g.char = true := by simpa using hdigit
    have hspelled : ∀ g' ∈ g :: run, g'.Spelled := fun g' hg' =>
      Glyph.spelled_glyphs (t := source) g' (by simp [hglyphs, List.mem_cons.mp hg', ← or_assoc])
    -- The tokens in front of the place are known, so the run is read as if the source began with it.
    have htokens : source.tokens = _ :=
      (congrArg (fun gs => (Lexer.inCode source .start gs).tokens) hglyphs).trans hleads.tokens
    obtain ⟨hnumber, hfault⟩ := tokens_run hrun hdigit
    rw [← isIntegerLiteral_run hrun hspelled]
    constructor
    · intro h
      obtain ⟨more, fault, hmore⟩ := hnumber h
      rw [hmore] at htokens
      exact ⟨more, fault, htokens⟩
    · intro h
      rw [hfault (by simpa using h), List.append_nil] at htokens
      exact ⟨htokens, Text.lex_of_tokens htokens⟩

/-- A hexadecimal number, and behind a comment a binary one with digits of other bases and scripts. -/
def mixedDigits : Text := "0X1f/**/0b12٣"

theorem integer_literals_agree_mixed :
    (∀ stop rest, ∃ value : Word, value.toNat = 31 ∧
      bare (primary stop (⟨.integer, "0X1f", ⟨1, 1⟩⟩ :: rest)) = .ok (.literal value "0X1f" ⟨1, 1⟩, rest)) ∧
    mixedDigits.tokens = ([⟨.integer, "0X1f", ⟨1, 1⟩⟩], some (⟨1, 9⟩, .malformedInteger "0b12٣")) ∧
    mixedDigits.lex = .error (.lex ⟨1, 9⟩ (.malformedInteger "0b12٣")) := by
  obtain ⟨hread, hplaces⟩ := integer_literals_agree mixedDigits
  have hglyphs : mixedDigits.glyphs = (['0', 'X', '1', 'f', '/', '*', '*', '/'].map Glyph.of) ++
      (['0', 'b', '1', '2', '٣'].map Glyph.of ++ []) := by cbv
  have hleads : Leads .start ([] ++ (['0', 'X', '1', 'f'].map Glyph.of ++ ['/', '*', '*', '/'].map Glyph.of))
      (['0', 'b', '1', '2', '٣'].map Glyph.of ++ []) [⟨.integer, "0X1f", ⟨1, 1⟩⟩] :=
    .token (.none rfl) (.integer rfl rfl ⟨by decide, by decide⟩ rfl) (by decide)
      (.here (.block rfl rfl (show NoClose [] by simp [NoClose]) rfl rfl (.none rfl)))
  have hshape : ¬∃ n, WritesNumber (.ofChars ['0', 'b', '1', '2', '٣']) n := by
    rw [← isIntegerLiteral_iff]
    decide
  have hmixed := (hplaces _ _ _ _ hglyphs hleads ⟨by decide, by decide⟩ ⟨_, rfl, rfl⟩).2 hshape
  have hwrites : WritesNumber (("0X" : Text) ++ .ofChars ['1', 'f']) (Nat.ofDigits 16 [1, 15].reverse) :=
    .digits (by decide) (by decide) (.cons ⟨by decide, by decide⟩ (.cons ⟨by decide, by decide⟩ .nil))
  refine ⟨fun stop rest => ?_, hmixed⟩
  obtain ⟨n, hn, hvalue⟩ := hread ⟨.integer, "0X1f", ⟨1, 1⟩⟩ (by rw [hmixed.1]; exact List.mem_singleton_self _) rfl
  obtain rfl : 31 = n := (hn 31).mp hwrites
  exact (hvalue stop rest).1 (by decide)

end Pocket

import Pocket.Fault
import Pocket.Text.Blank
import Pocket.Text.Digit
import Pocket.Text.Letter

/-!
# Reading tokens

A lexer walks over the glyphs of a source. Blanks and comments separate tokens. The keyword `asm`
switches to a verbatim mode: what stands between the following brace and the first closing brace is
one token, whatever it holds. After a fault the lexer can go on behind the offending text, and each
step that does not reach the end uses up some of the source.
-/

namespace Pocket

/-- A place in a source with the glyphs from there on. -/
structure Cursor where
  pos : Position
  rest : List Glyph
  deriving DecidableEq, Repr

namespace Cursor

/-- The beginning of a source. -/
def ofText (source : Text) : Cursor :=
  ⟨.start, source.glyphs⟩

/-- The cursor some glyphs further on. -/
def skip (c : Cursor) (n : Nat) : Cursor :=
  ⟨c.pos.after (c.rest.take n), c.rest.drop n⟩

/-- The cursor at the end of the source. -/
def finish (c : Cursor) : Cursor :=
  ⟨c.pos.after c.rest, []⟩

/-- The glyphs from here on whose characters all pass a test. -/
def run (c : Cursor) (test : Char → Bool) : List Glyph :=
  c.rest.takeWhile fun g => test g.char

/-- The character here, if the source goes on. -/
def char? (c : Cursor) : Option Char :=
  c.rest.head?.map Glyph.char

/-! ### Blanks and comments -/

/-- What is being skipped: blanks, a comment up to the end of its line, or a comment that began at a
position and has to be closed. -/
inductive Skipping where
  | blanks
  | line
  | block (start : Position)

/-- Skips blanks and comments. The result is a cursor at the next token, or the place where a comment
began that is never closed. -/
def skipTrivia : Skipping → Position → List Glyph → Except Position Cursor
  | .blanks, pos, ⟨'/', _⟩ :: ⟨'/', _⟩ :: rest => skipTrivia .line ((pos.next '/').next '/') rest
  | .blanks, pos, ⟨'/', _⟩ :: ⟨'*', _⟩ :: rest =>
    skipTrivia (.block pos) ((pos.next '/').next '*') rest
  | .blanks, pos, g :: rest =>
    if isBlank g.char then skipTrivia .blanks (pos.next g.char) rest else .ok ⟨pos, g :: rest⟩
  | .blanks, pos, [] => .ok ⟨pos, []⟩
  | .line, pos, g :: rest =>
    skipTrivia (if g.char = '\n' then .blanks else .line) (pos.next g.char) rest
  | .line, pos, [] => .ok ⟨pos, []⟩
  | .block _, pos, ⟨'*', _⟩ :: ⟨'/', _⟩ :: rest =>
    skipTrivia .blanks ((pos.next '*').next '/') rest
  | .block start, pos, g :: rest => skipTrivia (.block start) (pos.next g.char) rest
  | .block start, _, [] => .error start

/-- The cursor at the next token, or the place where an unclosed comment began. -/
def next (c : Cursor) : Except Position Cursor :=
  skipTrivia .blanks c.pos c.rest

theorem length_skipTrivia_le (mode : Skipping) (pos : Position) (gs : List Glyph) (c : Cursor)
    (h : skipTrivia mode pos gs = .ok c) : c.rest.length ≤ gs.length := by
  fun_induction skipTrivia mode pos gs <;> grind

theorem length_next_le {c d : Cursor} (h : c.next = .ok d) : d.rest.length ≤ c.rest.length :=
  length_skipTrivia_le _ _ _ _ h

@[simp] theorem length_rest_skip (c : Cursor) (n : Nat) :
    (c.skip n).rest.length = c.rest.length - n := by
  simp [skip]

end Cursor

namespace Token

/-! ### Shapes of tokens -/

/-- Whether a character may begin a word. -/
def startsWord (c : Char) : Bool :=
  isLetter c || c == '_'

/-- Whether a character may stand in a word or a number. -/
def isWordChar (c : Char) : Bool :=
  isLetter c || isDigit c || c == '_'

/-- Whether characters are one or more digits of the given sort. -/
def isDigits (digit : Char → Bool) (cs : List Char) : Bool :=
  !cs.isEmpty && cs.all digit

/-- Whether a character is a hexadecimal digit. -/
def isHexDigit (c : Char) : Bool :=
  ('0' ≤ c && c ≤ '9') || ('a' ≤ c && c ≤ 'f') || ('A' ≤ c && c ≤ 'F')

/-- Whether a word is an integer literal: decimal, hexadecimal after `0x`, or binary after `0b`. -/
def isIntegerLiteral : List Char → Bool
  | '0' :: 'x' :: ds | '0' :: 'X' :: ds => isDigits isHexDigit ds
  | '0' :: 'b' :: ds | '0' :: 'B' :: ds => isDigits (fun c => c == '0' || c == '1') ds
  | ds => isDigits (fun c => '0' ≤ c && c ≤ '9') ds

/-- The kind of a word: a keyword or an identifier. -/
def wordKind (word : Text) : Kind :=
  if word = "void" then .void
  else if word = "int" then .int
  else if word = "char" then .char
  else if word = "asm" then .asm
  else .identifier

/-- The kind of a token that is a single character. -/
def punctuation? : Char → Option Kind
  | '\x7b' => some .leftBrace
  | '\x7d' => some .rightBrace
  | '(' => some .leftParen
  | ')' => some .rightParen
  | ';' => some .semicolon
  | ',' => some .comma
  | '=' => some .assign
  | '+' => some .plus
  | '-' => some .minus
  | '*' => some .star
  | '/' => some .slash
  | '%' => some .percent
  | '&' => some .amp
  | '|' => some .pipe
  | '^' => some .caret
  | '~' => some .tilde
  | _ => none

/-- The kind of a token that is a character written twice. -/
def doubled? : Char → Option Kind
  | '<' => some .shiftLeft
  | '>' => some .shiftRight
  | _ => none

/-- The number of glyphs of a string literal behind its opening quote, up to the closing quote, the
end of the line or the end of the source. A backslash takes the next glyph with it. -/
def stringLength : List Glyph → Nat
  | [] => 0
  | ⟨'"', _⟩ :: _ => 0
  | ⟨'\n', _⟩ :: _ => 0
  | [⟨'\\', _⟩] => 1
  | ⟨'\\', _⟩ :: _ :: rest => stringLength rest + 2
  | _ :: rest => stringLength rest + 1

end Token

/-- The state of reading tokens from one source. -/
structure Lexer where
  source : Text
  cursor : Cursor
  /-- The last token was the keyword `asm`. -/
  afterAsm : Bool
  /-- Tokens of an asm block that are read but not yet handed out. -/
  queue : List Token
  deriving DecidableEq, Repr

namespace Lexer

/-- A lexer at the beginning of a source. -/
def ofText (source : Text) : Lexer :=
  ⟨source, .ofText source, false, []⟩

/-- The same lexer at the beginning of its source again. -/
def reset (l : Lexer) : Lexer :=
  .ofText l.source

/-- What one step yields: a token, or a cause at a position. -/
abbrev Outcome := Except (Position × LexCause) Token

/-- The lexer at another place, with nothing in the queue. -/
def moveTo (l : Lexer) (c : Cursor) : Lexer :=
  { l with cursor := c, afterAsm := false, queue := [] }

/-- Reads a keyword or an identifier. -/
def word (l : Lexer) (c : Cursor) : Outcome × Lexer :=
  let run := c.run Token.isWordChar
  let lexeme := Text.ofGlyphs run
  let kind := Token.wordKind lexeme
  (.ok ⟨kind, lexeme, c.pos⟩, { l.moveTo (c.skip run.length) with afterAsm := kind == .asm })

/-- Reads an integer literal: the whole run of word characters has to have the shape of one. -/
def integer (l : Lexer) (c : Cursor) : Outcome × Lexer :=
  let run := c.run Token.isWordChar
  let lexeme := Text.ofGlyphs run
  let outcome : Outcome :=
    if Token.isIntegerLiteral (run.map Glyph.char) then .ok ⟨.integer, lexeme, c.pos⟩
    else .error (c.pos, .malformedInteger lexeme)
  (outcome, l.moveTo (c.skip run.length))

/-- Reads a string literal, which has to end on its line. The lexeme is what stands between the
quotes. -/
def stringLiteral (l : Lexer) (c : Cursor) : Outcome × Lexer :=
  let inside := c.skip 1
  let size := Token.stringLength inside.rest
  let close := inside.skip size
  if close.char? = some '"' then
    (.ok ⟨.string, Text.ofGlyphs (inside.rest.take size), c.pos⟩, l.moveTo (close.skip 1))
  else
    (.error (c.pos, .unterminatedString), l.moveTo close)

/-- Reads a token of one or two punctuation characters. -/
def punctuation (l : Lexer) (c : Cursor) (first : Char) : Outcome × Lexer :=
  match Token.punctuation? first with
  | some kind => (.ok ⟨kind, .ofChar first, c.pos⟩, l.moveTo (c.skip 1))
  | none =>
    match Token.doubled? first with
    | some kind =>
      if (c.skip 1).char? = some first then
        (.ok ⟨kind, .ofChars [first, first], c.pos⟩, l.moveTo (c.skip 2))
      else
        (.error (c.pos, .unexpected first), l.moveTo (c.skip 1))
    | none => (.error (c.pos, .unexpected first), l.moveTo (c.skip 1))

/-- Reads the block that has to follow the keyword `asm`: its three tokens are the opening brace,
the text up to the first closing brace, and that brace. -/
def asmBlock (l : Lexer) : Outcome × Lexer :=
  match l.cursor.next with
  | .error start => (.error (start, .unterminatedComment), l.moveTo l.cursor.finish)
  | .ok c =>
    if c.char? = some '\x7b' then
      let inside := c.skip 1
      let text := inside.run (· != '\x7d')
      let close := inside.skip text.length
      if close.rest.isEmpty then
        (.error (c.pos, .unterminatedAsm), l.moveTo close)
      else
        (.ok ⟨.leftBrace, "\x7b", c.pos⟩,
          { l.moveTo (close.skip 1) with
            queue := [⟨.rawText, .ofGlyphs text, inside.pos⟩, ⟨.rightBrace, "\x7d", close.pos⟩] })
    else
      (.error (c.pos, .asmWithoutBrace c.char?), l.moveTo c)

/-- Reads the next token in ordinary code. At the end of the source it reads the end, again and
again. -/
def codeToken (l : Lexer) : Outcome × Lexer :=
  match l.cursor.next with
  | .error start => (.error (start, .unterminatedComment), l.moveTo l.cursor.finish)
  | .ok c =>
    match c.char? with
    | none => (.ok ⟨.eof, [], c.pos⟩, l.moveTo c)
    | some first =>
      if Token.startsWord first then l.word c
      else if isDigit first then l.integer c
      else if first = '"' then l.stringLiteral c
      else l.punctuation c first

/-- The next token, or the fault in its place, and the lexer behind it. -/
def next (l : Lexer) : Outcome × Lexer :=
  match l.queue with
  | t :: queue => (.ok t, { l with queue := queue })
  | [] => if l.afterAsm then l.asmBlock else l.codeToken

/-! ### Reading to the end -/

/-- How much there is left to do; every step that yields a token before the end lowers it. -/
def remaining (l : Lexer) : Nat :=
  2 * l.cursor.rest.length + l.queue.length

@[simp] theorem remaining_moveTo (l : Lexer) (c : Cursor) :
    (l.moveTo c).remaining = 2 * c.rest.length := by
  simp [remaining, moveTo]

theorem char?_eq_some {c : Cursor} {first : Char} (h : c.char? = some first) :
    ∃ g rest, c.rest = g :: rest ∧ g.char = first := by
  unfold Cursor.char? at h
  cases hr : c.rest with
  | nil => simp [hr] at h
  | cons g rest => exact ⟨g, rest, rfl, by simpa [hr] using h⟩

theorem remaining_codeToken_lt {l : Lexer} {t : Token} (h : l.codeToken.1 = .ok t)
    (ht : t.kind ≠ .eof) : l.codeToken.2.remaining < 2 * l.cursor.rest.length := by
  unfold codeToken at h ⊢
  cases hc : l.cursor.next with
  | error start => simp [hc] at h
  | ok c =>
    have hle := Cursor.length_next_le hc
    simp only [hc] at h ⊢
    cases hf : c.char? with
    | none =>
      simp only [hf, Except.ok.injEq] at h
      exact absurd (by rw [← h]) ht
    | some first =>
      obtain ⟨g, rest, hr, hg⟩ := char?_eq_some hf
      have hpos : 0 < c.rest.length := by simp [hr]
      have hrun : Token.isWordChar first = true → 0 < (c.run Token.isWordChar).length := by
        intro hw
        simp [Cursor.run, hr, hg, hw]
      simp only [hf] at h ⊢
      split
      · next hs =>
        have hw := hrun (by
          simp only [Token.startsWord, Token.isWordChar, Bool.or_eq_true] at hs ⊢
          rcases hs with hs | hs <;> simp [hs])
        simp only [word, remaining, moveTo, Cursor.length_rest_skip, List.length_nil]
        omega
      · split
        · next hd =>
          have hw := hrun (by simp [Token.isWordChar, hd])
          simp only [integer, remaining_moveTo, Cursor.length_rest_skip]
          omega
        · split
          · simp only [stringLiteral]
            split <;> simp only [remaining_moveTo, Cursor.length_rest_skip] <;> omega
          · simp only [punctuation]
            split
            · simp only [remaining_moveTo, Cursor.length_rest_skip]; omega
            · split
              · split <;> simp only [remaining_moveTo, Cursor.length_rest_skip] <;> omega
              · simp only [remaining_moveTo, Cursor.length_rest_skip]; omega

theorem remaining_asmBlock_lt {l : Lexer} {t : Token} (h : l.asmBlock.1 = .ok t) :
    l.asmBlock.2.remaining < 2 * l.cursor.rest.length := by
  unfold asmBlock at h ⊢
  cases hc : l.cursor.next with
  | error start => simp [hc] at h
  | ok c =>
    have hle := Cursor.length_next_le hc
    simp only [hc] at h ⊢
    split at h
    · next hb =>
      obtain ⟨g, rest, hr, _⟩ := char?_eq_some hb
      rw [if_pos hb]
      split at h
      · simp at h
      · next he =>
        rw [if_neg he]
        simp only [remaining, moveTo, Cursor.length_rest_skip, List.length_cons, List.length_nil]
        have hpos : 0 < ((c.skip 1).skip ((c.skip 1).run (· != '\x7d')).length).rest.length := by
          cases hcl : ((c.skip 1).skip ((c.skip 1).run (· != '\x7d')).length).rest with
          | nil => simp [hcl] at he
          | cons => simp
        simp only [Cursor.length_rest_skip] at hpos
        omega
    · simp at h

/-- A step that yields a token before the end uses up some of the source. -/
theorem remaining_next_lt {l : Lexer} {t : Token} (h : l.next.1 = .ok t) (ht : t.kind ≠ .eof) :
    l.next.2.remaining < l.remaining := by
  unfold next at h ⊢
  cases hq : l.queue with
  | cons u queue => simp [remaining, hq]
  | nil =>
    simp only [hq] at h ⊢
    have hl : l.remaining = 2 * l.cursor.rest.length := by simp [remaining, hq]
    by_cases ha : l.afterAsm
    · simp only [ha, if_true] at h ⊢
      rw [hl]
      exact remaining_asmBlock_lt h
    · simp only [ha] at h ⊢
      rw [hl]
      exact remaining_codeToken_lt h ht

/-- All tokens from here on, up to and including the end, or up to the first fault. -/
def tokens (l : Lexer) : List Token × Option (Position × LexCause) :=
  match _h : l.next with
  | (.error e, _) => ([], some e)
  | (.ok t, l') =>
    if _ht : t.kind = .eof then ([t], none)
    else
      let (ts, e) := l'.tokens
      (t :: ts, e)
termination_by l.remaining
decreasing_by
  have := remaining_next_lt (l := l) (t := t) (by rw [_h]) _ht
  rwa [_h] at this

end Lexer

/-- The tokens of a source up to and including the end, or those before the first fault with it. -/
def Text.tokens (source : Text) : List Token × Option (Position × LexCause) :=
  (Lexer.ofText source).tokens

/-- The tokens of a source that can be read to its end. -/
def Text.lex (source : Text) : Except Fault (List Token) :=
  match source.tokens with
  | (ts, none) => .ok ts
  | (_, some (pos, cause)) => .error (.lex pos cause)

end Pocket

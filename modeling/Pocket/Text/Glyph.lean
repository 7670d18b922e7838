import Pocket.Text.Basic

/-!
# Glyphs

A text read as UTF-8. A glyph is one character together with the bytes that spell it, so that a text
is always the concatenation of its glyphs' bytes. A byte that begins no well-formed spelling is a
glyph of its own and is read as the replacement character. Columns, widths and character classes
count and test glyphs; lexemes are cut out as bytes.
-/

namespace Pocket

/-- A character as it stands in a text, with the bytes that spell it. -/
structure Glyph where
  char : Char
  bytes : Text
  deriving DecidableEq, Repr

namespace Text

/-- The bytes that spell a character. -/
def ofChar (c : Char) : Text :=
  String.utf8EncodeChar c

/-- The bytes that spell some characters. -/
def ofChars (cs : List Char) : Text :=
  cs.flatMap ofChar

end Text

namespace Glyph

/-- What an ill-formed byte is read as. -/
def replacement : Char := '\uFFFD'

/-- The number of bytes that a spelling beginning with `b` takes; zero if none begins so. -/
def spellingLength (b : UInt8) : Nat :=
  if b < 0x80 then 1
  else if b < 0xC0 then 0
  else if b < 0xE0 then 2
  else if b < 0xF0 then 3
  else if b < 0xF8 then 4
  else 0

/-- The code point whose bits a spelling holds. -/
def codePoint : Text → Nat
  | [a] => a.toNat
  | [a, b] => a.toNat % 32 * 64 + b.toNat % 64
  | [a, b, c] => a.toNat % 16 * 4096 + b.toNat % 64 * 64 + c.toNat % 64
  | [a, b, c, d] =>
    a.toNat % 8 * 262144 + b.toNat % 64 * 4096 + c.toNat % 64 * 64 + d.toNat % 64
  | _ => 0

/-- The character that exactly these bytes spell. Comparing with the character's own spelling
refuses overlong forms, surrogates and stray bytes at once. -/
def spelled? (bytes : Text) : Option Char :=
  let c := Char.ofNat (codePoint bytes)
  if Text.ofChar c = bytes then some c else none

/-- The glyph a text begins with, given its first byte and the rest. -/
def first (b : UInt8) (rest : Text) : Glyph :=
  let bytes := (b :: rest).take (spellingLength b)
  match spelled? bytes with
  | some c => ⟨c, bytes⟩
  | none => ⟨replacement, [b]⟩

/-- A glyph takes the first byte and perhaps some that follow. -/
theorem first_bytes (b : UInt8) (rest : Text) : ∃ k, (first b rest).bytes = b :: rest.take k := by
  unfold first
  dsimp only
  split
  · next c h =>
    cases hn : spellingLength b with
    | zero =>
      rw [hn, List.take_zero] at h
      rw [show spelled? [] = none by decide] at h
      exact absurd h (by simp)
    | succ n => exact ⟨n, by simp⟩
  · exact ⟨0, by simp⟩

/-- Whether the glyph is a byte that spells no character. -/
def isIllFormed (g : Glyph) : Bool :=
  g.char == replacement && g.bytes.length == 1

end Glyph

namespace Text

/-- The glyphs of a text after the first `skip` bytes. -/
def glyphsAfter : Nat → Text → List Glyph
  | _, [] => []
  | skip + 1, _ :: rest => glyphsAfter skip rest
  | 0, b :: rest =>
    let g := Glyph.first b rest
    g :: glyphsAfter (g.bytes.length - 1) rest

/-- The glyphs of a text. -/
def glyphs (t : Text) : List Glyph :=
  glyphsAfter 0 t

/-- The text that some glyphs spell. -/
def ofGlyphs (gs : List Glyph) : Text :=
  gs.flatMap Glyph.bytes

/-- The number of characters in a text. -/
def width (t : Text) : Nat :=
  t.glyphs.length

/-- Filled up with spaces on the right to a width in characters. -/
def padRight (n : Nat) (t : Text) : Text :=
  t ++ spaces (n - t.width)

/-- Filled up with spaces on the left to a width in characters. -/
def padLeft (n : Nat) (t : Text) : Text :=
  spaces (n - t.width) ++ t

/-! ### A text is the concatenation of its glyphs -/

theorem glyphsAfter_eq_drop (skip : Nat) (t : Text) :
    glyphsAfter skip t = glyphs (t.drop skip) := by
  induction skip generalizing t with
  | zero => rfl
  | succ n ih => cases t with
    | nil => rfl
    | cons b rest => simpa [glyphsAfter] using ih rest

theorem ofGlyphs_glyphsAfter (skip : Nat) (t : Text) :
    ofGlyphs (glyphsAfter skip t) = t.drop skip := by
  fun_induction glyphsAfter skip t with
  | case1 => simp [ofGlyphs]
  | case2 skip b rest ih => simpa using ih
  | case3 b rest g ih =>
    obtain ⟨k, hk⟩ := Glyph.first_bytes b rest
    have hg : g.bytes = b :: rest.take k := hk
    simp only [ofGlyphs, List.flatMap_cons, List.drop_zero] at ih ⊢
    rw [ih, hg]
    simp only [List.cons_append, List.length_cons, Nat.add_sub_cancel, List.length_take]
    congr 1
    by_cases hle : k ≤ rest.length
    · rw [Nat.min_eq_left hle, List.take_append_drop]
    · rw [Nat.min_eq_right (by omega), List.take_of_length_le (by omega)]
      simp

/-- Reading a text as glyphs loses nothing. -/
@[simp] theorem ofGlyphs_glyphs (t : Text) : ofGlyphs t.glyphs = t :=
  ofGlyphs_glyphsAfter 0 t

end Text

end Pocket

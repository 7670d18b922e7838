import Pocket.Text.Glyph

/-!
# Spelling of glyphs

A glyph of a text is spelled as its character, or it is a byte beyond the ASCII range that spells
none. So an ASCII byte occurs in a text only as the glyph of its character.
-/

namespace Pocket

/-- An ASCII byte in the spelling of a character is that character. -/
theorem toNat_eq_of_mem_ofChar {c : Char} {b : UInt8} (hb : b.toNat < 128) (h : b ∈ Text.ofChar c) :
    c.toNat = b.toNat := by
  revert b
  unfold Text.ofChar String.utf8EncodeChar Char.toNat
  dsimp only
  split
  · intro b hb h
    obtain rfl := List.mem_singleton.mp h
    simp only [UInt8.toNat_ofNat'] at hb ⊢
    omega
  -- All bytes of a longer spelling lie beyond the ASCII range.
  · split
    · intro b hb h
      simp only [List.mem_cons, List.not_mem_nil, or_false] at h
      rcases h with rfl | rfl <;> simp only [UInt8.toNat_ofNat'] at hb <;> omega
    · split
      · intro b hb h
        simp only [List.mem_cons, List.not_mem_nil, or_false] at h
        rcases h with rfl | rfl | rfl <;> simp only [UInt8.toNat_ofNat'] at hb <;> omega
      · intro b hb h
        simp only [List.mem_cons, List.not_mem_nil, or_false] at h
        rcases h with rfl | rfl | rfl | rfl <;> simp only [UInt8.toNat_ofNat'] at hb <;> omega

theorem ofChar_ofNat {b : UInt8} (hb : b.toNat < 128) : Text.ofChar (Char.ofNat b.toNat) = [b] := by
  have hvalid : Nat.isValidChar b.toNat := by
    unfold Nat.isValidChar
    omega
  have hval : (Char.ofNat b.toNat).val.toNat = b.toNat := by
    unfold Char.ofNat
    rw [dif_pos hvalid]
    rfl
  unfold Text.ofChar String.utf8EncodeChar
  dsimp only
  rw [hval, if_pos (by omega)]
  simp

theorem Text.ofGlyphs_append (gs hs : List Glyph) :
    Text.ofGlyphs (gs ++ hs) = Text.ofGlyphs gs ++ Text.ofGlyphs hs := by
  simp [Text.ofGlyphs]

theorem Text.ofGlyphs_cons (g : Glyph) (gs : List Glyph) :
    Text.ofGlyphs (g :: gs) = g.bytes ++ Text.ofGlyphs gs := by
  simp [Text.ofGlyphs]

namespace Glyph

/-- A glyph has the spelling of its character, or it is a byte beyond the ASCII range that was read as
the replacement character. -/
def Spelled (g : Glyph) : Prop :=
  g.bytes = Text.ofChar g.char ∨ (g.char = replacement ∧ ∃ b : UInt8, 128 ≤ b.toNat ∧ g.bytes = [b])

theorem spelled?_ascii {b : UInt8} (hb : b.toNat < 128) : spelled? [b] = some (Char.ofNat b.toNat) := by
  simp [spelled?, codePoint, ofChar_ofNat hb]

theorem spelled_first (b : UInt8) (rest : Text) : (first b rest).Spelled := by
  unfold first
  dsimp only
  split
  · next c hc =>
    unfold spelled? at hc
    dsimp only at hc
    split at hc
    · next heq =>
      cases hc
      exact .inl heq.symm
    · cases hc
  · next hnone =>
    refine .inr ⟨rfl, b, ?_, rfl⟩
    rcases Nat.lt_or_ge b.toNat 128 with hb | hb
    · have hlength : spellingLength b = 1 := by
        rw [spellingLength, if_pos (UInt8.lt_iff_toNat_lt.mpr hb)]
      rw [hlength, List.take_succ_cons, List.take_zero, spelled?_ascii hb] at hnone
      cases hnone
    · exact hb

theorem spelled_glyphsAfter (skip : Nat) (t : Text) : ∀ g ∈ Text.glyphsAfter skip t, g.Spelled := by
  fun_induction Text.glyphsAfter skip t with
  | case1 => simp
  | case2 skip b rest ih => exact ih
  | case3 b rest g ih => exact List.forall_mem_cons.mpr ⟨spelled_first b rest, ih⟩

theorem spelled_glyphs {t : Text} : ∀ g ∈ t.glyphs, g.Spelled :=
  spelled_glyphsAfter 0 t

theorem Spelled.bytes_eq {g : Glyph} (h : g.Spelled) {c : Char} (hc : g.char = c)
    (hne : c ≠ replacement) : g.bytes = Text.ofChar c := by
  rcases h with hbytes | ⟨hchar, -⟩
  · rw [hbytes, hc]
  · exact absurd (hc.symm.trans hchar) hne

/-- The byte of an ASCII character occurs in no glyph of another character. -/
theorem Spelled.not_mem_bytes {g : Glyph} (h : g.Spelled) {c : Char} (hc : c.toNat < 128)
    (hne : g.char ≠ c) : c.toUInt8 ∉ g.bytes := by
  have hbyte : c.toUInt8.toNat = c.toNat := by
    simp only [Char.toUInt8, UInt32.toNat_toUInt8, Char.toNat] at hc ⊢
    omega
  intro hmem
  rcases h with hbytes | ⟨-, b, hb, hbytes⟩
  · rw [hbytes] at hmem
    have heq := toNat_eq_of_mem_ofChar (by omega) hmem
    exact hne (Char.toNat_inj.mp (heq.trans hbyte))
  · rw [hbytes, List.mem_singleton] at hmem
    rw [hmem] at hbyte
    omega

end Glyph

end Pocket

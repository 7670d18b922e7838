import Pocket.Proofs.Glyphs

/-!
# Reading pieces of a text

A text begins with the glyph of a character exactly if it begins with the spelling of that character.
So a piece that is cut out between two glyphs of a text is read as it was read in the text, and texts
that are put together where a spelling begins are read one after the other.
-/

namespace Pocket

namespace Glyph

theorem spellingLength_eq (b : UInt8) : spellingLength b =
    if b.toNat < 128 then 1 else if b.toNat < 192 then 0 else if b.toNat < 224 then 2
    else if b.toNat < 240 then 3 else if b.toNat < 248 then 4 else 0 := by
  unfold spellingLength
  simp only [UInt8.lt_iff_toNat_lt]
  rfl

end Glyph

/-! ### Spellings of characters -/

theorem char_val_lt (c : Char) : c.val.toNat < 1114112 := by
  have hvalid := c.valid
  unfold UInt32.isValidChar Nat.isValidChar at hvalid
  omega

/-- The first byte of a spelling tells its length, and the others lie in a range of their own. -/
theorem ofChar_shape (c : Char) : ∃ b tail, Text.ofChar c = b :: tail ∧
    Glyph.spellingLength b = tail.length + 1 ∧ ∀ x ∈ tail, Glyph.spellingLength x = 0 := by
  have hbound := char_val_lt c
  have hcontinues : ∀ n, Glyph.spellingLength (UInt8.ofNat (n % 64 + 128)) = 0 := by
    intro n
    rw [Glyph.spellingLength_eq, UInt8.toNat_ofNat', if_neg (by omega), if_pos (by omega)]
  unfold Text.ofChar String.utf8EncodeChar
  dsimp only
  -- The four lengths of a spelling, each with its own range of first bytes.
  split
  · refine ⟨_, _, rfl, ?_, by simp⟩
    rw [Glyph.spellingLength_eq, UInt8.toNat_ofNat', if_pos (by omega)]
    rfl
  · split
    · refine ⟨_, _, rfl, ?_, List.forall_mem_singleton.mpr (hcontinues _)⟩
      rw [Glyph.spellingLength_eq, UInt8.toNat_ofNat', if_neg (by omega), if_neg (by omega),
        if_pos (by omega)]
      rfl
    · split
      · refine ⟨_, _, rfl, ?_, List.forall_mem_cons.mpr ⟨hcontinues _,
          List.forall_mem_singleton.mpr (hcontinues _)⟩⟩
        rw [Glyph.spellingLength_eq, UInt8.toNat_ofNat', if_neg (by omega), if_neg (by omega),
          if_neg (by omega), if_pos (by omega)]
        rfl
      · refine ⟨_, _, rfl, ?_, List.forall_mem_cons.mpr ⟨hcontinues _, List.forall_mem_cons.mpr
          ⟨hcontinues _, List.forall_mem_singleton.mpr (hcontinues _)⟩⟩⟩
        rw [Glyph.spellingLength_eq, UInt8.toNat_ofNat', if_neg (by omega), if_neg (by omega),
          if_neg (by omega), if_neg (by omega), if_pos (by omega)]
        rfl

theorem codePoint_ofChar (c : Char) : Glyph.codePoint (Text.ofChar c) = c.toNat := by
  have hbound := char_val_lt c
  unfold Text.ofChar String.utf8EncodeChar Char.toNat
  dsimp only
  split
  · simp only [Glyph.codePoint, UInt8.toNat_ofNat']
    omega
  · split
    · simp only [Glyph.codePoint, UInt8.toNat_ofNat']
      omega
    · split
      · simp only [Glyph.codePoint, UInt8.toNat_ofNat']
        omega
      · simp only [Glyph.codePoint, UInt8.toNat_ofNat']
        omega

namespace Glyph

theorem spelled?_ofChar (c : Char) : spelled? (Text.ofChar c) = some c := by
  simp [spelled?, codePoint_ofChar, Char.ofNat_toNat]

/-- The glyph of a character that is spelled out. -/
def of (c : Char) : Glyph := ⟨c, Text.ofChar c⟩

variable {b : UInt8} {rest more : Text} {c : Char}

theorem first_of_begins (h : Text.ofChar c <+: b :: rest) : first b rest = of c := by
  obtain ⟨b', tail, hc, hlength, -⟩ := ofChar_shape c
  obtain ⟨after, hafter⟩ := h
  have htake : (b :: rest).take (spellingLength b) = Text.ofChar c := by
    rw [hc] at hafter
    obtain ⟨rfl, -⟩ := List.cons.inj hafter
    rw [hlength, ← hafter, hc]
    simp
  rw [first, htake, spelled?_ofChar]
  rfl

theorem first_of_ill_formed (h : ∀ c, ¬Text.ofChar c <+: b :: rest) :
    first b rest = ⟨replacement, [b]⟩ := by
  unfold first
  dsimp only
  split
  · next c hc =>
    unfold spelled? at hc
    dsimp only at hc
    split at hc
    · next heq =>
      cases hc
      refine absurd ?_ (h (Char.ofNat (codePoint ((b :: rest).take (spellingLength b)))))
      rw [heq]
      exact List.take_prefix _ _
    · cases hc
  · rfl

/-- A text begins with the spelling of a character, or its first byte is ill-formed. -/
theorem first_cases (b : UInt8) (rest : Text) :
    (∃ c, Text.ofChar c <+: b :: rest ∧ first b rest = of c) ∨
      ((∀ c, ¬Text.ofChar c <+: b :: rest) ∧ first b rest = ⟨replacement, [b]⟩) := by
  by_cases h : ∃ c, Text.ofChar c <+: b :: rest
  · obtain ⟨c, hc⟩ := h
    exact .inl ⟨c, hc, first_of_begins hc⟩
  · have hnone : ∀ c, ¬Text.ofChar c <+: b :: rest := fun c hc => h ⟨c, hc⟩
    exact .inr ⟨hnone, first_of_ill_formed hnone⟩

/-- What follows a glyph does not count for reading it. -/
theorem first_of_bytes_begin (hbytes : (first b rest).bytes <+: b :: more)
    (hmore : more <+: rest) : first b more = first b rest := by
  rcases first_cases b rest with ⟨c, -, hfirst⟩ | ⟨hnone, hfirst⟩
  · rw [hfirst] at hbytes ⊢
    exact first_of_begins hbytes
  · rw [hfirst]
    refine first_of_ill_formed fun c hc => hnone c (hc.trans ?_)
    exact List.cons_prefix_cons.mpr ⟨rfl, hmore⟩

/-- Nothing, or a byte that begins a spelling, can only follow a whole glyph. -/
def Fresh (t : Text) : Prop :=
  ∀ b ∈ t.head?, spellingLength b ≠ 0

theorem fresh_ofChar (c : Char) (t : Text) : Fresh (Text.ofChar c ++ t) := by
  obtain ⟨b, tail, hc, hlength, -⟩ := ofChar_shape c
  intro x hx
  rw [hc] at hx
  obtain rfl : b = x := by simpa using hx
  omega

theorem first_append (hmore : Fresh more) : first b (rest ++ more) = first b rest := by
  rcases first_cases b rest with ⟨c, hc, hfirst⟩ | ⟨hnone, hfirst⟩
  · rw [hfirst]
    refine first_of_begins (hc.trans ?_)
    exact List.prefix_append (b :: rest) more
  · rw [hfirst]
    refine first_of_ill_formed fun c hc => ?_
    have hrest : b :: rest <+: b :: (rest ++ more) := List.prefix_append (b :: rest) more
    rcases Nat.le_total (Text.ofChar c).length (b :: rest).length with hle | hle
    · exact hnone c (List.prefix_of_prefix_length_le hc hrest hle)
    · -- The spelling reaches beyond the first text, so its last bytes continue no spelling there.
      obtain ⟨mid, hmid⟩ := List.prefix_of_prefix_length_le hrest hc hle
      obtain ⟨b', tail, hshape, -, htail⟩ := ofChar_shape c
      cases mid with
      | nil =>
        rw [List.append_nil] at hmid
        exact hnone c (hmid ▸ List.prefix_refl _)
      | cons x mid =>
        have hx : x ∈ tail := by
          rw [hshape] at hmid
          obtain ⟨-, rfl⟩ := List.cons.inj hmid
          simp
        have hhead : x ∈ more.head? := by
          obtain ⟨after, hafter⟩ := hc
          rw [← hmid] at hafter
          have htext : x :: mid ++ after = more := by simpa using hafter
          simp [← htext]
        exact hmore x hhead (htail x hx)

end Glyph

/-! ### Pieces -/

namespace Text

variable {t more : Text} {as bs : List Glyph} {g : Glyph}

/-- The glyphs of a text are its first glyph and those of what follows. -/
theorem glyphs_cons_eq (b : UInt8) (rest : Text) : ∃ after,
    b :: rest = (Glyph.first b rest).bytes ++ after ∧
      glyphs (b :: rest) = Glyph.first b rest :: glyphs after := by
  obtain ⟨k, hk⟩ := Glyph.first_bytes b rest
  refine ⟨rest.drop ((Glyph.first b rest).bytes.length - 1), ?_, ?_⟩
  · rw [hk]
    simp only [List.length_cons, Nat.add_sub_cancel, List.length_take, List.cons_append]
    congr 1
    rcases Nat.le_total k rest.length with hle | hle
    · rw [Nat.min_eq_left hle, List.take_append_drop]
    · rw [Nat.min_eq_right hle, List.take_of_length_le hle]
      simp
  · rw [glyphs, glyphsAfter, glyphsAfter_eq_drop]

/-- A text whose glyphs begin with a given one. -/
theorem glyphs_eq_cons (h : t.glyphs = g :: bs) : ∃ b rest after,
    t = b :: rest ∧ Glyph.first b rest = g ∧ t = g.bytes ++ after ∧ after.glyphs = bs := by
  cases t with
  | nil => cases h
  | cons b rest =>
    obtain ⟨after, htext, hglyphs⟩ := glyphs_cons_eq b rest
    rw [hglyphs] at h
    obtain ⟨hg, hbs⟩ := List.cons.inj h
    exact ⟨b, rest, after, rfl, hg, hg ▸ htext, hbs⟩

/-- What follows some glyphs of a text is read as in the text. -/
theorem glyphs_back (h : t.glyphs = as ++ bs) : (ofGlyphs bs).glyphs = bs := by
  induction as generalizing t with
  | nil =>
    rw [List.nil_append] at h
    rw [← h, ofGlyphs_glyphs]
  | cons g as ih =>
    obtain ⟨-, -, after, -, -, -, hafter⟩ := glyphs_eq_cons h
    exact ih hafter

/-- What precedes some glyphs of a text is read as in the text. -/
theorem glyphs_front (h : t.glyphs = as ++ bs) : (ofGlyphs as).glyphs = as := by
  induction as generalizing t with
  | nil => rfl
  | cons g as ih =>
    rw [List.cons_append] at h
    obtain ⟨b, rest, after, rfl, hg, htext, hafter⟩ := glyphs_eq_cons h
    have hread := ih hafter
    obtain ⟨k, hk⟩ := Glyph.first_bytes b rest
    rw [hg] at hk
    rw [hk, List.cons_append, List.cons.injEq] at htext
    -- The glyphs that are kept begin as the text does, so the first of them is read as before.
    have hbegins : rest.take k ++ ofGlyphs as <+: rest := by
      refine ⟨ofGlyphs bs, ?_⟩
      rw [List.append_assoc, ← ofGlyphs_append, ← hafter, ofGlyphs_glyphs]
      exact htext.2.symm
    have hfirst : Glyph.first b (rest.take k ++ ofGlyphs as) = g := by
      rw [← hg]
      refine Glyph.first_of_bytes_begin ?_ hbegins
      rw [hg, hk]
      exact List.prefix_append (b :: rest.take k) _
    obtain ⟨after', htext', hglyphs⟩ := glyphs_cons_eq b (rest.take k ++ ofGlyphs as)
    rw [hfirst] at hglyphs htext'
    have hafter' : after' = ofGlyphs as := by
      rw [hk, List.cons_append, List.cons.injEq] at htext'
      exact (List.append_cancel_left htext'.2).symm
    rw [ofGlyphs_cons, hk, List.cons_append, hglyphs, hafter', hread]

theorem glyphs_middle {cs : List Glyph} (h : t.glyphs = as ++ (bs ++ cs)) :
    (ofGlyphs bs).glyphs = bs :=
  glyphs_front (glyphs_back h)

/-- Texts are read one after the other if the second begins with a spelling. -/
theorem glyphs_append (t : Text) (hmore : Glyph.Fresh more) :
    (t ++ more).glyphs = t.glyphs ++ more.glyphs := by
  generalize hn : t.length = n
  induction n using Nat.strongRecOn generalizing t with
  | ind n ih =>
    cases t with
    | nil => rfl
    | cons b rest =>
      obtain ⟨after, htext, hglyphs⟩ := glyphs_cons_eq b rest
      obtain ⟨after', htext', hglyphs'⟩ := glyphs_cons_eq b (rest ++ more)
      rw [Glyph.first_append hmore] at hglyphs' htext'
      have hafter : after' = after ++ more := by
        rw [← List.cons_append, htext, List.append_assoc] at htext'
        exact (List.append_cancel_left htext').symm
      have hshort : after.length < n := by
        obtain ⟨k, hk⟩ := Glyph.first_bytes b rest
        have hlength := congrArg List.length htext
        rw [hk] at hlength
        simp only [List.length_cons, List.length_append] at hlength hn
        omega
      rw [List.cons_append, hglyphs', hafter, ih after.length hshort after rfl, hglyphs]
      rfl

theorem glyphs_ofChar_append (c : Char) (t : Text) :
    (ofChar c ++ t).glyphs = Glyph.of c :: t.glyphs := by
  obtain ⟨b, tail, hc, -⟩ := ofChar_shape c
  obtain ⟨after, htext, hglyphs⟩ := glyphs_cons_eq b (tail ++ t)
  have hfirst : Glyph.first b (tail ++ t) = Glyph.of c := by
    refine Glyph.first_of_begins ?_
    rw [← List.cons_append, ← hc]
    exact List.prefix_append _ _
  rw [hfirst, ← List.cons_append, ← hc] at htext hglyphs
  rw [hglyphs, List.append_cancel_left htext]

end Text

/-! ### Bytes and glyphs -/

/-- The byte that ends a line. -/
def newline : UInt8 := '\n'.toUInt8

section Bytes

variable {g : Glyph} {gs : List Glyph} {c : Char}

theorem spelled_of_glyphs {t : Text} (h : t.glyphs = gs) : ∀ g ∈ gs, g.Spelled :=
  h ▸ Glyph.spelled_glyphs

theorem ofChar_ascii (hc : c.toNat < 128) : Text.ofChar c = [c.toUInt8] := by
  have hbyte : c.toUInt8.toNat = c.toNat := by
    simp only [Char.toUInt8, UInt32.toNat_toUInt8, Char.toNat] at hc ⊢
    omega
  have h := ofChar_ofNat (b := c.toUInt8) (by omega)
  rwa [hbyte, Char.ofNat_toNat] at h

theorem Glyph.Spelled.bytes_of_ascii (hg : g.Spelled) (hchar : g.char = c) (hc : c.toNat < 128) :
    g.bytes = Text.ofChar c := by
  refine hg.bytes_eq hchar ?_
  rintro rfl
  exact absurd hc (by decide)

/-- An ASCII byte is a whole glyph. -/
theorem Glyph.Spelled.of_mem (hg : g.Spelled) (hc : c.toNat < 128) (h : c.toUInt8 ∈ g.bytes) :
    g.char = c ∧ g.bytes = Text.ofChar c := by
  have hchar : g.char = c := Classical.byContradiction fun hne => hg.not_mem_bytes hc hne h
  exact ⟨hchar, hg.bytes_of_ascii hchar hc⟩

theorem not_mem_ofGlyphs (hspelled : ∀ g ∈ gs, g.Spelled) (hc : c.toNat < 128)
    (h : ∀ g ∈ gs, g.char ≠ c) : c.toUInt8 ∉ Text.ofGlyphs gs := by
  rw [Text.ofGlyphs, List.mem_flatMap]
  rintro ⟨g, hg, hmem⟩
  exact (hspelled g hg).not_mem_bytes hc (h g hg) hmem

theorem Glyph.Spelled.ne_nil (hg : g.Spelled) : g.bytes ≠ [] := by
  rcases hg with hbytes | ⟨-, b, -, hbytes⟩
  · obtain ⟨b, tail, hchar, -⟩ := ofChar_shape g.char
    simp [hbytes, hchar]
  · simp [hbytes]

/-- A text that begins with an ASCII byte begins with its glyph. -/
theorem head_of_bytes (hspelled : ∀ g ∈ gs, g.Spelled) (hc : c.toNat < 128) {after : Text}
    (h : Text.ofGlyphs gs = c.toUInt8 :: after) : ∃ more, gs.map Glyph.char = c :: more := by
  cases gs with
  | nil => cases h
  | cons g gs =>
    have hg := hspelled g (by simp)
    rw [Text.ofGlyphs_cons] at h
    obtain ⟨b, tail, hbytes⟩ := List.exists_cons_of_ne_nil hg.ne_nil
    rw [hbytes, List.cons_append] at h
    obtain ⟨rfl, -⟩ := List.cons.inj h
    obtain ⟨hchar, -⟩ := hg.of_mem hc (by simp [hbytes])
    exact ⟨gs.map Glyph.char, by simp [hchar]⟩

/-- The first byte of a text, if it is ASCII, tells the first character. -/
theorem head_char {b : UInt8} (hg : g.Spelled) (hb : b ∈ (Text.ofGlyphs (g :: gs)).head?)
    (hlt : b.toNat < 128) : g.char = Char.ofNat b.toNat := by
  obtain ⟨c, tail, hbytes⟩ := List.exists_cons_of_ne_nil hg.ne_nil
  rw [Text.ofGlyphs_cons, hbytes] at hb
  obtain rfl : c = b := by simpa using hb
  rcases hg with hspelling | ⟨-, d, hd, hspelling⟩
  · rw [← toNat_eq_of_mem_ofChar hlt (by rw [← hspelling, hbytes]; simp), Char.ofNat_toNat]
  · rw [hbytes] at hspelling
    obtain ⟨rfl, -⟩ := List.cons.inj hspelling
    omega

end Bytes

end Pocket

import Mathlib
import Pocket.Proofs.Pieces

/-!
# Trimming

Trimming takes blank characters away at both ends, as many as there are: what is left is the only middle
part with blanks before and behind it that neither begins nor ends with one. Blanks are told by their
bytes alone, although trimming goes over characters.
-/

namespace Pocket

namespace Text

/-- A text of blank characters. -/
def Blank (t : Text) : Prop :=
  ∃ cs : List Char, (∀ c ∈ cs, isBlank c = true) ∧ t = ofChars cs

def StartsBlank (t : Text) : Prop :=
  ∃ c, isBlank c = true ∧ ofChar c <+: t

def EndsBlank (t : Text) : Prop :=
  ∃ c, isBlank c = true ∧ ofChar c <:+ t

variable {t l r x y : Text} {b : UInt8} {c : Char}

theorem blank_nil : Blank [] :=
  ⟨[], by simp, rfl⟩

theorem Blank.append (hl : l.Blank) (hr : r.Blank) : Blank (l ++ r) := by
  obtain ⟨cs, hcs, rfl⟩ := hl
  obtain ⟨ds, hds, rfl⟩ := hr
  exact ⟨cs ++ ds, by simpa [or_imp, forall_and] using ⟨hcs, hds⟩, by simp [ofChars]⟩

theorem blank_ofChar (hc : isBlank c = true) : Blank (ofChar c) :=
  ⟨[c], by simpa using hc, by simp [ofChars]⟩

/-! ### Bytes of blanks -/

/-- A byte that is a character by itself and no blank. -/
def IsFirm (b : UInt8) : Prop :=
  b.toNat < 128 ∧ isBlank (Char.ofNat b.toNat) = false

instance (b : UInt8) : Decidable (IsFirm b) :=
  inferInstanceAs (Decidable (_ ∧ _))

theorem isFirm_of_wordByte (hb : isWordByte b = true) : IsFirm b :=
  have hlt := isWordByte_lt hb
  ⟨hlt, isBlank_of_wordChar (by rw [isWordChar_ofNat hlt, hb])⟩

theorem IsFirm.not_mem_ofChar (hb : IsFirm b) (hc : isBlank c = true) : b ∉ ofChar c := by
  intro hmem
  have hchar : c = Char.ofNat b.toNat := by
    rw [← toNat_eq_of_mem_ofChar hb.1 hmem, Char.ofNat_toNat]
  rw [hchar, hb.2] at hc
  cases hc

theorem Blank.not_mem (h : t.Blank) (hb : IsFirm b) : b ∉ t := by
  obtain ⟨cs, hcs, rfl⟩ := h
  intro hmem
  obtain ⟨c, hc, hbc⟩ := List.mem_flatMap.mp hmem
  exact hb.not_mem_ofChar (hcs c hc) hbc

theorem Blank.not_wordByte (h : t.Blank) : ∀ b ∈ t, isWordByte b = false ∧ b ≠ '"'.toUInt8 := by
  intro b hb
  refine ⟨Bool.eq_false_iff.mpr fun hword => h.not_mem (isFirm_of_wordByte hword) hb, ?_⟩
  rintro rfl
  exact h.not_mem (by decide) hb

theorem not_startsBlank_nil : ¬StartsBlank [] := by
  rintro ⟨c, -, h⟩
  obtain ⟨b, tail, hshape, -⟩ := ofChar_shape c
  rw [hshape] at h
  cases List.prefix_nil.mp h

theorem not_endsBlank_nil : ¬EndsBlank [] := by
  rintro ⟨c, -, h⟩
  obtain ⟨b, tail, hshape, -⟩ := ofChar_shape c
  rw [hshape] at h
  cases List.suffix_nil.mp h

/-- A firm byte stops blanks at the start of a text. -/
theorem not_startsBlank_append (h : ¬x.StartsBlank) (hb : IsFirm b) (y : Text) :
    ¬StartsBlank (x ++ b :: y) := by
  rintro ⟨c, hc, after, hsplit⟩
  rcases List.append_eq_append_iff.mp hsplit with ⟨z, hx, -⟩ | ⟨z, hz, hy⟩
  · exact h ⟨c, hc, z, hx.symm⟩
  · cases z with
    | nil => exact h ⟨c, hc, by simp [hz]⟩
    | cons d z =>
      obtain ⟨rfl, -⟩ := List.cons.inj hy
      exact hb.not_mem_ofChar hc (by simp [hz])

/-- A firm byte stops blanks at the end of a text. -/
theorem not_endsBlank_append (h : ¬y.EndsBlank) (hb : IsFirm b) (x : Text) :
    ¬EndsBlank (x ++ b :: y) := by
  rintro ⟨c, hc, before, hsplit⟩
  rcases List.append_eq_append_iff.mp hsplit with ⟨z, -, hz⟩ | ⟨z, -, hy⟩
  · exact hb.not_mem_ofChar hc (by simp [hz])
  · cases z with
    | nil => exact hb.not_mem_ofChar hc (by simp [← show b :: y = ofChar c from hy])
    | cons d z => exact h ⟨c, hc, z, (List.cons.inj hy).2.symm⟩

theorem EndsBlank.append (h : y.EndsBlank) (x : Text) : EndsBlank (x ++ y) := by
  obtain ⟨c, hc, hsuffix⟩ := h
  exact ⟨c, hc, hsuffix.trans (List.suffix_append x y)⟩

theorem Blank.endsBlank (hr : r.Blank) (hne : r ≠ []) (t : Text) : EndsBlank (t ++ r) := by
  obtain ⟨cs, hcs, rfl⟩ := hr
  rcases List.eq_nil_or_concat' cs with rfl | ⟨front, c, rfl⟩
  · exact absurd rfl hne
  · refine ⟨c, hcs c (by simp), t ++ ofChars front, ?_⟩
    simp [ofChars]

/-! ### What is left by trimming -/

theorem exists_start_split (t : Text) : ∃ l x, t = l ++ x ∧ l.Blank ∧ ¬x.StartsBlank := by
  generalize hn : t.length = n
  induction n using Nat.strongRecOn generalizing t with
  | ind n ih =>
    by_cases hstart : t.StartsBlank
    · obtain ⟨c, hc, rest, rfl⟩ := hstart
      obtain ⟨b, tail, hshape, -⟩ := ofChar_shape c
      have hshort : rest.length < n := by
        rw [← hn, hshape]
        simp
      obtain ⟨l, x, rfl, hl, hx⟩ := ih rest.length hshort rest rfl
      exact ⟨ofChar c ++ l, x, by simp, (blank_ofChar hc).append hl, hx⟩
    · exact ⟨[], t, rfl, blank_nil, hstart⟩

theorem exists_end_split (t : Text) : ∃ x r, t = x ++ r ∧ r.Blank ∧ ¬x.EndsBlank := by
  generalize hn : t.length = n
  induction n using Nat.strongRecOn generalizing t with
  | ind n ih =>
    by_cases hend : t.EndsBlank
    · obtain ⟨c, hc, rest, rfl⟩ := hend
      obtain ⟨b, tail, hshape, -⟩ := ofChar_shape c
      have hshort : rest.length < n := by
        rw [← hn, hshape]
        simp
      obtain ⟨x, r, rfl, hr, hx⟩ := ih rest.length hshort rest rfl
      exact ⟨x, r ++ ofChar c, by simp, hr.append (blank_ofChar hc), hx⟩
    · exact ⟨t, [], by simp, blank_nil, hend⟩

theorem glyphs_ofChars (cs : List Char) (t : Text) :
    (ofChars cs ++ t).glyphs = cs.map Glyph.of ++ t.glyphs := by
  induction cs with
  | nil => rfl
  | cons c cs ih =>
    rw [ofChars, List.flatMap_cons, List.append_assoc, glyphs_ofChar_append, ← ofChars, ih]
    rfl

theorem fresh_ofChars (cs : List Char) : Glyph.Fresh (ofChars cs) := by
  cases cs with
  | nil => simp [Glyph.Fresh, ofChars]
  | cons c cs => exact Glyph.fresh_ofChar c _

theorem trim_blank_append (hl : l.Blank) (t : Text) : (l ++ t).trim = t.trim := by
  obtain ⟨cs, hcs, rfl⟩ := hl
  have hall : ∀ g ∈ cs.map Glyph.of, isBlank g.char = true := by
    intro g hg
    obtain ⟨c, hc, rfl⟩ := List.mem_map.mp hg
    exact hcs c hc
  rw [trim, trim, glyphs_ofChars, List.dropWhile_append_of_pos hall]

theorem trim_append_blank (hr : r.Blank) (t : Text) : (t ++ r).trim = t.trim := by
  obtain ⟨cs, hcs, rfl⟩ := hr
  have hread : (ofChars cs).glyphs = cs.map Glyph.of := by
    have h := glyphs_ofChars cs []
    rw [List.append_nil] at h
    rw [h]
    exact List.append_nil _
  have hall : ∀ g ∈ cs.map Glyph.of, isBlank g.char = true := by
    intro g hg
    obtain ⟨c, hc, rfl⟩ := List.mem_map.mp hg
    exact hcs c hc
  rw [trim, trim, glyphs_append t (fresh_ofChars cs), hread, List.dropWhile_append]
  split
  · next hnil =>
    rw [List.isEmpty_iff.mp hnil, List.dropWhile_eq_nil_iff.mpr hall]
  · rw [List.reverse_append, List.dropWhile_append_of_pos fun g hg => hall g (List.mem_reverse.mp hg)]

/-- The glyph of a blank is spelled out. -/
theorem bytes_of_blank {g : Glyph} (hg : g.Spelled) (hblank : isBlank g.char = true) :
    g.bytes = ofChar g.char := by
  refine hg.bytes_eq rfl fun hrepl => ?_
  rw [hrepl] at hblank
  exact absurd hblank (by decide)

theorem startsBlank_iff : t.StartsBlank ↔ ∃ g ∈ t.glyphs.head?, isBlank g.char = true := by
  constructor
  · rintro ⟨c, hc, rest, rfl⟩
    refine ⟨Glyph.of c, ?_, hc⟩
    rw [glyphs_ofChar_append]
    rfl
  · rintro ⟨g, hg, hblank⟩
    obtain ⟨gs, hglyphs⟩ := List.head?_eq_some_iff.mp hg
    have hspelled := spelled_of_glyphs (t := t) rfl
    refine ⟨g.char, hblank, ofGlyphs gs, ?_⟩
    rw [← bytes_of_blank (hspelled g (by simp [hglyphs])) hblank, ← ofGlyphs_cons, ← hglyphs, ofGlyphs_glyphs]

/-- Whether a text begins with a blank does not depend on the characters behind it. -/
theorem not_startsBlank_fresh (hx : x ≠ []) (h : ¬x.StartsBlank) (hy : Glyph.Fresh y) :
    ¬StartsBlank (x ++ y) := by
  rw [startsBlank_iff, glyphs_append x hy]
  rw [startsBlank_iff] at h
  rintro ⟨g, hg, hblank⟩
  refine h ⟨g, ?_, hblank⟩
  cases hglyphs : x.glyphs with
  | nil =>
    refine absurd ?_ hx
    rw [← ofGlyphs_glyphs x, hglyphs]
    rfl
  | cons d gs =>
    rw [hglyphs] at hg
    exact hg

theorem Blank.fresh_append (hr : r.Blank) (hy : Glyph.Fresh y) : Glyph.Fresh (r ++ y) := by
  obtain ⟨cs, -, rfl⟩ := hr
  cases cs with
  | nil => exact hy
  | cons c cs =>
    rw [ofChars, List.flatMap_cons, List.append_assoc]
    exact Glyph.fresh_ofChar c _

theorem trim_eq_self (hstart : ¬t.StartsBlank) (hend : ¬t.EndsBlank) : t.trim = t := by
  have hspelled := spelled_of_glyphs (t := t) rfl
  have hfirst : ∀ g ∈ t.glyphs.head?, isBlank g.char = false :=
    fun g hg => Bool.eq_false_iff.mpr fun hblank => hstart (startsBlank_iff.mpr ⟨g, hg, hblank⟩)
  have hlast : ∀ g ∈ t.glyphs.reverse.head?, isBlank g.char = false := by
    intro g hg
    obtain ⟨gs, hglyphs⟩ := List.getLast?_eq_some_iff.mp (List.head?_reverse.symm.trans hg)
    refine Bool.eq_false_iff.mpr fun hblank => hend ⟨g.char, hblank, ofGlyphs gs, ?_⟩
    rw [← bytes_of_blank (hspelled g (by simp [hglyphs])) hblank]
    rw [← ofGlyphs_glyphs t, hglyphs]
    simp [ofGlyphs]
  have hkept : ∀ gs : List Glyph, (∀ g ∈ gs.head?, isBlank g.char = false) →
      gs.dropWhile (fun g => isBlank g.char) = gs := by
    intro gs hgs
    cases gs with
    | nil => rfl
    | cons g gs => exact List.dropWhile_cons_of_neg (by simp [hgs g rfl])
  rw [trim, hkept _ hfirst, hkept _ hlast, List.reverse_reverse, ofGlyphs_glyphs]

/-- Trimming is told by what it takes away and what it leaves. -/
theorem trim_eq_of_split (hl : l.Blank) (hr : r.Blank) (hstart : ¬x.StartsBlank) (hend : ¬x.EndsBlank) :
    (l ++ x ++ r).trim = x := by
  rw [trim_append_blank hr, trim_blank_append hl, trim_eq_self hstart hend]

theorem exists_trim_split (t : Text) : ∃ l r, t = l ++ t.trim ++ r ∧ l.Blank ∧ r.Blank ∧
    ¬t.trim.StartsBlank ∧ ¬t.trim.EndsBlank := by
  obtain ⟨y, r, rfl, hr, hend⟩ := exists_end_split t
  obtain ⟨l, x, rfl, hl, hstart⟩ := exists_start_split y
  have hend' : ¬x.EndsBlank := fun hblank => hend (hblank.append l)
  rw [trim_eq_of_split hl hr hstart hend']
  exact ⟨l, r, rfl, hl, hr, hstart, hend'⟩

theorem trim_ne_nil (hb : b ∈ t) (hfirm : IsFirm b) : t.trim ≠ [] := by
  intro hnil
  obtain ⟨l, r, hsplit, hl, hr, -⟩ := exists_trim_split t
  rw [hnil, List.append_nil] at hsplit
  rw [hsplit] at hb
  exact (hl.append hr).not_mem hfirm hb

/-- What stands before blanks may be trimmed beforehand. -/
theorem trim_trim_append (hx : ¬x.EndsBlank) (y : Text) : (x.trim ++ y).trim = (x ++ y).trim := by
  obtain ⟨l, r, hsplit, hl, hr, -⟩ := x.exists_trim_split
  obtain rfl : r = [] := by
    by_contra hne
    rw [hsplit] at hx
    exact hx (hr.endsBlank hne _)
  rw [List.append_nil] at hsplit
  nth_rewrite 2 [hsplit]
  rw [List.append_assoc, trim_blank_append hl]

/-- Directives are told by how the line begins behind its blanks. -/
theorem prefix_trim_iff {start : Text} (hne : start ≠ []) (hstart : ∀ b ∈ start, IsFirm b) :
    start <+: t.trim ↔ ∃ l rest : Text, l.Blank ∧ t = l ++ (start ++ rest) := by
  constructor
  · rintro ⟨rest, hrest⟩
    obtain ⟨l, r, hsplit, hl, -⟩ := t.exists_trim_split
    refine ⟨l, rest ++ r, hl, ?_⟩
    rw [hsplit, ← hrest]
    simp
  · rintro ⟨l, rest, hl, rfl⟩
    obtain ⟨kept, r, rfl, hr, hend⟩ := rest.exists_end_split
    obtain ⟨b, more, hfirst⟩ := List.exists_cons_of_ne_nil hne
    obtain ⟨front, d, hlast⟩ := (List.eq_nil_or_concat' start).resolve_left hne
    have hbegins : ¬StartsBlank (start ++ kept) := by
      rw [hfirst]
      exact not_startsBlank_append not_startsBlank_nil (hstart b (by simp [hfirst])) (more ++ kept)
    have hends : ¬EndsBlank (start ++ kept) := by
      rw [hlast, List.append_assoc]
      exact not_endsBlank_append hend (hstart d (by simp [hlast])) front
    refine ⟨kept, ?_⟩
    have htrim := trim_eq_of_split hl hr hbegins hends
    rw [← htrim]
    simp

/-! ### Trimmed texts -/

theorem trim_trim (t : Text) : t.trim.trim = t.trim := by
  obtain ⟨l, r, -, -, -, hstart, hend⟩ := t.exists_trim_split
  exact trim_eq_self hstart hend

theorem not_blank_of_trim (h : t.trim = t) : ¬t.StartsBlank ∧ ¬t.EndsBlank := by
  obtain ⟨l, r, -, -, -, hstart, hend⟩ := t.exists_trim_split
  rw [h] at hstart hend
  exact ⟨hstart, hend⟩

theorem trim_subset (t : Text) : t.trim ⊆ t := by
  obtain ⟨l, r, hsplit, -⟩ := t.exists_trim_split
  intro b hb
  rw [hsplit]
  simp [hb]

theorem mem_trim (hb : b ∈ t) (hfirm : IsFirm b) : b ∈ t.trim := by
  obtain ⟨l, r, hsplit, hl, hr, -⟩ := t.exists_trim_split
  rw [hsplit, List.mem_append, List.mem_append] at hb
  rcases hb with (hb | hb) | hb
  · exact absurd hb (hl.not_mem hfirm)
  · exact hb
  · exact absurd hb (hr.not_mem hfirm)

/-! ### Blanks inside a text -/

theorem blank_space : Blank [' '.toUInt8] :=
  blank_ofChar (c := ' ') rfl

theorem not_startsBlank_blank_append (h : l.Blank) (hstart : ¬StartsBlank (l ++ t)) : l = [] := by
  obtain ⟨cs, hcs, rfl⟩ := h
  cases cs with
  | nil => rfl
  | cons c cs =>
    refine absurd ⟨c, hcs c (by simp), ofChars cs ++ t, ?_⟩ hstart
    simp [ofChars]

/-- A byte that is a character by itself ends the character it is in. -/
theorem eq_nil_of_ofChar (hb : b.toNat < 128) (h : ofChar c = x ++ b :: y) : y = [] := by
  have hmem : b ∈ ofChar c := by simp [h]
  have hchar : ofChar c = [b] := by
    rw [← ofChar_ofNat hb, ← toNat_eq_of_mem_ofChar hb hmem, Char.ofNat_toNat]
  have hlength := congrArg List.length (hchar.symm.trans h)
  simp only [List.length_append, List.length_cons, List.length_nil] at hlength
  exact List.eq_nil_of_length_eq_zero (by omega)

/-- A byte that is a character by itself divides blanks into blanks. -/
theorem blank_behind (hb : b.toNat < 128) (h : Blank (x ++ b :: y)) : y.Blank := by
  obtain ⟨cs, hcs, hsplit⟩ := h
  induction cs generalizing x with
  | nil => exact absurd hsplit (by simp [ofChars])
  | cons c cs ih =>
    obtain ⟨-, hcs⟩ := List.forall_mem_cons.mp hcs
    rcases List.append_eq_append_iff.mp (hsplit.trans rfl : x ++ b :: y = ofChar c ++ ofChars cs) with
      ⟨z, hz, hy⟩ | ⟨z, -, hz⟩
    · cases z with
      | nil => exact ih (x := []) hcs hy
      | cons d z =>
        obtain ⟨rfl, rfl⟩ := List.cons.inj hy
        exact ⟨cs, hcs, by rw [eq_nil_of_ofChar hb hz]; rfl⟩
    · exact ih hcs hz.symm

end Text

end Pocket

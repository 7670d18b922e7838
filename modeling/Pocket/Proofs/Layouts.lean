import Mathlib
import Pocket.Proofs.Diagnosed
import Pocket.Proofs.Patterns
import Pocket.Yaml.Reader
import Pocket.Yaml.Writer

/-!
# Texts laid out over lines

A text is written in one of three ways: plain, between single quotes and between double quotes. In each of them a
space may be written as a line break with a margin behind it. Whatever places are chosen for the line breaks, a
printed text is read back as it was.
-/

namespace Pocket.Yaml

variable {t u w rest after next : Text} {b c : UInt8} {spell : UInt8 → Text} {slashed afterSpace quoted first : Bool}
  {column : Nat}

/-! ### Layouts -/

/-- A text as it is laid out. Bytes other than spaces are spelled in some way. A single space may stand as a line
break with a margin; so may the first of several if a backslash can be put before the second. -/
inductive Laid (spell : UInt8 → Text) (slashed : Bool) : Bool → Text → Text → Prop where
  | nil {afterSpace : Bool} : Laid spell slashed afterSpace [] []
  | byte {afterSpace : Bool} {b : UInt8} {t w : Text} (hb : b ≠ ' '.toUInt8) (h : Laid spell slashed false t w) :
    Laid spell slashed afterSpace (b :: t) (spell b ++ w)
  | space {afterSpace : Bool} {t w : Text} (h : Laid spell slashed true t w) :
    Laid spell slashed afterSpace (' '.toUInt8 :: t) (' '.toUInt8 :: w)
  | fold {b : UInt8} {t w : Text} (hb : b ≠ ' '.toUInt8) (h : Laid spell slashed true (b :: t) w) :
    Laid spell slashed false (' '.toUInt8 :: b :: t) ("\n  " ++ w)
  | foldMore {t w : Text} (hslashed : slashed = true) (h : Laid spell slashed true t w) :
    Laid spell slashed false (' '.toUInt8 :: ' '.toUInt8 :: t) ("\n  " ++ ("\\ " ++ w))

theorem Laid.space_inv (h : Laid spell slashed true (' '.toUInt8 :: t) w) :
    ∃ v, w = ' '.toUInt8 :: v ∧ Laid spell slashed true t v := by
  cases h with
  | byte hb => exact absurd rfl hb
  | space h => exact ⟨_, rfl, h⟩

theorem Laid.byte_inv (hb : b ≠ ' '.toUInt8) (h : Laid spell slashed afterSpace (b :: t) w) :
    ∃ v, w = spell b ++ v ∧ Laid spell slashed false t v := by
  cases h with
  | byte _ h => exact ⟨_, rfl, h⟩
  | space => exact absurd rfl hb
  | fold => exact absurd rfl hb
  | foldMore => exact absurd rfl hb

/-! ### What is written -/

theorem char_byte_iff (hb : b.toNat < 128) {c : Char} (hc : c.toNat < 128) :
    (Glyph.of (Char.ofNat b.toNat)).char = c ↔ b = c.toUInt8 := by
  change Char.ofNat b.toNat = c ↔ b = c.toUInt8
  constructor
  · rintro rfl
    have h := (ofChar_ofNat hb).symm.trans (ofChar_ascii hc)
    exact (List.cons.inj h).1
  · rintro rfl
    have hmem : c.toUInt8 ∈ Text.ofChar c := by simp [ofChar_ascii hc]
    rw [← toNat_eq_of_mem_ofChar hb hmem, Char.ofNat_toNat]

theorem bytes_byte (hb : b.toNat < 128) : (Glyph.of (Char.ofNat b.toNat)).bytes = [b] :=
  ofChar_ofNat hb

theorem toNat_byte (hb : b.toNat < 128) : (Glyph.of (Char.ofNat b.toNat)).char.toNat = b.toNat := by
  refine toNat_eq_of_mem_ofChar hb ?_
  change b ∈ Text.ofChar (Char.ofNat b.toNat)
  rw [ofChar_ofNat hb]
  exact List.mem_singleton_self b

/-- How a byte is written plain or between single quotes. -/
def spelling (quoted : Bool) (b : UInt8) : Text :=
  if quoted && b = '\''.toUInt8 then "''" else [b]

theorem laid_wrap (ht : t.Printed) :
    Laid (spelling quoted) false afterSpace t (wrap quoted column afterSpace t.glyphs) := by
  induction t generalizing column afterSpace with
  | nil => exact .nil
  | cons b t ih =>
    obtain ⟨hb, hrest⟩ := List.forall_mem_cons.mp ht
    have hchar {c : Char} (hc : c.toNat < 128) := char_byte_iff hb.2 hc
    rw [glyphs_ascii hb.2, wrap]
    split
    -- A space is folded only if no other one stands beside it, as the layout asks for.
    · next hspace =>
      obtain rfl := (hchar (by decide)).mp hspace
      split
      · next hfold =>
        cases t with
        | nil => simp [Text.glyphs, Text.glyphsAfter] at hfold
        | cons c t =>
          obtain ⟨hc, -⟩ := List.forall_mem_cons.mp hrest
          obtain ⟨rfl, hne⟩ : afterSpace = false ∧ (Glyph.of (Char.ofNat c.toNat)).char ≠ ' ' := by
            rw [glyphs_ascii hc.2] at hfold
            simp at hfold
            exact ⟨hfold.1.1, hfold.2⟩
          exact .fold (mt (char_byte_iff hc.2 (by decide)).mpr hne) (ih hrest)
      · exact .space (ih hrest)
    · next hspace =>
      have hne : b ≠ ' '.toUInt8 := mt (hchar (by decide)).mpr hspace
      by_cases hquote : (quoted && b = '\''.toUInt8) = true
      · have hspell : spelling quoted b = "''" := if_pos hquote
        rw [if_pos (by simpa [hchar] using hquote), ← hspell]
        exact .byte hne (ih hrest)
      · have hspell : spelling quoted b = [b] := if_neg hquote
        rw [if_neg (by simpa [hchar] using hquote), bytes_byte hb.2, ← hspell]
        exact .byte hne (ih hrest)

/-- How a byte is written between double quotes. -/
def escapedSpelling (b : UInt8) : Text :=
  let g := Glyph.of (Char.ofNat b.toNat)
  if !isWritten g || g.char = '\n' || g.char = '"' || g.char = '\\' then escaped g.char else [b]

theorem laid_wrapEscaped (ht : t.Printed) :
    Laid escapedSpelling true afterSpace t (wrapEscaped column first afterSpace t.glyphs) := by
  induction t generalizing column first afterSpace with
  | nil => exact .nil
  | cons b t ih =>
    obtain ⟨hb, hrest⟩ := List.forall_mem_cons.mp ht
    have hchar {c : Char} (hc : c.toNat < 128) := char_byte_iff hb.2 hc
    rw [glyphs_ascii hb.2, wrapEscaped]
    split
    · next hspecial =>
      -- A byte that is escaped is no space.
      have hspell : escapedSpelling b = escaped (Glyph.of (Char.ofNat b.toNat)).char := if_pos hspecial
      rw [← hspell]
      refine .byte ?_ (ih hrest)
      rintro rfl
      exact absurd hspecial (by decide)
    · next hplain =>
      split
      · next hspace =>
        obtain rfl := (hchar (by decide)).mp hspace
        split
        · next hfold =>
          cases t with
          | nil => simp [Text.glyphs, Text.glyphsAfter] at hfold
          | cons c t =>
            obtain ⟨hc, -⟩ := List.forall_mem_cons.mp hrest
            obtain rfl : afterSpace = false := by
              simp at hfold
              exact hfold.1.1.1
            have hmore : (Text.glyphs (c :: t)).head?.any (·.char == ' ') = decide (c = ' '.toUInt8) := by
              rw [glyphs_ascii hc.2]
              exact decide_eq_decide.mpr (char_byte_iff hc.2 (by decide))
            dsimp only
            rw [hmore]
            -- If another space follows, a backslash keeps it, and the rest begins behind it.
            by_cases hspace : c = ' '.toUInt8
            · subst hspace
              obtain ⟨v, hv, hlaid⟩ := (ih hrest).space_inv
              rw [hv]
              exact .foldMore rfl hlaid
            · rw [decide_eq_false hspace]
              exact .fold hspace (ih hrest)
        · exact .space (ih hrest)
      · next hspace =>
        have hspell : escapedSpelling b = [b] := if_neg hplain
        rw [bytes_byte hb.2, ← hspell]
        exact .byte (mt (hchar (by decide)).mpr hspace) (ih hrest)

/-! ### Gaps -/

/-- A text whose first gap has no line break. -/
def Unbroken (u : Text) : Prop :=
  newline ∉ u.takeWhile isGapByte

/-- A text that does not begin with a gap. -/
def Solid (u : Text) : Prop :=
  ∀ b ∈ u.head?, isGapByte b = false

theorem Solid.takeWhile (h : Solid u) : u.takeWhile isGapByte = [] := by
  cases u with
  | nil => rfl
  | cons b u => exact List.takeWhile_cons_of_neg (by simp [h b rfl])

theorem Solid.dropWhile (h : Solid u) : u.dropWhile isGapByte = u := by
  cases u with
  | nil => rfl
  | cons b u => exact List.dropWhile_cons_of_neg (by simp [h b rfl])

theorem Solid.unbroken (h : Solid u) : Unbroken u := by
  rw [Unbroken, h.takeWhile]
  exact List.not_mem_nil

theorem solid_cons (hb : isGapByte b = false) (u : Text) : Solid (b :: u) := by
  simp [Solid, hb]

theorem unbroken_space : Unbroken (' '.toUInt8 :: u) ↔ Unbroken u := by
  have hne : newline ≠ ' '.toUInt8 := by decide
  rw [Unbroken, List.takeWhile_cons_of_pos (by rfl), List.mem_cons]
  simp [Unbroken, hne]

/-- Every byte but a space is spelled with something other than a blank in front. -/
def SolidSpelling (spell : UInt8 → Text) : Prop :=
  ∀ b : UInt8, 32 ≤ b.toNat ∧ b.toNat < 128 → b ≠ ' '.toUInt8 → ∀ u, Solid (spell b ++ u)

/-- A layout has no line break right after a space. -/
theorem Laid.unbroken (hspell : SolidSpelling spell) (h : Laid spell slashed true t w) (ht : t.Printed)
    (hrest : t.all (· == ' '.toUInt8) → Unbroken rest) : Unbroken (w ++ rest) := by
  generalize hafter : true = afterSpace at h
  induction h with
  | nil => exact hrest rfl
  | byte hb h ih =>
    rw [List.append_assoc]
    exact (hspell _ (List.forall_mem_cons.mp ht).1 hb _).unbroken
  | space h ih =>
    rw [List.cons_append, unbroken_space]
    exact ih (List.forall_mem_cons.mp ht).2 (by simpa using hrest) rfl
  | fold => cases hafter
  | foldMore => cases hafter

theorem foldGap_of_unbroken {gap : Text} (h : newline ∉ gap) : foldGap gap = gap := by
  unfold foldGap
  rw [show gap.count '\n'.toUInt8 = 0 from List.count_eq_zero.mpr h]

theorem breaksOff_of_unbroken {gap : Text} (h : newline ∉ gap) : breaksOff gap next = false := by
  have hlast : (gap.getLast? == some '\n'.toUInt8) = false := by
    rw [beq_eq_false_iff_ne]
    exact fun hlast => h (List.mem_of_getLast? hlast)
  rw [breaksOff, hlast]
  rfl

/-! ### Between quotes -/

/-- A reader of what stands between quotes in some spelling. -/
structure Unquotes (read : Text → Option (Text × Text)) (spell : UInt8 → Text) (slashed : Bool) : Prop where
  solid : SolidSpelling spell
  gap : ∀ b rest, isGapByte b = true → read (b :: rest) =
    if breaksOff (b :: rest.takeWhile isGapByte) (rest.dropWhile isGapByte) then none
    else (read (rest.dropWhile isGapByte)).map fun r => (foldGap (b :: rest.takeWhile isGapByte) ++ r.1, r.2)
  byte : ∀ b : UInt8, 32 ≤ b.toNat ∧ b.toNat < 128 → b ≠ ' '.toUInt8 → ∀ u,
    read (spell b ++ u) = (read u).map fun r => (b :: r.1, r.2)
  slash : slashed = true → ∀ u, read ("\\ " ++ u) = (read u).map fun r => (' '.toUInt8 :: r.1, r.2)

section Unquotes

variable {read : Text → Option (Text × Text)}

/-- A gap without line breaks is read as it is. -/
theorem Unquotes.unbroken (hread : Unquotes read spell slashed) (hu : Unbroken u) :
    read u = (read (u.dropWhile isGapByte)).map fun r => (u.takeWhile isGapByte ++ r.1, r.2) := by
  cases u with
  | nil => simp
  | cons b u =>
    cases hb : isGapByte b with
    | false =>
      have hsolid := solid_cons hb u
      rw [hsolid.dropWhile, hsolid.takeWhile]
      simp
    | true =>
      rw [Unbroken, List.takeWhile_cons_of_pos hb] at hu
      rw [hread.gap b u hb, breaksOff_of_unbroken hu, foldGap_of_unbroken hu, List.takeWhile_cons_of_pos hb,
        List.dropWhile_cons_of_pos hb]
      rfl

theorem Unquotes.space (hread : Unquotes read spell slashed) (hu : Unbroken u) (h : read u = some (t, rest)) :
    read (' '.toUInt8 :: u) = some (' '.toUInt8 :: t, rest) := by
  rw [hread.unbroken hu] at h
  obtain ⟨r, hr, heq⟩ := Option.map_eq_some_iff.mp h
  cases heq
  rw [hread.unbroken (unbroken_space.mpr hu), List.dropWhile_cons_of_pos (by rfl),
    List.takeWhile_cons_of_pos (by rfl), hr]
  rfl

/-- The gap of a line break with its margin. -/
theorem gap_fold (hu : Solid u) : (("  " : Text) ++ u).takeWhile isGapByte = "  " ∧
    (("  " : Text) ++ u).dropWhile isGapByte = u := by
  change (' '.toUInt8 :: ' '.toUInt8 :: u).takeWhile isGapByte = _ ∧
    (' '.toUInt8 :: ' '.toUInt8 :: u).dropWhile isGapByte = _
  have hspace : isGapByte ' '.toUInt8 = true := rfl
  rw [List.takeWhile_cons_of_pos hspace, List.takeWhile_cons_of_pos hspace, hu.takeWhile,
    List.dropWhile_cons_of_pos hspace, List.dropWhile_cons_of_pos hspace, hu.dropWhile]
  exact ⟨rfl, rfl⟩

theorem Unquotes.fold (hread : Unquotes read spell slashed) (hu : Solid u) (h : read u = some (t, rest)) :
    read ("\n  " ++ u) = some (' '.toUInt8 :: t, rest) := by
  obtain ⟨hgap, hnext⟩ := gap_fold hu
  have hfold := hread.gap newline (("  " : Text) ++ u) rfl
  rw [hgap, hnext, h] at hfold
  exact hfold

/-- A layout between quotes is read back up to the closing quote. -/
theorem Unquotes.laid (hread : Unquotes read spell slashed) {quote : UInt8}
    (hend : read (quote :: rest) = some ([], rest)) (hquote : isGapByte quote = false)
    (h : Laid spell slashed afterSpace t w) (ht : t.Printed) :
    read (w ++ quote :: rest) = some (t, rest) := by
  induction h with
  | nil => exact hend
  | byte hb h ih =>
    obtain ⟨hprinted, ht⟩ := List.forall_mem_cons.mp ht
    rw [List.append_assoc, hread.byte _ hprinted hb, ih ht]
    rfl
  | space h ih =>
    obtain ⟨-, ht⟩ := List.forall_mem_cons.mp ht
    exact hread.space (h.unbroken hread.solid ht fun _ => (solid_cons hquote rest).unbroken) (ih ht)
  | fold hb h ih =>
    obtain ⟨-, ht⟩ := List.forall_mem_cons.mp ht
    obtain ⟨v, rfl, -⟩ := h.byte_inv hb
    rw [List.append_assoc]
    refine hread.fold ?_ (ih ht)
    rw [List.append_assoc]
    exact hread.solid _ (List.forall_mem_cons.mp ht).1 hb _
  | foldMore hslashed h ih =>
    obtain ⟨-, ht⟩ := List.forall_mem_cons.mp ht
    obtain ⟨-, ht⟩ := List.forall_mem_cons.mp ht
    rw [List.append_assoc, List.append_assoc]
    refine hread.fold (solid_cons (by decide) _) ?_
    rw [hread.slash hslashed, ih ht]
    rfl

end Unquotes

theorem isGapByte_printed (hb : 32 ≤ b.toNat) (hne : b ≠ ' '.toUInt8) : isGapByte b = false := by
  have htab : b ≠ '\t'.toUInt8 := by
    rintro rfl
    exact absurd hb (by decide)
  have hline : b ≠ '\n'.toUInt8 := by
    rintro rfl
    exact absurd hb (by decide)
  simp [isGapByte, isBlankByte, hne, htab, hline]

theorem solidSpelling_spelling (quoted : Bool) : SolidSpelling (spelling quoted) := by
  intro b hb hne u
  unfold spelling
  split
  · exact solid_cons (by decide) _
  · exact solid_cons (isGapByte_printed hb.1 hne) u

theorem isWritten_printed (hb : 32 ≤ b.toNat ∧ b.toNat < 128) :
    isWritten (Glyph.of (Char.ofNat b.toNat)) = decide (b.toNat ≤ 126) := by
  rw [isWritten, toNat_byte hb.2, Pattern.isIllFormed_of, writtenRanges, Ranges.contains, if_neg (by omega),
    if_neg (by omega), Ranges.contains, if_neg (by omega)]
  split
  · next hle => exact (decide_eq_true hle).symm
  · next hgt =>
    rw [Ranges.contains, if_pos (by omega)]
    exact (decide_eq_false hgt).symm

/-- Quotes, backslashes and the last code of the ASCII range are escaped. -/
theorem escapedSpelling_cases (hb : 32 ≤ b.toNat ∧ b.toNat < 128) :
    (b = '"'.toUInt8 ∧ escapedSpelling b = "\\\"") ∨ (b = '\\'.toUInt8 ∧ escapedSpelling b = "\\\\") ∨
    (b = 127 ∧ escapedSpelling b = "\\x7F") ∨
    (b ≠ '"'.toUInt8 ∧ b ≠ '\\'.toUInt8 ∧ b.toNat ≤ 126 ∧ escapedSpelling b = [b]) := by
  by_cases hquote : b = '"'.toUInt8
  · subst hquote
    exact .inl ⟨rfl, by decide⟩
  · by_cases hslash : b = '\\'.toUInt8
    · subst hslash
      exact .inr (.inl ⟨rfl, by decide⟩)
    · by_cases hlast : b.toNat ≤ 126
      · refine .inr (.inr (.inr ⟨hquote, hslash, hlast, if_neg ?_⟩))
        have hline : b ≠ '\n'.toUInt8 := by
          rintro rfl
          exact absurd hb.1 (by decide)
        simp [isWritten_printed hb, hlast, char_byte_iff hb.2, hquote, hslash, hline]
      · obtain rfl : b = 127 := UInt8.toNat_inj.mp (by change b.toNat = 127; omega)
        exact .inr (.inr (.inl ⟨rfl, by decide⟩))

theorem solidSpelling_escaped : SolidSpelling escapedSpelling := by
  intro b hb hne u
  rcases escapedSpelling_cases hb with ⟨-, h⟩ | ⟨-, h⟩ | ⟨-, h⟩ | ⟨-, -, -, h⟩
  · rw [h]
    exact solid_cons (by decide) _
  · rw [h]
    exact solid_cons (by decide) _
  · rw [h]
    exact solid_cons (by decide) _
  · rw [h]
    exact solid_cons (isGapByte_printed hb.1 hne) u

theorem unquotes_single : Unquotes single? (spelling true) false where
  solid := solidSpelling_spelling true
  gap b rest hb := by
    have hquote : b ≠ '\''.toUInt8 := by
      rintro rfl
      cases hb
    rw [single?.eq_def]
    dsimp only
    rw [if_neg hquote, if_pos hb]
  byte b hb hne u := by
    unfold spelling
    split
    · next hquote =>
      obtain rfl : b = '\''.toUInt8 := by simpa using hquote
      change single? ('\''.toUInt8 :: '\''.toUInt8 :: u) = _
      rw [single?, if_pos rfl]
      dsimp only
      rw [if_pos rfl]
    · next hquote =>
      change single? (b :: u) = _
      rw [single?.eq_def]
      dsimp only
      rw [if_neg (by simpa using hquote), if_neg (by simp [isGapByte_printed hb.1 hne])]
  slash h := by cases h

theorem single?_end (rest : Text) : single? ('\''.toUInt8 :: newline :: rest) = some ([], newline :: rest) := by
  rw [single?.eq_def]
  dsimp only
  rw [if_pos rfl, if_neg (by decide)]

theorem double?_end (rest : Text) : double? ('"'.toUInt8 :: rest) = some ([], rest) := by
  rw [double?.eq_def]
  dsimp only
  rw [if_pos rfl]

theorem double?_escape (c : UInt8) (char : Char) (hc : c ≠ '\n'.toUInt8) (h : escape? c = some char) (u : Text) :
    double? ('\\'.toUInt8 :: c :: u) = (double? u).map fun r => (Text.ofChar char ++ r.1, r.2) := by
  rw [double?.eq_def]
  dsimp only
  rw [if_neg (by decide), if_pos rfl, if_neg hc, h]

theorem double?_last (u : Text) :
    double? ("\\x7F" ++ u) = (double? u).map fun r => ((127 : UInt8) :: r.1, r.2) := by
  change double? ('\\'.toUInt8 :: 'x'.toUInt8 :: '7'.toUInt8 :: 'F'.toUInt8 :: u) = _
  rw [double?.eq_def]
  dsimp only
  rw [if_neg (by decide), if_pos rfl, if_neg (by decide)]
  rfl

theorem unquotes_double : Unquotes double? escapedSpelling true where
  solid := solidSpelling_escaped
  gap b rest hb := by
    have hquote : b ≠ '"'.toUInt8 := by
      rintro rfl
      cases hb
    have hslash : b ≠ '\\'.toUInt8 := by
      rintro rfl
      cases hb
    rw [double?.eq_def]
    dsimp only
    rw [if_neg hquote, if_neg hslash, if_pos hb]
  byte b hb hne u := by
    rcases escapedSpelling_cases hb with ⟨rfl, h⟩ | ⟨rfl, h⟩ | ⟨rfl, h⟩ | ⟨hquote, hslash, -, h⟩
    · rw [h]
      exact double?_escape '"'.toUInt8 '"' (by decide) rfl u
    · rw [h]
      exact double?_escape '\\'.toUInt8 '\\' (by decide) rfl u
    · rw [h]
      exact double?_last u
    · rw [h]
      change double? (b :: u) = _
      rw [double?.eq_def]
      dsimp only
      rw [if_neg hquote, if_neg hslash, if_neg (by simp [isGapByte_printed hb.1 hne])]
  slash _ u := double?_escape ' '.toUInt8 ' ' (by decide) rfl u

/-! ### Plain -/

section Plain

variable {place : Plain} {flow : Bool}

theorem plainRun_append (flow : Bool) (t : Text) : (plainRun flow t).1 ++ (plainRun flow t).2 = t := by
  induction t with
  | nil => rfl
  | cons b t ih =>
    rw [plainRun]
    split
    · rfl
    · exact congrArg (b :: ·) ih

theorem plainRun_gap (hb : isGapByte b = true) (u : Text) : plainRun flow (b :: u) = ([], b :: u) := by
  rw [plainRun, if_pos (by simp [hb])]

/-- A byte belongs to a plain text if it is neither a gap nor a colon at an end. -/
theorem plainRun_cons (hb : isGapByte b = false) (hcolon : b = ':'.toUInt8 → endsHere u = false) :
    plainRun false (b :: u) = (b :: (plainRun false u).1, (plainRun false u).2) := by
  rw [plainRun, if_neg]
  simpa [hb] using hcolon

/-- A plain text is read stretch by stretch. -/
theorem plain_eq (place : Plain) (t : Text) : plain place t =
    let r := plainRun (place == .flow) t
    let next := r.2.dropWhile isGapByte
    if plainGoesOn place (r.2.takeWhile isGapByte) next then
      (r.1 ++ foldGap (r.2.takeWhile isGapByte) ++ (plain place next).1, (plain place next).2)
    else r := by
  rw [plain]
  dsimp only
  by_cases hgo : plainGoesOn place ((plainRun (place == .flow) t).2.takeWhile isGapByte)
      ((plainRun (place == .flow) t).2.dropWhile isGapByte) = true
  · -- A gap was passed over, so less is left.
    have hless : ((plainRun (place == .flow) t).2.dropWhile isGapByte).length < t.length := by
      have hgap : (plainRun (place == .flow) t).2.takeWhile isGapByte ≠ [] := by
        intro hnil
        simp [plainGoesOn, hnil] at hgo
      have hrun := congrArg List.length (plainRun_append (place == .flow) t)
      have hsplit := congrArg List.length
        (List.takeWhile_append_dropWhile (p := isGapByte) (l := (plainRun (place == .flow) t).2))
      have hpos := List.length_pos_iff.mpr hgap
      rw [List.length_append] at hrun hsplit
      omega
    rw [dif_pos ⟨hless, hgo⟩, if_pos hgo]
  · rw [dif_neg fun h => hgo h.2, if_neg hgo]

theorem plain_cons (hplace : place ≠ .flow) (hb : isGapByte b = false)
    (hcolon : b = ':'.toUInt8 → endsHere u = false) :
    plain place (b :: u) = (b :: (plain place u).1, (plain place u).2) := by
  have hflow : (place == .flow) = false := by simpa using hplace
  rw [plain_eq place (b :: u), plain_eq place u, hflow, plainRun_cons hb hcolon]
  dsimp only
  split <;> rfl

theorem plain_gap (hb : isGapByte b = true) (u : Text) : plain place (b :: u) =
    if plainGoesOn place (b :: u.takeWhile isGapByte) (u.dropWhile isGapByte) then
      (foldGap (b :: u.takeWhile isGapByte) ++ (plain place (u.dropWhile isGapByte)).1,
        (plain place (u.dropWhile isGapByte)).2)
    else ([], b :: u) := by
  rw [plain_eq, plainRun_gap hb]
  dsimp only
  rw [List.takeWhile_cons_of_pos hb, List.dropWhile_cons_of_pos hb]
  rfl

/-- What follows the first gap of a text goes on a plain text. -/
def Continues (u : Text) : Prop :=
  (u.dropWhile isGapByte).head? ≠ some '#'.toUInt8 ∧ (plainRun false (u.dropWhile isGapByte)).1 ≠ []

theorem continues_cons (hb : isGapByte b = false) (hsign : b ≠ '#'.toUInt8)
    (hcolon : b = ':'.toUInt8 → endsHere u = false) : Continues (b :: u) := by
  rw [Continues, (solid_cons hb u).dropWhile, plainRun_cons hb hcolon]
  simpa using hsign

theorem continues_space : Continues (' '.toUInt8 :: u) ↔ Continues u := by
  rw [Continues, List.dropWhile_cons_of_pos (by rfl), Continues]

theorem plain_unbroken (hplace : place ≠ .flow) (hu : Unbroken u) (hgo : Continues u) : plain place u =
    (u.takeWhile isGapByte ++ (plain place (u.dropWhile isGapByte)).1, (plain place (u.dropWhile isGapByte)).2) := by
  cases u with
  | nil => rfl
  | cons b u =>
    cases hb : isGapByte b with
    | false =>
      have hsolid := solid_cons hb u
      rw [hsolid.dropWhile, hsolid.takeWhile]
      rfl
    | true =>
      rw [Unbroken, List.takeWhile_cons_of_pos hb] at hu
      rw [Continues, List.dropWhile_cons_of_pos hb] at hgo
      have hgoes : plainGoesOn place (b :: u.takeWhile isGapByte) (u.dropWhile isGapByte) = true := by
        have hbroken : (b :: u.takeWhile isGapByte).contains '\n'.toUInt8 = false :=
          Bool.eq_false_iff.mpr fun hmem => hu (List.contains_iff_mem.mp hmem)
        have hflow : (place == .flow) = false := by simpa using hplace
        unfold plainGoesOn
        rw [hbroken, hflow]
        cases place with
        | key => simpa using hgo
        | block n => simpa using hgo
        | flow => exact absurd rfl hplace
      rw [plain_gap hb, if_pos hgoes, foldGap_of_unbroken hu, List.takeWhile_cons_of_pos hb,
        List.dropWhile_cons_of_pos hb]

theorem plain_space (hplace : place ≠ .flow) (hu : Unbroken u) (hgo : Continues u) :
    plain place (' '.toUInt8 :: u) = (' '.toUInt8 :: (plain place u).1, (plain place u).2) := by
  rw [plain_unbroken hplace hu hgo, plain_unbroken hplace (unbroken_space.mpr hu) (continues_space.mpr hgo),
    List.dropWhile_cons_of_pos (by rfl), List.takeWhile_cons_of_pos (by rfl)]
  rfl

theorem plain_fold (hu : Solid u) (hgo : Continues u) : plain (.block 1) ("\n  " ++ u) =
    (' '.toUInt8 :: (plain (.block 1) u).1, (plain (.block 1) u).2) := by
  obtain ⟨hgap, hnext⟩ := gap_fold hu
  rw [Continues, hu.dropWhile] at hgo
  have hplain := @plain_gap newline (.block 1) rfl (("  " : Text) ++ u)
  rw [hgap, hnext, if_pos] at hplain
  · exact hplain
  · have hmargin : (1 ≤ ((newline :: ("  " : Text)).reverse.takeWhile (· != '\n'.toUInt8)).length &&
        gapIndented 1 (newline :: ("  " : Text)) && !breaksOff (newline :: ("  " : Text)) u) = true := by rfl
    have hflow : (Plain.block 1 == .flow) = false := rfl
    unfold plainGoesOn
    rw [hflow]
    dsimp only
    rw [hmargin]
    simpa using hgo

theorem plain_line_end (hrest : Solid rest) : plain (.block 1) (newline :: rest) = ([], newline :: rest) := by
  rw [plain_gap rfl, hrest.takeWhile, hrest.dropWhile, if_neg]
  simp [plainGoesOn, newline]

theorem plain_key_end (u : Text) : plain .key (newline :: u) = ([], newline :: u) := by
  rw [plain_gap rfl, if_neg]
  simp [plainGoesOn, newline]

/-- What remains of a text that can be written plain. -/
structure PlainTail (afterSpace : Bool) (t : Text) : Prop where
  printed : t.Printed
  last : t.getLast? ≠ some ' '.toUInt8
  free : isPlainRest afterSpace t = true

theorem PlainTail.head (h : PlainTail afterSpace (b :: t)) : 32 ≤ b.toNat ∧ b.toNat < 128 :=
  (List.forall_mem_cons.mp h.printed).1

theorem PlainTail.tail (h : PlainTail afterSpace (b :: t)) : PlainTail (b == ' '.toUInt8) t := by
  refine ⟨(List.forall_mem_cons.mp h.printed).2, ?_, (Bool.and_eq_true_iff.mp h.free).2⟩
  have hlast := h.last
  cases t with
  | nil => simp
  | cons c t => rwa [List.getLast?_cons_cons] at hlast

theorem PlainTail.tail_byte (h : PlainTail afterSpace (b :: t)) (hb : b ≠ ' '.toUInt8) : PlainTail false t := by
  have htail := h.tail
  rwa [beq_eq_false_iff_ne.mpr hb] at htail

theorem PlainTail.ne_nil (h : PlainTail afterSpace (' '.toUInt8 :: t)) : t ≠ [] := by
  rintro rfl
  exact h.last rfl

theorem PlainTail.ne_sign (h : PlainTail true (b :: t)) : b ≠ '#'.toUInt8 := by
  rintro rfl
  have hfree := h.free
  simp [isPlainRest] at hfree

/-- What is laid out after a byte does not look like an end if no blank follows. -/
theorem Laid.endsHere (h : Laid (spelling false) false afterSpace t w) (ht : t.Printed)
    (hblank : blankFollows t = false) (u : Text) : endsHere (w ++ u) = false := by
  cases t with
  | nil => cases hblank
  | cons c t =>
    obtain ⟨hc, -⟩ := List.forall_mem_cons.mp ht
    have hne : c ≠ ' '.toUInt8 := by
      rintro rfl
      cases hblank
    obtain ⟨v, rfl, -⟩ := h.byte_inv hne
    exact isGapByte_printed hc.1 hne

theorem PlainTail.colon (ht : PlainTail afterSpace (b :: t)) (h : Laid (spelling false) false false t w) (u : Text) :
    b = ':'.toUInt8 → Yaml.endsHere (w ++ u) = false := by
  rintro rfl
  have hfree := ht.free
  refine h.endsHere ht.tail.printed ?_ u
  simp [isPlainRest] at hfree
  exact hfree.1.1

/-- After a space a plain layout goes on. -/
theorem Laid.continues (h : Laid (spelling false) false true t w) (hne : t ≠ []) (ht : PlainTail true t) (u : Text) :
    Continues (w ++ u) := by
  generalize hafter : true = afterSpace at h
  induction h with
  | nil => exact absurd rfl hne
  | byte hb h ih => exact continues_cons (isGapByte_printed ht.head.1 hb) ht.ne_sign (ht.colon h u)
  | space h ih => exact continues_space.mpr (ih ht.ne_nil ht.tail rfl)
  | fold => cases hafter
  | foldMore => cases hafter

theorem Laid.unbroken_plain (h : Laid (spelling false) false true t w) (hne : t ≠ []) (ht : PlainTail true t)
    (u : Text) : Unbroken (w ++ u) := by
  refine h.unbroken (solidSpelling_spelling false) ht.printed fun hall => absurd ?_ ht.last
  rw [List.getLast?_eq_some_getLast hne]
  exact congrArg some (eq_of_beq (List.all_eq_true.mp hall _ (List.getLast_mem hne)))

/-- What is laid out plain is read back up to the end of its last line. -/
theorem plain_laid (h : Laid (spelling false) false afterSpace t w) (ht : PlainTail afterSpace t) (hrest : Solid rest) :
    plain (.block 1) (w ++ newline :: rest) = (t, newline :: rest) := by
  -- A layout and the rules for plain texts carry the same flag, so that a tail of both is a tail again.
  induction h with
  | nil => exact plain_line_end hrest
  | byte hb h ih =>
    have hcons := @plain_cons _ _ (.block 1) (by simp) (isGapByte_printed ht.head.1 hb) (ht.colon h (newline :: rest))
    rwa [ih (ht.tail_byte hb)] at hcons
  | space h ih =>
    have hspace := @plain_space _ (.block 1) (by simp) (h.unbroken_plain ht.ne_nil ht.tail (newline :: rest))
      (h.continues ht.ne_nil ht.tail (newline :: rest))
    rwa [ih ht.tail] at hspace
  | fold hb h ih =>
    obtain ⟨v, rfl, -⟩ := h.byte_inv hb
    have hsolid := solidSpelling_spelling false _ ht.tail.head hb (v ++ newline :: rest)
    rw [← List.append_assoc] at hsolid
    have hfold := plain_fold hsolid (h.continues (List.cons_ne_nil _ _) ht.tail (newline :: rest))
    rwa [ih ht.tail, ← List.append_assoc] at hfold
  | foldMore hslashed => cases hslashed

/-- As a key, what is laid out plain ends with its line. -/
theorem plain_key_laid (h : Laid (spelling false) false afterSpace t w) (ht : PlainTail afterSpace t) (rest : Text) :
    ∃ s u, plain .key (w ++ newline :: rest) = (s, newline :: u) := by
  induction h with
  | nil => exact ⟨[], rest, plain_key_end rest⟩
  | byte hb h ih =>
    obtain ⟨s, u, hsu⟩ := ih (ht.tail_byte hb)
    have hcons := @plain_cons _ _ .key (by simp) (isGapByte_printed ht.head.1 hb) (ht.colon h (newline :: rest))
    rw [hsu] at hcons
    exact ⟨_, u, hcons⟩
  | space h ih =>
    obtain ⟨s, u, hsu⟩ := ih ht.tail
    have hspace := @plain_space _ .key (by simp) (h.unbroken_plain ht.ne_nil ht.tail (newline :: rest))
      (h.continues ht.ne_nil ht.tail (newline :: rest))
    rw [hsu] at hspace
    exact ⟨_, u, hspace⟩
  | fold hb h ih => exact ⟨[], _, plain_key_end _⟩
  | foldMore hslashed => cases hslashed

end Plain

end Pocket.Yaml

import Mathlib
import Pocket.Proofs.Decoding
import Pocket.Target.Pattern

/-!
# Patterns byte by byte

A pattern is read character by character, but for a name only its bytes count: outside classes every byte
of a pattern can be taken alone. What a class may look like is said here without reading it, so that a
class is the same wherever it stands and whatever follows it.
-/

namespace Pocket.Pattern

open Text Glyph

/-! ### Classes as they are written -/

/-- An end of a class range: a character, which stands behind a backslash if it means something in a class. -/
inductive WritesEnd : Text → Nat → Prop where
  | plain {c : Char} (hdash : c ≠ '-') (hclose : c ≠ ']') (hslash : c ≠ '\\') : WritesEnd (ofChar c) c.toNat
  | escaped (c : Char) : WritesEnd ('\\'.toUInt8 :: ofChar c) c.toNat

/-- A range of a class in front of what follows it, which begins with no dash if the range is one character. -/
inductive WritesRange : Text → Text → Nat × Nat → Prop where
  | single {e after : Text} {n : Nat} (hend : WritesEnd e n) (hdash : after.head? ≠ some '-'.toUInt8) :
      WritesRange e after (n, n)
  | pair {e f after : Text} {low high : Nat} (hlow : WritesEnd e low) (hhigh : WritesEnd f high) :
      WritesRange (e ++ '-'.toUInt8 :: f) after (low, high)

/-- Ranges with the bracket that closes their class. -/
inductive WritesRanges : Text → Ranges → Prop where
  | close : WritesRanges [']'.toUInt8] []
  | more {r body : Text} {range : Nat × Nat} {ranges : Ranges} (hrange : WritesRange r body range) :
      WritesRanges body ranges → WritesRanges (r ++ body) (range :: ranges)

/-- A class behind its opening bracket. It has a range, and is negated if it begins with a caret. -/
inductive WritesClass : Text → Bool → Ranges → Prop where
  | plain {body : Text} {ranges : Ranges} (hcaret : body.head? ≠ some '^'.toUInt8) (hne : ranges ≠ [])
      (hbody : WritesRanges body ranges) : WritesClass body false ranges
  | negated {body : Text} {ranges : Ranges} (hne : ranges ≠ []) (hbody : WritesRanges body ranges) :
      WritesClass ('^'.toUInt8 :: body) true ranges

section Shape

variable {e r body after u : Text} {n : Nat} {range : Nat × Nat} {ranges : Ranges}

theorem WritesEnd.ne_nil (h : WritesEnd e n) : e ≠ [] := by
  cases h with
  | plain => exact Spelled.ne_nil (g := .of _) (.inl rfl)
  | escaped => simp

theorem WritesRange.ne_nil (h : WritesRange r after range) : r ≠ [] := by
  cases h with
  | single hend => exact hend.ne_nil
  | pair hlow => simp

theorem WritesRanges.ne_nil (h : WritesRanges body ranges) : body ≠ [] := by
  cases h with
  | close => simp
  | more hrange => simp [hrange.ne_nil]

/-- Of what follows a range only the beginning counts. -/
theorem writesRange_append (hne : after ≠ []) : WritesRange r (after ++ u) range ↔ WritesRange r after range := by
  have hhead : (after ++ u).head? = after.head? := List.head?_append_of_ne_nil after hne
  constructor
  · intro h
    cases h with
    | single hend hdash => exact .single hend (hhead ▸ hdash)
    | pair hlow hhigh => exact .pair hlow hhigh
  · intro h
    cases h with
    | single hend hdash => exact .single hend (hhead ▸ hdash)
    | pair hlow hhigh => exact .pair hlow hhigh

end Shape

/-! ### Reading classes -/

/-- What was read and what is left over, without the proof that this is less. -/
def erase {α : Type} {gs : List Glyph} (r : Option (α × Fewer gs)) : Option (α × List Glyph) :=
  r.map fun p => (p.1, p.2.1)

theorem eq_some_of_erase {α : Type} {gs rest : List Glyph} {r : Option (α × Fewer gs)} {a : α}
    (h : erase r = some (a, rest)) : ∃ hless, r = some (a, ⟨rest, hless⟩) := by
  obtain ⟨⟨a', rest', hless⟩, rfl, hp⟩ := Option.map_eq_some_iff.mp h
  cases hp
  exact ⟨hless, rfl⟩

section Reading

variable {t u e r body : Text} {g : Glyph} {gs rest : List Glyph} {n : Nat} {range : Nat × Nat} {ranges : Ranges}
  {c : Char}

theorem isIllFormed_of (c : Char) : (Glyph.of c).isIllFormed = false := by
  by_cases hc : c = replacement
  · subst hc
    decide
  · simp [isIllFormed, Glyph.of, hc]

theorem char_of (c : Char) : (Glyph.of c).char = c := rfl

theorem glyphs_ascii (hc : c.toNat < 128) (t : Text) : glyphs (c.toUInt8 :: t) = Glyph.of c :: t.glyphs := by
  rw [← glyphs_ofChar_append, ofChar_ascii hc]
  rfl

/-- A text whose first glyph is well formed begins with the spelling of its character. -/
theorem glyphs_wellFormed (h : t.glyphs = g :: rest) (hg : g.isIllFormed = false) :
    ∃ u : Text, t = ofChar g.char ++ u ∧ rest = u.glyphs := by
  obtain ⟨-, -, u, -, -, htext, hrest⟩ := glyphs_eq_cons h
  rcases spelled_of_glyphs h g List.mem_cons_self with hbytes | ⟨hchar, b, -, hbytes⟩
  · exact ⟨u, hbytes ▸ htext, hrest.symm⟩
  · simp [isIllFormed, hchar, hbytes] at hg

theorem glyphs_ascii_inv (h : t.glyphs = g :: rest) (hg : g.char = c) (hc : c.toNat < 128) :
    ∃ u : Text, t = c.toUInt8 :: u ∧ rest = u.glyphs := by
  obtain ⟨-, -, u, -, -, htext, hrest⟩ := glyphs_eq_cons h
  rw [(spelled_of_glyphs h g List.mem_cons_self).bytes_of_ascii hg hc, ofChar_ascii hc] at htext
  exact ⟨u, htext, hrest.symm⟩

theorem glyphs_eq_nil : t.glyphs = [] ↔ t = [] := by
  constructor
  · intro h
    rw [← ofGlyphs_glyphs t, h]
    rfl
  · rintro rfl
    rfl

theorem rangeEnd?_plain (hdash : g.char ≠ '-') (hclose : g.char ≠ ']') (hslash : g.char ≠ '\\') :
    erase (rangeEnd? (g :: rest)) = if g.isIllFormed ∨ rest = [] then none else some (g.char.toNat, rest) := by
  unfold rangeEnd?
  dsimp only
  rw [if_neg (by simp [hdash, hclose]), if_neg hslash]
  split <;> rfl

theorem rangeEnd?_escaped (hslash : g.char = '\\') {g' more : Glyph} :
    erase (rangeEnd? (g :: g' :: more :: rest)) =
      if g'.isIllFormed then none else some (g'.char.toNat, more :: rest) := by
  rw [rangeEnd?, if_neg (by simp [hslash]), if_pos hslash]
  split <;> rfl

theorem rangeEnd?_writes (h : WritesEnd e n) (hu : u ≠ []) :
    erase (rangeEnd? (e ++ u).glyphs) = some (n, u.glyphs) := by
  obtain ⟨more, rest, hmore⟩ := List.exists_cons_of_ne_nil (mt glyphs_eq_nil.mp hu)
  cases h with
  | @plain c hdash hclose hslash =>
    rw [glyphs_ofChar_append, rangeEnd?_plain hdash hclose hslash, if_neg (by simp [isIllFormed_of, hmore])]
    rfl
  | escaped c =>
    rw [List.cons_append, glyphs_ascii (by decide), glyphs_ofChar_append, hmore, rangeEnd?_escaped rfl,
      if_neg (by simp [isIllFormed_of])]
    rfl

theorem writes_of_rangeEnd? (h : erase (rangeEnd? t.glyphs) = some (n, rest)) :
    ∃ e u : Text, WritesEnd e n ∧ t = e ++ u ∧ u ≠ [] ∧ rest = u.glyphs := by
  cases ht : t.glyphs with
  | nil =>
    rw [ht] at h
    cases h
  | cons g gs =>
    rw [ht] at h
    by_cases hslash : g.char = '\\'
    · obtain ⟨u, rfl, hu⟩ := glyphs_ascii_inv ht hslash (by decide)
      -- An end needs a glyph behind it, since the class is not closed yet.
      rcases gs with _ | ⟨g', _ | ⟨more, gs⟩⟩
      · simp [rangeEnd?, hslash, erase] at h
      · simp [rangeEnd?, hslash, erase] at h
      · rw [rangeEnd?_escaped hslash] at h
        split_ifs at h with hill
        obtain ⟨v, rfl, hv⟩ := glyphs_wellFormed hu.symm (by simpa using hill)
        cases h
        refine ⟨_, v, .escaped g'.char, rfl, ?_, hv⟩
        rintro rfl
        cases hv
    · by_cases hspecial : g.char = '-' ∨ g.char = ']'
      · simp [rangeEnd?, hspecial, erase] at h
      · obtain ⟨hdash, hclose⟩ := not_or.mp hspecial
        rw [rangeEnd?_plain hdash hclose hslash] at h
        split_ifs at h with hill
        obtain ⟨hill, hrest⟩ := not_or.mp hill
        obtain ⟨v, rfl, hv⟩ := glyphs_wellFormed ht (by simpa using hill)
        cases h
        exact ⟨_, v, .plain hdash hclose hslash, rfl, fun hnil => hrest (by rw [hv, hnil]; rfl), hv⟩

theorem range?_single (h : erase (rangeEnd? gs) = some (n, rest)) (hdash : ∀ g ∈ rest.head?, g.char ≠ '-') :
    erase (range? gs) = some ((n, n), rest) := by
  obtain ⟨hless, hread⟩ := eq_some_of_erase h
  rw [range?, hread]
  cases rest with
  | nil => rfl
  | cons dash rest =>
    dsimp only
    rw [if_neg (hdash dash rfl)]
    rfl

theorem range?_dash (h : erase (rangeEnd? gs) = some (n, g :: rest)) (hg : g.char = '-') :
    erase (range? gs) = (erase (rangeEnd? rest)).map fun p => ((n, p.1), p.2) := by
  obtain ⟨hless, hread⟩ := eq_some_of_erase h
  rw [range?, hread]
  dsimp only
  rw [if_pos hg]
  cases rangeEnd? rest <;> rfl

theorem head_ne_of_glyphs (hc : c.toNat < 128) (h : t.head? ≠ some c.toUInt8) : ∀ g ∈ t.glyphs.head?, g.char ≠ c := by
  intro g hg hchar
  obtain ⟨rest, hrest⟩ := List.head?_eq_some_iff.mp hg
  obtain ⟨u, rfl, -⟩ := glyphs_ascii_inv hrest hchar hc
  exact h rfl

theorem range?_writes (h : WritesRange e u range) (hu : u ≠ []) :
    erase (range? (e ++ u).glyphs) = some (range, u.glyphs) := by
  cases h with
  | single hend hdash => exact range?_single (rangeEnd?_writes hend hu) (head_ne_of_glyphs (by decide) hdash)
  | @pair e f _ low high hlow hhigh =>
    have hread := rangeEnd?_writes hlow (u := '-'.toUInt8 :: (f ++ u)) (by simp)
    rw [glyphs_ascii (by decide)] at hread
    rw [List.append_assoc, List.cons_append, range?_dash hread rfl, rangeEnd?_writes hhigh hu]
    rfl

theorem writes_of_range? (h : erase (range? t.glyphs) = some (range, rest)) :
    ∃ r u : Text, WritesRange r u range ∧ t = r ++ u ∧ u ≠ [] ∧ rest = u.glyphs := by
  cases hlow : erase (rangeEnd? t.glyphs) with
  | none =>
    rw [erase, Option.map_eq_none_iff] at hlow
    rw [range?, hlow] at h
    cases h
  | some p =>
    obtain ⟨low, gs⟩ := p
    obtain ⟨e, u, he, rfl, hu, rfl⟩ := writes_of_rangeEnd? hlow
    by_cases hdash : u.head? = some '-'.toUInt8
    · obtain ⟨v, rfl⟩ := List.head?_eq_some_iff.mp hdash
      rw [glyphs_ascii (by decide)] at hlow
      rw [range?_dash hlow rfl] at h
      obtain ⟨⟨high, gs⟩, hhigh, hp⟩ := Option.map_eq_some_iff.mp h
      cases hp
      obtain ⟨f, w, hf, rfl, hw, hrest⟩ := writes_of_rangeEnd? hhigh
      exact ⟨_, w, .pair he hf, by simp, hw, hrest⟩
    · rw [range?_single hlow (head_ne_of_glyphs (by decide) hdash)] at h
      cases h
      exact ⟨e, u, .single he hdash, rfl, hu, rfl⟩

/-- An end of a range begins with no closing bracket. -/
theorem WritesEnd.head_ne (h : WritesEnd e n) : e.head? ≠ some ']'.toUInt8 := by
  cases h with
  | @plain c hdash hclose hslash =>
    intro hhead
    have hmem := List.mem_of_mem_head? hhead
    exact Spelled.not_mem_bytes (g := .of c) (.inl rfl) (by decide) hclose hmem
  | escaped c => simp; decide

theorem WritesRange.head_ne (h : WritesRange r u range) : r.head? ≠ some ']'.toUInt8 := by
  cases h with
  | single hend => exact hend.head_ne
  | pair hlow =>
    rw [List.head?_append_of_ne_nil _ hlow.ne_nil]
    exact hlow.head_ne

theorem ranges?_close (hg : g.char = ']') : erase (ranges? (g :: rest)) = some ([], rest) := by
  rw [ranges?, if_pos hg]
  rfl

theorem ranges?_more (hclose : ∀ g ∈ gs.head?, g.char ≠ ']') (h : erase (range? gs) = some (range, rest)) :
    erase (ranges? gs) = (erase (ranges? rest)).map fun p => (range :: p.1, p.2) := by
  obtain ⟨hless, hread⟩ := eq_some_of_erase h
  cases gs with
  | nil => cases hread
  | cons g gs =>
    rw [ranges?, if_neg (hclose g rfl)]
    rw [hread]
    dsimp only
    cases ranges? rest <;> rfl

theorem ranges?_none (hclose : ∀ g ∈ gs.head?, g.char ≠ ']') (h : erase (range? gs) = none) :
    erase (ranges? gs) = none := by
  rw [erase, Option.map_eq_none_iff] at h
  cases gs with
  | nil =>
    rw [ranges?]
    rfl
  | cons g gs =>
    rw [ranges?, if_neg (hclose g rfl), h]
    rfl

theorem ranges?_writes (h : WritesRanges body ranges) (u : Text) :
    erase (ranges? (body ++ u).glyphs) = some (ranges, u.glyphs) := by
  induction h with
  | close =>
    rw [List.cons_append, glyphs_ascii (by decide), ranges?_close rfl]
    rfl
  | @more r body range ranges hrange hbody ih =>
    have hrange' : WritesRange r (body ++ u) range := (writesRange_append hbody.ne_nil).mpr hrange
    have hclose : (r ++ (body ++ u)).head? ≠ some ']'.toUInt8 := by
      rw [List.head?_append_of_ne_nil _ hrange.ne_nil]
      exact hrange.head_ne
    rw [List.append_assoc, ranges?_more (head_ne_of_glyphs (by decide) hclose)
      (range?_writes hrange' (by simp [hbody.ne_nil])), ih]
    rfl

theorem writes_of_ranges? (h : erase (ranges? t.glyphs) = some (ranges, rest)) :
    ∃ body u : Text, WritesRanges body ranges ∧ t = body ++ u ∧ rest = u.glyphs := by
  generalize hn : t.length = k
  induction k using Nat.strongRecOn generalizing t ranges with
  | ind k ih =>
    by_cases hclose : t.head? = some ']'.toUInt8
    · obtain ⟨u, rfl⟩ := List.head?_eq_some_iff.mp hclose
      rw [glyphs_ascii (by decide), ranges?_close rfl] at h
      cases h
      exact ⟨[']'.toUInt8], u, .close, rfl, rfl⟩
    · have hhead := head_ne_of_glyphs (by decide) hclose
      cases hrange : erase (range? t.glyphs) with
      | none =>
        rw [ranges?_none hhead hrange] at h
        cases h
      | some p =>
        obtain ⟨range, gs⟩ := p
        obtain ⟨r, u, hr, rfl, hu, rfl⟩ := writes_of_range? hrange
        rw [ranges?_more hhead hrange] at h
        obtain ⟨⟨ranges, rest⟩, hmore, hp⟩ := Option.map_eq_some_iff.mp h
        cases hp
        -- A range is not empty, so the text behind it is shorter.
        have hshort : u.length < k := by
          have := List.length_pos_of_ne_nil hr.ne_nil
          rw [← hn, List.length_append]
          omega
        obtain ⟨body, v, hbody, rfl, hrest⟩ := ih u.length hshort hmore rfl
        exact ⟨r ++ body, v, .more ((writesRange_append hbody.ne_nil).mp hr) hbody, by simp, hrest⟩

/-- The ranges of a class, of which there is at least one. -/
def someRanges? (gs : List Glyph) : Option (Ranges × List Glyph) :=
  (erase (range? gs)).bind fun p => (erase (ranges? p.2)).map fun q => (p.1 :: q.1, q.2)

theorem someRanges?_eq_some_iff : someRanges? t.glyphs = some (ranges, rest) ↔
    ranges ≠ [] ∧ ∃ body u : Text, WritesRanges body ranges ∧ t = body ++ u ∧ rest = u.glyphs := by
  constructor
  · intro h
    obtain ⟨⟨range, gs⟩, hrange, hmap⟩ := Option.bind_eq_some_iff.mp h
    obtain ⟨⟨ranges, rest⟩, hranges, hq⟩ := Option.map_eq_some_iff.mp hmap
    cases hq
    obtain ⟨r, u, hr, rfl, -, rfl⟩ := writes_of_range? hrange
    obtain ⟨body, v, hbody, rfl, hrest⟩ := writes_of_ranges? hranges
    exact ⟨by simp, r ++ body, v, .more ((writesRange_append hbody.ne_nil).mp hr) hbody, by simp, hrest⟩
  · rintro ⟨hne, body, u, hbody, rfl, rfl⟩
    cases hbody with
    | close => exact absurd rfl hne
    | more hrange hbody =>
      rw [someRanges?, List.append_assoc, range?_writes ((writesRange_append hbody.ne_nil).mpr hrange)
        (by simp [hbody.ne_nil]), Option.bind_some, ranges?_writes hbody]
      rfl

theorem class?_eq (gs : List Glyph) : erase (class? gs) =
    (someRanges? (if gs.head?.map Glyph.char = some '^' then gs.tail else gs)).map fun q =>
      (.oneOf (gs.head?.map Glyph.char = some '^') q.1, q.2) := by
  unfold class? someRanges?
  dsimp only
  split
  · next hnone =>
    rw [hnone]
    rfl
  · next range rest hless hrange =>
    rw [hrange]
    cases hranges : ranges? rest with
    | none => simp [erase, hranges]
    | some q => simp [erase, hranges]

theorem class?_negated (u : Text) : erase (class? (glyphs ('^'.toUInt8 :: u))) =
    (someRanges? u.glyphs).map fun q => (.oneOf true q.1, q.2) := by
  rw [class?_eq, glyphs_ascii (by decide)]
  rfl

theorem class?_plain (hcaret : t.head? ≠ some '^'.toUInt8) : erase (class? t.glyphs) =
    (someRanges? t.glyphs).map fun q => (.oneOf false q.1, q.2) := by
  have hhead : t.glyphs.head?.map Glyph.char ≠ some '^' := by
    intro h
    obtain ⟨g, hg, hchar⟩ := Option.map_eq_some_iff.mp h
    exact head_ne_of_glyphs (by decide) hcaret g hg hchar
  simp only [class?_eq, if_neg hhead, decide_eq_false hhead]

/-- A class is read exactly where one is written. -/
theorem class?_eq_some_iff {p : Piece} : erase (class? t.glyphs) = some (p, rest) ↔
    ∃ negated ranges, ∃ c u : Text,
      WritesClass c negated ranges ∧ t = c ++ u ∧ p = .oneOf negated ranges ∧ rest = u.glyphs := by
  constructor
  · intro h
    by_cases hcaret : t.head? = some '^'.toUInt8
    · obtain ⟨v, rfl⟩ := List.head?_eq_some_iff.mp hcaret
      rw [class?_negated] at h
      obtain ⟨⟨ranges, gs⟩, hranges, hq⟩ := Option.map_eq_some_iff.mp h
      cases hq
      obtain ⟨hne, body, u, hbody, rfl, hrest⟩ := someRanges?_eq_some_iff.mp hranges
      exact ⟨true, ranges, _, u, .negated hne hbody, rfl, rfl, hrest⟩
    · rw [class?_plain hcaret] at h
      obtain ⟨⟨ranges, gs⟩, hranges, hq⟩ := Option.map_eq_some_iff.mp h
      cases hq
      obtain ⟨hne, body, u, hbody, rfl, hrest⟩ := someRanges?_eq_some_iff.mp hranges
      -- The caret would be the first byte of the ranges, so they do not begin with one.
      rw [List.head?_append_of_ne_nil _ hbody.ne_nil] at hcaret
      exact ⟨false, ranges, body, u, .plain hcaret hne hbody, rfl, rfl, hrest⟩
  · rintro ⟨negated, ranges, c, u, hclass, rfl, rfl, rfl⟩
    cases hclass with
    | plain hcaret hne hbody =>
      rw [class?_plain (by rwa [List.head?_append_of_ne_nil _ hbody.ne_nil]),
        someRanges?_eq_some_iff.mpr ⟨hne, _, u, hbody, rfl, rfl⟩]
      rfl
    | negated hne hbody =>
      rw [List.cons_append, class?_negated, someRanges?_eq_some_iff.mpr ⟨hne, _, u, hbody, rfl, rfl⟩]
      rfl

end Reading

/-! ### Symbols byte by byte -/

section Symbols

variable {t u : Text} {b : UInt8} {c : Char}

/-- A byte that stands for itself. -/
abbrev literal (b : UInt8) : Symbol := .piece (.byte b)

/-- What a symbol stands for where stars mean nothing. -/
def Symbol.asPiece : Symbol → Piece
  | .star => .byte '*'.toUInt8
  | .piece p => p

theorem symbols?_nil : symbols? (glyphs []) = some [] := by
  rw [glyphs, glyphsAfter, symbols?]

theorem symbols?_cons (g : Glyph) (rest : List Glyph) : symbols? (g :: rest) =
    if g.char = '*' then (symbols? rest).map (.star :: ·)
    else if g.char = '?' then (symbols? rest).map (.piece .anyChar :: ·)
    else if g.char = '[' then (erase (class? rest)).bind fun q => (symbols? q.2).map (.piece q.1 :: ·)
    else if g.char = '\\' then
      rest.head?.bind fun e => (symbols? rest.tail).map (e.bytes.map literal ++ ·)
    else (symbols? rest).map (g.bytes.map literal ++ ·) := by
  rw [symbols?.eq_def]
  dsimp only
  split_ifs
  · rfl
  · rfl
  · cases class? rest <;> rfl
  · cases rest <;> rfl
  · rfl

theorem symbols?_star (t : Text) : symbols? (glyphs ('*'.toUInt8 :: t)) = (symbols? t.glyphs).map (.star :: ·) := by
  rw [glyphs_ascii (by decide), symbols?_cons, char_of, if_pos rfl]

theorem symbols?_any (t : Text) :
    symbols? (glyphs ('?'.toUInt8 :: t)) = (symbols? t.glyphs).map (.piece .anyChar :: ·) := by
  rw [glyphs_ascii (by decide), symbols?_cons, char_of, if_neg (by decide), if_pos rfl]

theorem symbols?_class {negated : Bool} {ranges : Ranges} {c : Text} (h : WritesClass c negated ranges) (u : Text) :
    symbols? (glyphs ('['.toUInt8 :: (c ++ u))) = (symbols? u.glyphs).map (.piece (.oneOf negated ranges) :: ·) := by
  rw [glyphs_ascii (by decide), symbols?_cons, char_of, if_neg (by decide), if_neg (by decide), if_pos rfl,
    class?_eq_some_iff.mpr ⟨_, _, c, u, h, rfl, rfl, rfl⟩]
  rfl

theorem symbols?_no_class (h : ∀ negated ranges, ∀ c u : Text, WritesClass c negated ranges → t ≠ c ++ u) :
    symbols? (glyphs ('['.toUInt8 :: t)) = none := by
  have hread : erase (class? t.glyphs) = none := by
    refine Option.eq_none_iff_forall_ne_some.mpr fun q hq => ?_
    obtain ⟨negated, ranges, c, u, hc, ht, -⟩ := class?_eq_some_iff.mp hq
    exact h negated ranges c u hc ht
  rw [glyphs_ascii (by decide), symbols?_cons, char_of, if_neg (by decide), if_neg (by decide), if_pos rfl, hread]
  rfl

/-- A byte that begins no spelling stands for itself. -/
theorem symbols?_continuation (hb : spellingLength b = 0) (t : Text) :
    symbols? (glyphs (b :: t)) = (symbols? t.glyphs).map (literal b :: ·) := by
  have hfirst : first b t = ⟨replacement, [b]⟩ := by
    rw [first, hb, List.take_zero, show spelled? [] = none by decide]
  have hglyphs : glyphs (b :: t) = ⟨replacement, [b]⟩ :: t.glyphs := by
    rw [glyphs, glyphsAfter, hfirst]
    rfl
  rw [hglyphs, symbols?_cons]
  dsimp only
  rw [if_neg (by decide), if_neg (by decide), if_neg (by decide), if_neg (by decide)]
  rfl

theorem symbols?_continuations {tail : Text} (h : ∀ b ∈ tail, spellingLength b = 0) (t : Text) :
    symbols? (tail ++ t).glyphs = (symbols? t.glyphs).map (tail.map literal ++ ·) := by
  induction tail with
  | nil => simp
  | cons b tail ih =>
    obtain ⟨hb, htail⟩ := List.forall_mem_cons.mp h
    rw [List.cons_append, symbols?_continuation hb, ih htail, Option.map_map]
    rfl

/-- Of a glyph that stands for itself the first byte can be taken alone. -/
theorem symbols?_first (b : UInt8) (t : Text) : ∃ after : Text,
    glyphs (b :: t) = first b t :: after.glyphs ∧
      (symbols? after.glyphs).map ((first b t).bytes.map literal ++ ·) =
        (symbols? t.glyphs).map (literal b :: ·) := by
  obtain ⟨after, htext, hglyphs⟩ := glyphs_cons_eq b t
  refine ⟨after, hglyphs, ?_⟩
  rcases first_cases b t with ⟨c, -, hfirst⟩ | ⟨-, hfirst⟩
  · obtain ⟨b', tail, hc, -, htail⟩ := ofChar_shape c
    have hbytes : (first b t).bytes = b' :: tail := by rw [hfirst, ← hc]; rfl
    rw [hbytes, List.cons_append] at htext
    obtain ⟨rfl, rfl⟩ := List.cons.inj htext
    rw [hbytes, symbols?_continuations htail, Option.map_map]
    rfl
  · have hbytes : (first b t).bytes = [b] := by rw [hfirst]
    rw [hbytes] at htext
    obtain ⟨-, rfl⟩ := List.cons.inj htext
    rw [hbytes]
    rfl

theorem symbols?_escape (b : UInt8) (t : Text) :
    symbols? (glyphs ('\\'.toUInt8 :: b :: t)) = (symbols? t.glyphs).map (literal b :: ·) := by
  obtain ⟨after, hglyphs, hfirst⟩ := symbols?_first b t
  rw [glyphs_ascii (by decide), symbols?_cons, char_of, if_neg (by decide), if_neg (by decide), if_neg (by decide),
    if_pos rfl, hglyphs, ← hfirst]
  rfl

theorem symbols?_lone_escape : symbols? (glyphs ['\\'.toUInt8]) = none := by
  rw [glyphs_ascii (by decide), symbols?_cons, char_of, if_neg (by decide), if_neg (by decide), if_neg (by decide),
    if_pos rfl]
  rfl

/-- A text begins with the byte of an ASCII character exactly if its first glyph is this character. -/
theorem char_first_iff (hc : c.toNat < 128) : (first b t).char = c ↔ b = c.toUInt8 := by
  constructor
  · intro hchar
    obtain ⟨after, htext, hglyphs⟩ := glyphs_cons_eq b t
    obtain ⟨u, hu, -⟩ := glyphs_ascii_inv hglyphs hchar hc
    exact (List.cons.inj hu).1
  · rintro rfl
    have hbegins : ofChar c <+: c.toUInt8 :: t := by simp [ofChar_ascii hc]
    rw [first_of_begins hbegins, char_of]

theorem symbols?_literal (hstar : b ≠ '*'.toUInt8) (hany : b ≠ '?'.toUInt8) (hopen : b ≠ '['.toUInt8)
    (hslash : b ≠ '\\'.toUInt8) (t : Text) :
    symbols? (glyphs (b :: t)) = (symbols? t.glyphs).map (literal b :: ·) := by
  obtain ⟨after, hglyphs, hfirst⟩ := symbols?_first b t
  have hchar : ∀ c : Char, c.toNat < 128 → b ≠ c.toUInt8 → (first b t).char ≠ c := fun _ hc =>
    mt (char_first_iff hc).mp
  rw [hglyphs, symbols?_cons, if_neg (hchar _ (by decide) hstar), if_neg (hchar _ (by decide) hany),
    if_neg (hchar _ (by decide) hopen), if_neg (hchar _ (by decide) hslash), hfirst]

/-- Something is read in every text but the empty one. -/
theorem symbols?_ne_nil {ss : List Symbol} (ht : t ≠ []) (h : symbols? t.glyphs = some ss) : ss ≠ [] := by
  obtain ⟨b, rest, rfl⟩ := List.exists_cons_of_ne_nil ht
  obtain ⟨after, hglyphs, hfirst⟩ := symbols?_first b rest
  rw [hglyphs, symbols?_cons] at h
  split_ifs at h
  · obtain ⟨_, -, rfl⟩ := Option.map_eq_some_iff.mp h
    simp
  · obtain ⟨_, -, rfl⟩ := Option.map_eq_some_iff.mp h
    simp
  · obtain ⟨_, -, hmap⟩ := Option.bind_eq_some_iff.mp h
    obtain ⟨_, -, rfl⟩ := Option.map_eq_some_iff.mp hmap
    simp
  · obtain ⟨e, he, hmap⟩ := Option.bind_eq_some_iff.mp h
    obtain ⟨_, -, rfl⟩ := Option.map_eq_some_iff.mp hmap
    simp [(spelled_glyphs e (List.mem_of_mem_head? he)).ne_nil]
  · rw [hfirst] at h
    obtain ⟨_, -, rfl⟩ := Option.map_eq_some_iff.mp h
    simp

end Symbols

end Pocket.Pattern

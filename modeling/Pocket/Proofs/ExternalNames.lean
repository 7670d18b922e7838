import Mathlib
import Pocket.Proofs.Chunkwise

/-!
# External names

A pattern that passes the check of a profile never fails. The check tries it on the empty name, and matching
goes chunk by chunk; but a pattern falls into chunks where it falls into symbols, and whatever happens with the
name, all of the chunks are read. So a pattern fails on every name or on none.
-/

namespace Pocket

namespace Chunkwise

open Text Glyph Pattern

/-! ### Where chunks end -/

section Cut

variable {t u v w e r body c bs : Text} {n : Nat} {range : Nat × Nat} {ranges : Ranges} {negated : Bool}

theorem cut_cons {inside : Bool} {b : UInt8} (hslash : b ≠ '\\'.toUInt8)
    (hstar : ¬(b = '*'.toUInt8 ∧ inside = false)) (u : Text) : cut inside (b :: u) =
      (b :: (cut (b = '['.toUInt8 ∨ b ≠ ']'.toUInt8 ∧ inside = true) u).1,
        (cut (b = '['.toUInt8 ∨ b ≠ ']'.toUInt8 ∧ inside = true) u).2) := by
  rw [cut.eq_def]
  dsimp only
  rw [if_neg hslash, if_neg hstar]

theorem cut_star (u : Text) : cut false ('*'.toUInt8 :: u) = ([], '*'.toUInt8 :: u) := by
  rw [cut.eq_def]
  dsimp only
  rw [if_neg (by decide), if_pos ⟨rfl, rfl⟩]

/-- Between brackets only backslashes and the closing bracket count. -/
theorem cut_inside (h : ∀ b ∈ bs, b ≠ '\\'.toUInt8 ∧ b ≠ ']'.toUInt8) (u : Text) :
    cut true (bs ++ u) = (bs ++ (cut true u).1, (cut true u).2) := by
  induction bs with
  | nil => rfl
  | cons b bs ih =>
    obtain ⟨⟨hslash, hclose⟩, hbs⟩ := List.forall_mem_cons.mp h
    rw [List.cons_append, cut_cons hslash (by simp)]
    simp [hclose, ih hbs]

theorem cut_ofChar {c : Char} (hslash : c ≠ '\\') (hclose : c ≠ ']') (u : Text) :
    cut true (ofChar c ++ u) = (ofChar c ++ (cut true u).1, (cut true u).2) := by
  have hspelled : (Glyph.of c).Spelled := .inl rfl
  refine cut_inside (fun b hb => ⟨?_, ?_⟩) u
  · rintro rfl
    exact hspelled.not_mem_bytes (by decide) hslash hb
  · rintro rfl
    exact hspelled.not_mem_bytes (by decide) hclose hb

theorem cut_escaped (c : Char) (u : Text) : cut true ('\\'.toUInt8 :: (ofChar c ++ u)) =
    ('\\'.toUInt8 :: (ofChar c ++ (cut true u).1), (cut true u).2) := by
  obtain ⟨b, tail, hc, -, htail⟩ := ofChar_shape c
  have hinside : ∀ b ∈ tail, b ≠ '\\'.toUInt8 ∧ b ≠ ']'.toUInt8 := by
    intro b hb
    have hlength := htail b hb
    constructor <;> rintro rfl <;> exact absurd hlength (by decide)
  rw [hc, List.cons_append, cut.eq_def]
  simp [cut_inside hinside]

theorem cut_end (h : WritesEnd e n) (u : Text) : cut true (e ++ u) = (e ++ (cut true u).1, (cut true u).2) := by
  cases h with
  | plain hdash hclose hslash => exact cut_ofChar hslash hclose u
  | escaped c => exact cut_escaped c u

theorem cut_range (h : WritesRange r v range) (u : Text) :
    cut true (r ++ u) = (r ++ (cut true u).1, (cut true u).2) := by
  cases h with
  | single hend => exact cut_end hend u
  | @pair e f _ _ _ hlow hhigh =>
    have hdash : cut true ('-'.toUInt8 :: (f ++ u)) = ('-'.toUInt8 :: (cut true (f ++ u)).1, (cut true (f ++ u)).2) :=
      cut_inside (List.forall_mem_singleton.mpr (by decide)) (f ++ u)
    rw [List.append_assoc, List.cons_append, cut_end hlow, hdash, cut_end hhigh]
    simp

/-- The brackets of a class are passed together. -/
theorem cut_ranges (h : WritesRanges body ranges) (u : Text) :
    cut true (body ++ u) = (body ++ (cut false u).1, (cut false u).2) := by
  induction h with
  | close =>
    rw [List.cons_append, cut_cons (by decide) (by simp), decide_eq_false (by decide)]
    rfl
  | more hrange hbody ih =>
    rw [List.append_assoc, cut_range hrange, ih]
    simp

theorem cut_class (h : WritesClass c negated ranges) (u : Text) :
    cut true (c ++ u) = (c ++ (cut false u).1, (cut false u).2) := by
  cases h with
  | plain hcaret hne hbody => exact cut_ranges hbody u
  | @negated body ranges hne hbody =>
    have hcaret : cut true ('^'.toUInt8 :: (body ++ u)) =
        ('^'.toUInt8 :: (cut true (body ++ u)).1, (cut true (body ++ u)).2) :=
      cut_inside (List.forall_mem_singleton.mpr (by decide)) (body ++ u)
    rw [List.cons_append, hcaret, cut_ranges hbody]
    rfl

/-- A chunk goes up to a star or to the end. -/
theorem cut_more (inside : Bool) (t : Text) : (cut inside t).2 = [] ∨ ∃ u, (cut inside t).2 = '*'.toUInt8 :: u := by
  fun_induction cut inside t with
  | case1 => exact .inl rfl
  | case2 => exact .inl rfl
  | case3 inside c rest ih => exact ih
  | case4 inside b rest hb hstar => exact .inr ⟨rest, by rw [hstar.1]⟩
  | case5 inside b rest hb hstar inside' ih => exact ih

/-- A text is read by reading two parts of it, the first of which has no stars. -/
structure Splits (t u v : Text) : Prop where
  reads : symbols? t.glyphs = (symbols? u.glyphs).bind fun as => (symbols? v.glyphs).map (as ++ ·)
  pieces : ∀ as, symbols? u.glyphs = some as → .star ∉ as

theorem Splits.piece {p : Piece} (h : Splits r u v)
    (ht : symbols? t.glyphs = (symbols? r.glyphs).map (.piece p :: ·))
    (hw : symbols? w.glyphs = (symbols? u.glyphs).map (.piece p :: ·)) : Splits t w v := by
  constructor
  · rw [ht, hw, h.reads]
    cases symbols? u.glyphs with
    | none => rfl
    | some as => simp [Function.comp_def]
  · intro as has
    rw [hw] at has
    obtain ⟨as', has', rfl⟩ := Option.map_eq_some_iff.mp has
    simp [h.pieces as' has']

theorem Splits.malformed (ht : symbols? t.glyphs = none) (hu : symbols? u.glyphs = none) : Splits t u v :=
  ⟨by rw [ht, hu]; rfl, by simp [hu]⟩

theorem splits_escape (rest : Text) (ih : ∀ c u, rest = c :: u → Splits u (cut false u).1 (cut false u).2) :
    Splits ('\\'.toUInt8 :: rest) (cut false ('\\'.toUInt8 :: rest)).1 (cut false ('\\'.toUInt8 :: rest)).2 := by
  rw [cut.eq_def]
  dsimp only
  rw [if_pos rfl]
  cases rest with
  | nil => exact .malformed symbols?_lone_escape symbols?_lone_escape
  | cons c u => exact (ih c u rfl).piece (symbols?_escape c u) (symbols?_escape c _)

theorem splits_open (rest : Text) (ih : ∀ c u, rest = c ++ u → Splits u (cut false u).1 (cut false u).2) :
    Splits ('['.toUInt8 :: rest) (cut false ('['.toUInt8 :: rest)).1 (cut false ('['.toUInt8 :: rest)).2 := by
  rw [cut_cons (by decide) (by decide), decide_eq_true (.inl rfl)]
  by_cases hclass : ∃ negated ranges c u, WritesClass c negated ranges ∧ rest = c ++ u
  · obtain ⟨negated, ranges, c, u, hc, rfl⟩ := hclass
    rw [cut_class hc]
    exact (ih c u rfl).piece (symbols?_class hc u) (symbols?_class hc _)
  · -- A class that the chunk could hold would be one of the whole text.
    refine .malformed (symbols?_no_class ?_) (symbols?_no_class ?_)
    · exact fun negated ranges c u hc hrest => hclass ⟨negated, ranges, c, u, hc, hrest⟩
    · intro negated ranges c u hc htext
      refine hclass ⟨negated, ranges, c, u ++ (cut true rest).2, hc, ?_⟩
      rw [← List.append_assoc, ← htext, cut_append]

theorem splits_cut (t : Text) : Splits t (cut false t).1 (cut false t).2 := by
  generalize hn : t.length = k
  induction k using Nat.strongRecOn generalizing t with
  | ind k ih =>
    subst hn
    cases t with
    | nil => exact ⟨by simp [cut, symbols?_nil], by simp [cut, symbols?_nil]⟩
    | cons b rest =>
      have hshort : ∀ c u, rest = c ++ u → Splits u (cut false u).1 (cut false u).2 := by
        rintro c u rfl
        exact ih u.length (by simp only [List.length_cons, List.length_append]; omega) u rfl
      by_cases hslash : b = '\\'.toUInt8
      · subst hslash
        exact splits_escape rest fun c u hu => hshort [c] u hu
      by_cases hopen : b = '['.toUInt8
      · subst hopen
        exact splits_open rest hshort
      by_cases hstar : b = '*'.toUInt8
      · subst hstar
        rw [cut_star]
        exact ⟨by simp [symbols?_nil], by simp [symbols?_nil]⟩
      · rw [cut_cons hslash (fun h => hstar h.1), decide_eq_false (by simp [hopen])]
        by_cases hany : b = '?'.toUInt8
        · subst hany
          exact (hshort [] rest rfl).piece (symbols?_any rest) (symbols?_any _)
        · exact (hshort [] rest rfl).piece (symbols?_literal hstar hany hopen hslash rest)
            (symbols?_literal hstar hany hopen hslash _)

end Cut

/-! ### Reading chunk by chunk -/

section Chunks

variable {as : List Symbol}

theorem symbols?_stars (n : Nat) (t : Text) : symbols? (glyphs (List.replicate n '*'.toUInt8 ++ t)) =
    (symbols? t.glyphs).map (List.replicate n .star ++ ·) := by
  induction n with
  | zero => simp
  | succ n ih =>
    rw [List.replicate_succ, List.cons_append, symbols?_star, ih, Option.map_map]
    rfl

/-- A pattern is read chunk by chunk. -/
theorem symbols?_nextChunk (pattern : Text) : ∃ n, ((nextChunk pattern).starred = true ↔ 0 < n) ∧
    symbols? pattern.glyphs = (symbols? (nextChunk pattern).text.glyphs).bind fun as =>
      (symbols? (nextChunk pattern).more.glyphs).map fun bs => List.replicate n .star ++ (as ++ bs) := by
  have hstars : pattern.takeWhile (· = '*'.toUInt8) =
      List.replicate (pattern.takeWhile (· = '*'.toUInt8)).length '*'.toUInt8 :=
    List.eq_replicate_of_mem fun b hb => by simpa using List.mem_takeWhile_imp hb
  have hpattern := List.takeWhile_append_dropWhile (p := (· = '*'.toUInt8)) (l := pattern)
  refine ⟨(pattern.takeWhile (· = '*'.toUInt8)).length, ?_, ?_⟩
  · cases pattern with
    | nil => simp [nextChunk]
    | cons b rest => by_cases hb : b = '*'.toUInt8 <;> simp [nextChunk, hb]
  · conv_lhs => rw [← hpattern, hstars, symbols?_stars, (splits_cut _).reads, Option.map_bind]
    simp only [Function.comp_def, Option.map_map]
    rfl

theorem eq_map_piece (h : .star ∉ as) : as = (as.map Symbol.asPiece).map .piece := by
  induction as with
  | nil => rfl
  | cons s as ih =>
    obtain ⟨hs, has⟩ := not_or.mp (mt List.mem_cons.mpr h)
    cases s with
    | star => exact absurd rfl hs
    | piece p => rw [List.map_cons, List.map_cons, ← ih has]; rfl

end Chunks

/-! ### Patterns grouped at their stars -/

section Groups

variable {bs : List Symbol} {ps : List Piece}

theorem ofSymbols_pieces (ps : List Piece) (bs : List Symbol) :
    ofSymbols (ps.map .piece ++ bs) = ⟨ps ++ (ofSymbols bs).head, (ofSymbols bs).starred⟩ := by
  induction ps with
  | nil => rfl
  | cons p ps ih => simp only [List.map_cons, List.cons_append, ofSymbols, ih]

theorem ofSymbols_star (ss : List Symbol) :
    (ofSymbols (.star :: ss)).head = [] ∧ (ofSymbols (.star :: ss)).starred ≠ [] := by
  rw [ofSymbols]
  split_ifs with h
  · simp_all
  · simp

/-- Stars in a row count as one. -/
theorem ofSymbols_stars (n : Nat) (ss : List Symbol) :
    ofSymbols (List.replicate (n + 1) .star ++ ss) = ofSymbols (.star :: ss) := by
  induction n with
  | zero => rfl
  | succ n ih =>
    obtain ⟨hhead, hstarred⟩ := ofSymbols_star ss
    rw [List.replicate_succ, List.cons_append, ofSymbols, ih]
    generalize ofSymbols (.star :: ss) = p at hhead hstarred ⊢
    obtain ⟨head, starred⟩ := p
    simp_all

/-- What is left over of a pattern behind a chunk: nothing, or a star and what follows it. -/
def Behind (bs : List Symbol) : Prop :=
  ∀ s ∈ bs.head?, s = .star

theorem Behind.head (h : Behind bs) : (ofSymbols bs).head = [] := by
  cases bs with
  | nil => rfl
  | cons s bs =>
    rw [h s rfl]
    exact (ofSymbols_star bs).1

theorem Behind.starred (h : Behind bs) : (ofSymbols bs).starred.isEmpty = bs.isEmpty := by
  cases bs with
  | nil => rfl
  | cons s bs =>
    rw [h s rfl]
    simp [(ofSymbols_star bs).2]

theorem Behind.fits (h : Behind bs) (name : Text) :
    (ofSymbols bs).fits name = fitsStarred (ofSymbols bs).starred name := by
  rw [Pattern.fits, h.head]
  rfl

/-- Pieces that stand at the front of a pattern are taken off the front of a name. -/
theorem fits_front (hbs : Behind bs) (ps : List Piece) (name : Text) : (ofSymbols (ps.map .piece ++ bs)).fits name =
    ((takeAll? ps name).filter fun rest => rest.isEmpty || !bs.isEmpty).any (ofSymbols bs).fits := by
  rw [ofSymbols_pieces, hbs.head, List.append_nil, Pattern.fits]
  cases takeAll? ps name with
  | none => rfl
  | some rest =>
    by_cases hleft : (rest.isEmpty || !bs.isEmpty) = true
    · simp only [Option.filter_some, hleft, if_true, Option.any_some, hbs.fits]
    · -- The pattern is at its end, and the name is not.
      obtain ⟨hrest, hempty⟩ : rest.isEmpty = false ∧ bs.isEmpty = true := by simpa using hleft
      rw [← hbs.starred, List.isEmpty_iff] at hempty
      rw [Option.filter_some, if_neg hleft]
      simp [hempty, fitsStarred, hrest]

/-- Pieces behind a star are taken off a name at the first place where they fit. -/
theorem fits_star (hbs : Behind bs) (hps : ps ≠ []) (name : Text) :
    (ofSymbols (.star :: (ps.map .piece ++ bs))).fits name =
      ((skips name).findSome? fun tail => (takeAll? ps tail).filter fun rest => rest.isEmpty || !bs.isEmpty).any
        (ofSymbols bs).fits := by
  obtain ⟨p, ps, rfl⟩ := List.exists_cons_of_ne_nil hps
  have hsymbols : ofSymbols (.star :: ((p :: ps).map .piece ++ bs)) = ⟨[], (p :: ps) :: (ofSymbols bs).starred⟩ := by
    rw [ofSymbols, ofSymbols_pieces, hbs.head, List.append_nil]
    rfl
  rw [hsymbols, Pattern.fits]
  change fitsStarred _ name = _
  rw [fitsStarred, hbs.starred]
  · cases (skips name).findSome? _ with
    | none => rfl
    | some rest => exact (hbs.fits rest).symm
  · simp

end Groups

/-! ### The search for a chunk -/

section Search

variable {c : Chunk} {as : List Symbol}

/-- What a chunk that was read leaves of a name, if it fits at its front. -/
def Chunk.fit (c : Chunk) (as : List Symbol) (name : Text) : Option Text :=
  (takeAll? (as.map Symbol.asPiece) name).filter fun rest => rest.isEmpty || !c.more.isEmpty

theorem take?_eq (h : symbols? c.text.glyphs = some as) (name : Text) : c.take? name = some (c.fit as name) := by
  rw [Chunk.take?, matchChunk_eq, h]
  rfl

theorem skips_eq (name : Text) : skips name = name :: (skips name).tail := by
  cases name <;> rfl

theorem later_eq (h : symbols? c.text.glyphs = some as) (name : Text) :
    c.later name = some ((skips name).tail.findSome? (c.fit as)) := by
  induction name with
  | nil => rfl
  | cons b name ih =>
    rw [Chunk.later, skips, List.tail_cons]
    split_ifs with hb
    · rfl
    · rw [take?_eq h, skips_eq, List.findSome?_cons]
      cases c.fit as name with
      | none => exact ih
      | some rest => rfl

theorem find?_eq (h : symbols? c.text.glyphs = some as) (name : Text) : c.find? name =
    some (if c.starred then (skips name).findSome? (c.fit as) else c.fit as name) := by
  rw [Chunk.find?, take?_eq h, later_eq h, skips_eq, List.findSome?_cons]
  cases c.fit as name <;> cases c.starred <;> rfl

theorem find?_malformed (h : symbols? c.text.glyphs = none) (name : Text) : c.find? name = none := by
  rw [Chunk.find?, Chunk.take?, matchChunk_eq, h]
  rfl

end Search

/-! ### Both ways agree -/

section Agreement

variable {pattern : Text} {as bs : List Symbol}

theorem nextChunk_more (pattern : Text) :
    (nextChunk pattern).more = [] ∨ ∃ u, (nextChunk pattern).more = '*'.toUInt8 :: u :=
  cut_more false _

theorem behind_more (h : symbols? (nextChunk pattern).more.glyphs = some bs) :
    Behind bs ∧ (nextChunk pattern).more.isEmpty = bs.isEmpty := by
  rcases nextChunk_more pattern with hmore | ⟨u, hmore⟩
  · rw [hmore, symbols?_nil] at h
    cases h
    exact ⟨by simp [Behind], by rw [hmore]; rfl⟩
  · rw [hmore, symbols?_star] at h
    obtain ⟨bs', -, rfl⟩ := Option.map_eq_some_iff.mp h
    exact ⟨by simp [Behind], by rw [hmore]; rfl⟩

/-- Only the last chunk can be empty, and only behind a star. -/
theorem nextChunk_text_nil (h : pattern ≠ []) (htext : (nextChunk pattern).text = []) :
    (nextChunk pattern).starred = true ∧ (nextChunk pattern).more = [] := by
  change (cut false (pattern.dropWhile (· = '*'.toUInt8))).1 = [] at htext
  change decide (pattern.head? = _) = true ∧ (cut false (pattern.dropWhile (· = '*'.toUInt8))).2 = []
  cases hdrop : pattern.dropWhile (· = '*'.toUInt8) with
  | nil =>
    obtain ⟨b, rest, rfl⟩ := List.exists_cons_of_ne_nil h
    have hb : b = '*'.toUInt8 := by simpa using List.dropWhile_eq_nil_iff.mp hdrop b List.mem_cons_self
    simp [hb, cut]
  | cons b rest =>
    have hb : b ≠ '*'.toUInt8 := by
      have hhead := List.head_dropWhile_not (p := (· = '*'.toUInt8)) (l := pattern) (by simp [hdrop])
      simpa [hdrop] using hhead
    rw [hdrop] at htext
    exact absurd htext (cut_ne_nil hb false rest)

/-- What a name has to fit, said by the first chunk of the pattern. -/
theorem fits_nextChunk (has : symbols? (nextChunk pattern).text.glyphs = some as)
    (hbs : symbols? (nextChunk pattern).more.glyphs = some bs) (htext : (nextChunk pattern).text ≠ []) (name : Text) :
    (ofText? pattern).map (·.fits name) = some ((if (nextChunk pattern).starred
      then (skips name).findSome? ((nextChunk pattern).fit as) else (nextChunk pattern).fit as name).any
        (ofSymbols bs).fits) := by
  obtain ⟨hbehind, hempty⟩ := behind_more hbs
  obtain ⟨n, hstarred, hread⟩ := symbols?_nextChunk pattern
  have hfit : (nextChunk pattern).fit as = fun name =>
      (takeAll? (as.map Symbol.asPiece) name).filter fun rest => rest.isEmpty || !bs.isEmpty := by
    funext name
    rw [Chunk.fit, hempty]
  have hpieces : as = (as.map Symbol.asPiece).map .piece := eq_map_piece ((splits_cut _).pieces as has)
  rw [has, hbs] at hread
  rw [ofText?, hread, hfit]
  refine congrArg some ?_
  cases n with
  | zero =>
    rw [if_neg (by simp [hstarred]), ← fits_front hbehind, ← hpieces]
    rfl
  | succ n =>
    have hne : as.map Symbol.asPiece ≠ [] := by simp [symbols?_ne_nil htext has]
    rw [if_pos (by simp [hstarred]), ← fits_star hbehind hne, ← hpieces]
    exact congrArg (fun p : Pattern => p.fits name) (ofSymbols_stars n _)

theorem ofText?_malformed (h : symbols? (nextChunk pattern).text.glyphs = none ∨
    symbols? (nextChunk pattern).more.glyphs = none) : ofText? pattern = none := by
  obtain ⟨n, -, hread⟩ := symbols?_nextChunk pattern
  rw [ofText?, hread]
  rcases h with h | h
  · simp [h]
  · simp [h]

/-- All chunks can be read exactly if the pattern can. -/
theorem readable_eq (pattern : Text) : readable pattern = (symbols? pattern.glyphs).isSome := by
  fun_induction readable pattern with
  | case1 => rw [symbols?_nil]; rfl
  | case2 pattern h c ih =>
    obtain ⟨n, -, hread⟩ := symbols?_nextChunk pattern
    rw [hread, matchChunk_eq, ih]
    cases symbols? (nextChunk pattern).text.glyphs <;> simp [c]

theorem text_ne_nil (h : pattern ≠ [])
    (hlast : ¬((nextChunk pattern).starred && (nextChunk pattern).text.isEmpty) = true) :
    (nextChunk pattern).text ≠ [] := by
  intro htext
  simp [nextChunk_text_nil h htext, htext] at hlast

/-- A star at the end of a pattern stands for everything but slashes. -/
theorem fits_last_star (h : pattern ≠ [])
    (hlast : ((nextChunk pattern).starred && (nextChunk pattern).text.isEmpty) = true) (name : Text) :
    (ofText? pattern).map (·.fits name) = some (!name.contains '/'.toUInt8) := by
  obtain ⟨hstar, htext⟩ : (nextChunk pattern).starred = true ∧ (nextChunk pattern).text = [] := by simpa using hlast
  obtain ⟨n, hn, hread⟩ := symbols?_nextChunk pattern
  obtain ⟨n, rfl⟩ := Nat.exists_eq_succ_of_ne_zero (hn.mp hstar).ne'
  rw [ofText?, hread, htext, (nextChunk_text_nil h htext).2, symbols?_nil]
  exact congrArg some (congrArg (fun p : Pattern => p.fits name) (ofSymbols_stars n []))

/-- A pattern behaves the same whether it is read before it is matched or while it is matched. -/
theorem matches?_eq (pattern name : Text) : matches? pattern name = (ofText? pattern).map (·.fits name) := by
  fun_induction matches? pattern name with
  | case1 name =>
    rw [ofText?, symbols?_nil]
    rfl
  | case2 pattern name h c hlast => exact (fits_last_star h hlast name).symm
  -- The search stops with an error only if the chunk itself is malformed.
  | case3 pattern name h c hlast hfind =>
    cases has : symbols? c.text.glyphs with
    | none => rw [ofText?_malformed (.inl has)]; rfl
    | some as => simp [find?_eq has] at hfind
  | case4 pattern name h c hlast rest hfind ih =>
    cases has : symbols? c.text.glyphs with
    | none => simp [find?_malformed has] at hfind
    | some as =>
      rw [ih]
      -- The rest of the pattern may be malformed although its first chunk was found.
      cases hbs : symbols? c.more.glyphs with
      | none =>
        rw [ofText?_malformed (.inr hbs), ofText?, hbs]
        rfl
      | some bs =>
        rw [find?_eq has, Option.some.injEq] at hfind
        rw [fits_nextChunk has hbs (text_ne_nil h hlast), hfind, ofText?, hbs]
        rfl
  -- The chunk is not found, but the rest is read all the same, for what may be wrong with it.
  | case5 pattern name h c hlast hfind hread =>
    rw [readable_eq, Option.isSome_iff_exists] at hread
    obtain ⟨bs, hbs⟩ := hread
    cases has : symbols? c.text.glyphs with
    | none => simp [find?_malformed has] at hfind
    | some as =>
      rw [find?_eq has, Option.some.injEq] at hfind
      rw [fits_nextChunk has hbs (text_ne_nil h hlast), hfind]
      rfl
  | case6 pattern name h c hlast hfind hread =>
    rw [readable_eq] at hread
    rw [ofText?_malformed (.inr (by simpa using hread))]
    rfl

end Agreement

end Chunkwise

/-! ### Profiles -/

namespace Profile

open Chunkwise

/-- The first flaw of a profile, where patterns are tried on the empty name. -/
def probe? (p : Profile) : Option Flaw :=
  match p.required.find? fun field => field.2.trim.isEmpty with
  | some field => some (.emptyField field.1)
  | none => (p.external.find? fun t => (matches? t []).isNone).map .badPattern

theorem matches?_eq_none_iff {t name : Text} : matches? t name = none ↔ Pattern.ofText? t = none := by
  rw [matches?_eq, Option.map_eq_none_iff]

theorem matches?_eq_true_iff {t name : Text} :
    matches? t name = some true ↔ (Pattern.ofText? t).any (·.fits name) = true := by
  rw [matches?_eq]
  cases Pattern.ofText? t <;> simp

theorem flaw?_eq_probe? (p : Profile) : p.flaw? = p.probe? := by
  have hprobe : (fun t => (matches? t []).isNone) = fun t => (Pattern.ofText? t).isNone := by
    funext t
    rw [matches?_eq, Option.isNone_map]
  rw [probe?, hprobe, flaw?]
  split
  · next key value hblank =>
    change p.required.find? (fun field => field.2.trim.isEmpty) = _ at hblank
    rw [hblank]
  · next hblank =>
    change p.required.find? (fun field => field.2.trim.isEmpty) = _ at hblank
    rw [hblank]

theorem external_of_flaw?_none {p : Profile} (h : p.flaw? = none) : ∀ t ∈ p.external, Pattern.ofText? t ≠ none := by
  unfold flaw? at h
  split at h
  · cases h
  · rw [Option.map_eq_none_iff, List.find?_eq_none] at h
    simpa using h

theorem external_of_badPattern {p : Profile} {t : Text} (h : p.flaw? = some (.badPattern t)) :
    t ∈ p.external ∧ Pattern.ofText? t = none := by
  unfold flaw? at h
  split at h
  · cases h
  · obtain ⟨t', hfind, ht⟩ := Option.map_eq_some_iff.mp h
    cases ht
    exact ⟨List.mem_of_find?_eq_some hfind, by simpa using List.find?_some hfind⟩

/-- A pattern that passes the check of a profile never fails, and one that does not pass always fails. So a name is
external if it fits some pattern, in whatever order they stand, and is one of the symbols if the profile is strict. -/
theorem checked_patterns_never_fail (p : Profile) :
    p.flaw? = p.probe? ∧
    (p.flaw? = none → ∀ t ∈ p.external, ∀ name, matches? t name ≠ none) ∧
    (∀ t, p.flaw? = some (.badPattern t) → t ∈ p.external ∧ ∀ name, matches? t name = none) ∧
    ∀ patterns, patterns.Perm p.external → ∀ name, { p with external := patterns }.isExternal name = true ↔
      (∃ t ∈ p.external, matches? t name = some true) ∧ (p.strict = true → name ∈ p.symbols) := by
  refine ⟨p.flaw?_eq_probe?, fun h t ht name => ?_, fun t h => ?_, fun patterns hperm name => ?_⟩
  · rw [Ne, matches?_eq_none_iff]
    exact external_of_flaw?_none h t ht
  · obtain ⟨hmem, hread⟩ := external_of_badPattern h
    exact ⟨hmem, fun name => matches?_eq_none_iff.mpr hread⟩
  · have hmem : ∀ t, t ∈ patterns ↔ t ∈ p.external := fun t => hperm.mem_iff
    simp only [isExternal, matchesExternal, Bool.and_eq_true, List.any_eq_true, matches?_eq_true_iff, hmem]
    cases p.strict <;> simp

/-- A strict profile with a pattern whose class holds a star and a bracket. -/
def starredClass : Profile :=
  { standard with external := ["_*", "*[^*-\\]]?"], symbols := ["_GetCSC", "bcall"], strict := true }

/-- A profile with a pattern whose last chunk is malformed, where few names get to. -/
def openClass : Profile :=
  { standard with external := ["_*", "a*b*[x-"] }

theorem checked_patterns_never_fail_classes :
    (starredClass.flaw? = none ∧ ∀ name, matches? "*[^*-\\]]?" name ≠ none) ∧
    (openClass.flaw? = some (.badPattern "a*b*[x-") ∧ ∀ name, matches? "a*b*[x-" name = none) ∧
    { starredClass with external := ["*[^*-\\]]?", "_*"] }.isExternal "bcall" = true := by
  have hfine : starredClass.flaw? = none := by cbv
  have hbad : openClass.flaw? = some (.badPattern "a*b*[x-") := by cbv
  obtain ⟨-, hnever, -, hexternal⟩ := checked_patterns_never_fail starredClass
  obtain ⟨-, -, halways, -⟩ := checked_patterns_never_fail openClass
  have hmem : ("*[^*-\\]]?" : Text) ∈ starredClass.external := List.mem_cons_of_mem _ List.mem_cons_self
  have hmatch : matches? "*[^*-\\]]?" "bcall" = some true := by
    rw [matches?_eq]
    cbv
  refine ⟨⟨hfine, hnever hfine _ hmem⟩, ⟨hbad, (halways _ hbad).2⟩, ?_⟩
  refine (hexternal ["*[^*-\\]]?", "_*"] (.swap _ _ _) "bcall").mpr ⟨⟨_, hmem, hmatch⟩, fun _ => ?_⟩
  exact List.mem_cons_of_mem _ List.mem_cons_self

end Profile

end Pocket

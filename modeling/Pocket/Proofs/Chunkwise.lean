import Mathlib
import Pocket.Proofs.Patterns
import Pocket.Target.Profile

/-!
# Matching chunk by chunk

A pattern need not be read before it is matched. The matcher here takes one chunk after the other off the
pattern, where a chunk goes up to the next star, and reads it while it takes bytes off the name. Where the name
does not fit any more, the rest of the chunk is read all the same, so a chunk is read as a pattern is and fails
where a pattern does, whatever the name.
-/

namespace Pocket

/-! ### The matcher -/

namespace Chunkwise

/-- The first glyph of a text and what follows it. -/
def decode : Text → Option (Glyph × Text)
  | [] => none
  | b :: rest => some (Glyph.first b rest, (b :: rest).drop (Glyph.first b rest).bytes.length)

/-- A well-formed character. Something has to follow it. -/
def scalar? (t : Text) : Option (Nat × Text) :=
  (decode t).bind fun p => if p.1.isIllFormed ∨ p.2 = [] then none else some (p.1.char.toNat, p.2)

/-- An end of a class range, perhaps behind a backslash. -/
def classChar? (chunk : Text) : Option (Nat × Text) :=
  match chunk with
  | [] => none
  | b :: rest =>
    if b = '-'.toUInt8 ∨ b = ']'.toUInt8 then none
    else scalar? (if b = '\\'.toUInt8 then rest else b :: rest)

/-- A range of a class. -/
def classRange? (chunk : Text) : Option ((Nat × Nat) × Text) :=
  match classChar? chunk with
  | none => none
  | some (low, after) =>
    if after.head? = some '-'.toUInt8 then (classChar? after.tail).map fun p => ((low, p.1), p.2)
    else some ((low, low), after)

theorem length_scalar? {t after : Text} {n : Nat} (h : scalar? t = some (n, after)) : after.length < t.length := by
  obtain ⟨⟨g, after'⟩, hdecode, hsome⟩ := Option.bind_eq_some_iff.mp h
  split_ifs at hsome
  cases hsome
  cases t with
  | nil => cases hdecode
  | cons b rest =>
    cases hdecode
    obtain ⟨k, hk⟩ := Glyph.first_bytes b rest
    simp only [hk, List.length_drop, List.length_cons]
    omega

theorem length_classChar? {t after : Text} {n : Nat} (h : classChar? t = some (n, after)) :
    after.length < t.length := by
  cases t with
  | nil => cases h
  | cons b rest =>
    rw [classChar?] at h
    split_ifs at h with hspecial hslash
    · exact (length_scalar? h).trans (Nat.lt_succ_self _)
    · exact length_scalar? h

theorem length_classRange? {t after : Text} {range : Nat × Nat} (h : classRange? t = some (range, after)) :
    after.length < t.length := by
  unfold classRange? at h
  split at h
  · cases h
  · next low after' hlow =>
    have hless := length_classChar? hlow
    split_ifs at h
    · obtain ⟨⟨high, after''⟩, hhigh, hp⟩ := Option.map_eq_some_iff.mp h
      cases hp
      calc after''.length < after'.tail.length := length_classChar? hhigh
        _ ≤ after'.length := by simp
        _ < t.length := hless
    · cases h
      exact hless

/-- Goes through the ranges of a class, and finds out whether one of them holds a character. -/
def inClass? (r : Nat) (seen found : Bool) (chunk : Text) : Option (Bool × Text) :=
  if seen = true ∧ chunk.head? = some ']'.toUInt8 then some (found, chunk.tail)
  else
    match _h : classRange? chunk with
    | none => none
    | some ((low, high), after) => inClass? r true (found || (low ≤ r && r ≤ high)) after
termination_by chunk.length
decreasing_by exact length_classRange? _h

theorem length_inClass? {r : Nat} {seen found found' : Bool} {t after : Text}
    (h : inClass? r seen found t = some (found', after)) : after.length ≤ t.length := by
  fun_induction inClass? r seen found t with
  | case1 found t hclose =>
    cases h
    simp
  | case2 => cases h
  | case3 seen found t hopen low high rest hrange ih =>
    exact (ih h).trans (length_classRange? hrange).le

/-- Takes a class behind its bracket off the front of a chunk, and a character off the front of a name. -/
def matchClass? (chunk : Text) (name : Option Text) : Option (Option Text × Text) :=
  let negated : Bool := chunk.head? = some '^'.toUInt8
  let read := name.bind decode
  (inClass? (read.elim 0 (·.1.char.toNat)) false false (if negated then chunk.tail else chunk)).map fun p =>
    (if p.1 = negated then none else read.map Prod.snd, p.2)

theorem length_matchClass? {t after : Text} {name name' : Option Text}
    (h : matchClass? t name = some (name', after)) : after.length ≤ t.length := by
  obtain ⟨⟨found, after⟩, hin, hp⟩ := Option.map_eq_some_iff.mp h
  cases hp
  refine (length_inClass? hin).trans ?_
  split <;> simp

/-- Takes a byte off the front of a text. -/
def takeByte (b : UInt8) (t : Text) : Option Text :=
  if t.head? = some b then some t.tail else none

/-- Takes a character off the front of a text, but no slash. -/
def takeChar (t : Text) : Option Text :=
  if t.head? = some '/'.toUInt8 then none else (decode t).map Prod.snd

/-- Takes a chunk off the front of a name. Once something does not fit there is no name any more, and the
chunk is only read to its end. -/
def matchChunk (chunk : Text) (name : Option Text) : Option (Option Text) :=
  match chunk with
  | [] => some name
  | b :: rest =>
    if b = '['.toUInt8 then
      match _h : matchClass? rest name with
      | none => none
      | some (name, rest) => matchChunk rest name
    else if b = '?'.toUInt8 then
      matchChunk rest (name.bind takeChar)
    else if b = '\\'.toUInt8 then
      match rest with
      | [] => none
      | c :: rest => matchChunk rest (name.bind (takeByte c))
    else matchChunk rest (name.bind (takeByte b))
termination_by chunk.length
decreasing_by
  · exact Nat.lt_succ_of_le (length_matchClass? _h)
  all_goals simp

/-- The bytes up to the first star outside brackets, and what follows. What stands behind a backslash does
not count. -/
def cut (inside : Bool) : Text → Text × Text
  | [] => ([], [])
  | b :: rest =>
    if b = '\\'.toUInt8 then
      match rest with
      | [] => ([b], [])
      | c :: rest => (b :: c :: (cut inside rest).1, (cut inside rest).2)
    else if b = '*'.toUInt8 ∧ inside = false then ([], b :: rest)
    else
      let inside := b = '['.toUInt8 ∨ b ≠ ']'.toUInt8 ∧ inside = true
      (b :: (cut inside rest).1, (cut inside rest).2)

theorem cut_append (inside : Bool) (t : Text) : (cut inside t).1 ++ (cut inside t).2 = t := by
  fun_induction cut inside t with
  | case1 => rfl
  | case2 => rfl
  | case3 inside c rest ih => simp [ih]
  | case4 => rfl
  | case5 inside b rest hb hstar inside' ih => simp [ih]

/-- A chunk of a pattern: whether stars stand in front of it, its text, and what follows. -/
structure Chunk where
  starred : Bool
  text : Text
  more : Text

/-- The first chunk of a pattern. -/
def nextChunk (pattern : Text) : Chunk :=
  let (text, more) := cut false (pattern.dropWhile (· = '*'.toUInt8))
  ⟨pattern.head? = some '*'.toUInt8, text, more⟩

theorem cut_ne_nil {b : UInt8} (hb : b ≠ '*'.toUInt8) (inside : Bool) (rest : Text) :
    (cut inside (b :: rest)).1 ≠ [] := by
  rw [cut.eq_def]
  dsimp only
  rw [if_neg (c := _ ∧ _) (by simp [hb])]
  split
  · cases rest <;> simp
  · simp

theorem length_nextChunk {pattern : Text} (h : pattern ≠ []) : (nextChunk pattern).more.length < pattern.length := by
  obtain ⟨b, rest, rfl⟩ := List.exists_cons_of_ne_nil h
  by_cases hb : b = '*'.toUInt8
  · have happend := congrArg List.length (cut_append false (rest.dropWhile (· = '*'.toUInt8)))
    have hdrop := (List.dropWhile_suffix (l := rest) (· = '*'.toUInt8)).length_le
    change (cut false (List.dropWhile _ (b :: rest))).2.length < _
    rw [List.dropWhile_cons_of_pos (by simpa using hb), List.length_cons]
    rw [List.length_append] at happend
    omega
  · have happend := congrArg List.length (cut_append false (b :: rest))
    have hpos := List.length_pos_of_ne_nil (cut_ne_nil hb false rest)
    change (cut false (List.dropWhile _ (b :: rest))).2.length < _
    rw [List.dropWhile_cons_of_neg (by simpa using hb)]
    rw [List.length_append] at happend
    omega

/-- Takes a chunk off the front of a name. The last chunk has to take all of the name. -/
def Chunk.take? (c : Chunk) (name : Text) : Option (Option Text) :=
  (matchChunk c.text (some name)).map (·.filter fun rest => rest.isEmpty || !c.more.isEmpty)

/-- Tries a chunk behind a star at later and later places of a name, up to a slash. -/
def Chunk.later (c : Chunk) : Text → Option (Option Text)
  | [] => some none
  | b :: name =>
    if b = '/'.toUInt8 then some none
    else
      match c.take? name with
      | some none => c.later name
      | found => found

/-- Tries a chunk at the front of a name, and at later places if a star stands before it. -/
def Chunk.find? (c : Chunk) (name : Text) : Option (Option Text) :=
  match c.take? name with
  | some none => if c.starred then c.later name else some none
  | found => found

/-- Whether all chunks of a pattern can be read. -/
def readable (pattern : Text) : Bool :=
  if _h : pattern = [] then true
  else
    let c := nextChunk pattern
    (matchChunk c.text (some [])).isSome && readable c.more
termination_by pattern.length
decreasing_by exact length_nextChunk _h

/-- Whether a name fits a pattern, unless the pattern turns out to be malformed. -/
def matches? (pattern name : Text) : Option Bool :=
  if _h : pattern = [] then some name.isEmpty
  else
    let c := nextChunk pattern
    if c.starred && c.text.isEmpty then some (!name.contains '/'.toUInt8)
    else
      match c.find? name with
      | none => none
      | some (some rest) => matches? c.more rest
      | some none => if readable c.more then some false else none
termination_by pattern.length
decreasing_by exact length_nextChunk _h

/-! ### Classes -/

open Text Glyph Pattern

section Classes

variable {t u e r body c : Text} {g : Glyph} {n x : Nat} {range : Nat × Nat} {ranges : Ranges}
  {seen found found' negated : Bool} {name name' : Option Text}

theorem decode_eq_some (h : decode t = some (g, u)) : t = g.bytes ++ u ∧ g.Spelled := by
  cases t with
  | nil => cases h
  | cons b rest =>
    cases h
    obtain ⟨after, htext, -⟩ := glyphs_cons_eq b rest
    refine ⟨?_, spelled_first b rest⟩
    conv_lhs => rw [htext]
    conv_rhs => rw [htext]
    simp

theorem decode_ofChar (c : Char) (u : Text) : decode (ofChar c ++ u) = some (Glyph.of c, u) := by
  obtain ⟨b, tail, hc, -⟩ := ofChar_shape c
  have hfirst : first b (tail ++ u) = Glyph.of c := by
    refine first_of_begins ?_
    rw [← List.cons_append, ← hc]
    exact List.prefix_append _ _
  rw [hc, List.cons_append, decode, hfirst, ← List.cons_append, ← hc]
  simp [Glyph.of]

theorem scalar?_eq_some_iff : scalar? t = some (n, u) ↔ ∃ c, t = ofChar c ++ u ∧ n = c.toNat ∧ u ≠ [] := by
  constructor
  · intro h
    obtain ⟨⟨g, after⟩, hdecode, hsome⟩ := Option.bind_eq_some_iff.mp h
    split_ifs at hsome with hill
    cases hsome
    obtain ⟨hill, hne⟩ := not_or.mp hill
    obtain ⟨rfl, hbytes | ⟨hchar, b, -, hbytes⟩⟩ := decode_eq_some hdecode
    · exact ⟨g.char, by rw [hbytes], rfl, hne⟩
    · simp [isIllFormed, hchar, hbytes] at hill
  · rintro ⟨c, rfl, rfl, hne⟩
    rw [scalar?, decode_ofChar, Option.bind_some, if_neg (by simp [isIllFormed_of, hne])]
    rfl

theorem head_ofChar (c : Char) :
    ∃ b tail, ofChar c = b :: tail ∧ ∀ d : Char, d.toNat < 128 → (b = d.toUInt8 ↔ c = d) := by
  obtain ⟨b, tail, hc, -⟩ := ofChar_shape c
  have hfirst : first b tail = Glyph.of c := first_of_begins (by rw [hc])
  refine ⟨b, tail, hc, fun d hd => ?_⟩
  rw [← char_first_iff (t := tail) hd, hfirst, char_of]

theorem classChar?_eq_some_iff : classChar? t = some (n, u) ↔ ∃ e, WritesEnd e n ∧ t = e ++ u ∧ u ≠ [] := by
  constructor
  · intro h
    cases t with
    | nil => cases h
    | cons b rest =>
      rw [classChar?] at h
      split_ifs at h with hspecial hslash
      · obtain ⟨c, rfl, rfl, hu⟩ := scalar?_eq_some_iff.mp h
        exact ⟨_, .escaped c, by rw [hslash]; rfl, hu⟩
      · obtain ⟨c, ht, rfl, hu⟩ := scalar?_eq_some_iff.mp h
        -- The byte that decides is the first one of the character, which is the character itself if it is ASCII.
        obtain ⟨b', tail, hc, hb⟩ := head_ofChar c
        obtain ⟨rfl, -⟩ : b = b' ∧ _ := by rw [hc] at ht; exact List.cons.inj ht
        obtain ⟨hdash, hclose⟩ := not_or.mp hspecial
        exact ⟨_, .plain (mt (hb _ (by decide)).mpr hdash) (mt (hb _ (by decide)).mpr hclose)
          (mt (hb _ (by decide)).mpr hslash), ht, hu⟩
  · rintro ⟨e, he, rfl, hu⟩
    cases he with
    | @plain c hdash hclose hslash =>
      obtain ⟨b, tail, hc, hb⟩ := head_ofChar c
      have hread := scalar?_eq_some_iff.mpr ⟨c, rfl, rfl, hu⟩
      rw [hc, List.cons_append] at hread ⊢
      rw [classChar?, if_neg, if_neg (mt (hb _ (by decide)).mp hslash), hread]
      exact not_or.mpr ⟨mt (hb _ (by decide)).mp hdash, mt (hb _ (by decide)).mp hclose⟩
    | escaped c =>
      rw [List.cons_append, classChar?, if_neg (by decide), if_pos rfl]
      exact scalar?_eq_some_iff.mpr ⟨c, rfl, rfl, hu⟩

theorem classRange?_eq_some_iff :
    classRange? t = some (range, u) ↔ ∃ r, WritesRange r u range ∧ t = r ++ u ∧ u ≠ [] := by
  constructor
  · intro h
    unfold classRange? at h
    split at h
    · cases h
    · next low after hlow =>
      obtain ⟨e, he, rfl, hafter⟩ := classChar?_eq_some_iff.mp hlow
      split_ifs at h with hdash
      · obtain ⟨⟨high, after'⟩, hhigh, hp⟩ := Option.map_eq_some_iff.mp h
        cases hp
        obtain ⟨f, hf, htail, hu⟩ := classChar?_eq_some_iff.mp hhigh
        obtain ⟨v, rfl⟩ := List.head?_eq_some_iff.mp hdash
        exact ⟨_, .pair he hf, by rw [List.append_assoc, List.cons_append, ← htail]; rfl, hu⟩
      · cases h
        exact ⟨e, .single he hdash, rfl, hafter⟩
  · rintro ⟨r, hr, rfl, hu⟩
    cases hr with
    | single hend hdash =>
      rw [classRange?, classChar?_eq_some_iff.mpr ⟨_, hend, rfl, hu⟩]
      exact if_neg hdash
    | @pair e f _ low high hlow hhigh =>
      have hread : classChar? (e ++ '-'.toUInt8 :: (f ++ u)) = _ := classChar?_eq_some_iff.mpr ⟨e, hlow, rfl, by simp⟩
      have hread' : classChar? (f ++ u) = some (high, u) := classChar?_eq_some_iff.mpr ⟨f, hhigh, rfl, hu⟩
      rw [List.append_assoc, List.cons_append, classRange?, hread]
      simp [hread']

theorem inClass?_range (hclose : ¬(seen = true ∧ t.head? = some ']'.toUInt8)) (h : classRange? t = some (range, u)) :
    inClass? x seen found t = inClass? x true (found || (range.1 ≤ x && x ≤ range.2)) u := by
  rw [inClass?, if_neg hclose]
  split
  · next hnone => simp [h] at hnone
  · next low high after hsome =>
    rw [h] at hsome
    cases hsome
    rfl

theorem inClass?_writes (h : WritesRanges body ranges) (hseen : seen = true ∨ ranges ≠ []) (u : Text) :
    inClass? x seen found (body ++ u) =
      some (found || ranges.any (fun range => range.1 ≤ x && x ≤ range.2), u) := by
  induction h generalizing seen found with
  | close =>
    obtain rfl : seen = true := by simpa using hseen
    rw [inClass?, if_pos ⟨rfl, rfl⟩]
    simp
  | @more r body range ranges hrange hbody ih =>
    have hread : classRange? (r ++ (body ++ u)) = some (range, body ++ u) :=
      classRange?_eq_some_iff.mpr ⟨r, (writesRange_append hbody.ne_nil).mpr hrange, rfl, by simp [hbody.ne_nil]⟩
    have hhead : (r ++ (body ++ u)).head? ≠ some ']'.toUInt8 := by
      rw [List.head?_append_of_ne_nil _ hrange.ne_nil]
      exact hrange.head_ne
    rw [List.append_assoc, inClass?_range (fun h => hhead h.2) hread, ih (.inl rfl), List.any_cons, Bool.or_assoc]

theorem writes_of_inClass? (h : inClass? x seen found t = some (found', u)) :
    ∃ body ranges, WritesRanges body ranges ∧ (seen = true ∨ ranges ≠ []) ∧ t = body ++ u := by
  fun_induction inClass? x seen found t with
  | case1 seen found t hclose =>
    obtain ⟨v, rfl⟩ := List.head?_eq_some_iff.mp hclose.2
    cases h
    exact ⟨[']'.toUInt8], [], .close, .inl hclose.1, rfl⟩
  | case2 => cases h
  | case3 seen found t hopen low high after hrange ih =>
    obtain ⟨body, ranges, hbody, -, rfl⟩ := ih h
    obtain ⟨r, hr, rfl, -⟩ := classRange?_eq_some_iff.mp hrange
    exact ⟨r ++ body, _, .more ((writesRange_append hbody.ne_nil).mp hr) hbody, .inr (by simp), by simp⟩

/-- A piece of a class takes a character off a name that the class holds. -/
theorem take?_oneOf (negated : Bool) (ranges : Ranges) (t : Text) :
    (Piece.oneOf negated ranges).take? t = (decode t).bind fun p =>
      if (ranges.any fun range => range.1 ≤ p.1.char.toNat && p.1.char.toNat ≤ range.2) = negated then none
      else some p.2 := by
  cases t <;> rfl

theorem matchClass?_eq (h : WritesRanges body ranges) (hne : ranges ≠ [])
    (hnegated : negated = decide (t.head? = some '^'.toUInt8)) (ht : (if negated then t.tail else t) = body ++ u) :
    matchClass? t name = some (name.bind (Piece.oneOf negated ranges).take?, u) := by
  subst hnegated
  unfold matchClass?
  dsimp only
  rw [ht, inClass?_writes h (.inr hne)]
  cases name with
  | none => simp
  | some t' =>
    rw [Option.bind_some, Option.bind_some, take?_oneOf]
    cases decode t' with
    | none => simp
    | some p => rfl

theorem matchClass?_writes (h : WritesClass c negated ranges) (u : Text) :
    matchClass? (c ++ u) name = some (name.bind (Piece.oneOf negated ranges).take?, u) := by
  cases h with
  | plain hcaret hne hbody =>
    refine matchClass?_eq hbody hne ?_ rfl
    rw [List.head?_append_of_ne_nil _ hbody.ne_nil, decide_eq_false hcaret]
  | negated hne hbody => exact matchClass?_eq hbody hne (by simp) rfl

theorem writes_of_matchClass? (h : matchClass? t name = some (name', u)) :
    ∃ negated ranges c, WritesClass c negated ranges ∧ t = c ++ u := by
  obtain ⟨⟨found, after⟩, hin, hp⟩ := Option.map_eq_some_iff.mp h
  obtain ⟨-, rfl⟩ := Prod.mk.inj hp
  obtain ⟨body, ranges, hbody, hne, ht⟩ := writes_of_inClass? hin
  replace hne : ranges ≠ [] := by simpa using hne
  by_cases hcaret : t.head? = some '^'.toUInt8
  · obtain ⟨v, rfl⟩ := List.head?_eq_some_iff.mp hcaret
    replace ht : v = body ++ after := by simpa using ht
    exact ⟨true, ranges, _, .negated hne hbody, by rw [ht]; rfl⟩
  · replace ht : t = body ++ after := by simpa [hcaret] using ht
    subst ht
    rw [List.head?_append_of_ne_nil _ hbody.ne_nil] at hcaret
    exact ⟨false, ranges, body, .plain hcaret hne hbody, rfl⟩

end Classes

/-! ### Chunks -/

theorem take?_byte (b : UInt8) : (Piece.byte b).take? = takeByte b := by
  funext t
  cases t <;> simp [Piece.take?, takeByte]

theorem take?_anyChar : Piece.anyChar.take? = takeChar := by
  funext t
  cases t with
  | nil => rfl
  | cons b rest =>
    simp only [Piece.take?, takeChar, char_first_iff (c := '/') (by decide), List.head?_cons, Option.some.injEq]
    rfl

/-- The name after one symbol more. -/
theorem map_takeAll? (s : Symbol) (name : Option Text) (read : Option (List Symbol)) :
    (read.map fun ss => (name.bind s.asPiece.take?).bind (takeAll? (ss.map Symbol.asPiece))) =
      (read.map (s :: ·)).map fun ss => name.bind (takeAll? (ss.map Symbol.asPiece)) := by
  cases read with
  | none => rfl
  | some ss => simp only [Option.map_some, Option.bind_assoc, List.map_cons, takeAll?]

/-- A chunk is read as a pattern is, whatever the name. -/
theorem matchChunk_eq (chunk : Text) (name : Option Text) : matchChunk chunk name =
    (symbols? chunk.glyphs).map fun ss => name.bind (takeAll? (ss.map Symbol.asPiece)) := by
  fun_induction matchChunk chunk name with
  | case1 name =>
    rw [symbols?_nil]
    cases name <;> rfl
  -- A class that is not closed is a fault of the pattern, whatever the name.
  | case2 name rest hnone =>
    rw [symbols?_no_class]
    · rfl
    · rintro negated ranges c u hclass rfl
      rw [matchClass?_writes hclass] at hnone
      cases hnone
  | case3 name rest name' u hsome ih =>
    obtain ⟨negated, ranges, c, hclass, rfl⟩ := writes_of_matchClass? hsome
    rw [matchClass?_writes hclass] at hsome
    cases hsome
    rw [ih, symbols?_class hclass, ← map_takeAll?]
    rfl
  | case4 name rest hopen ih =>
    rw [ih, symbols?_any, ← map_takeAll?, ← take?_anyChar]
    rfl
  | case5 name =>
    rw [symbols?_lone_escape]
    rfl
  | case6 name c rest _ _ ih =>
    rw [ih, symbols?_escape, ← map_takeAll?, ← take?_byte]
    rfl
  -- A star within a chunk is compared with the name like any other byte.
  | case7 name b rest hopen hany hslash ih =>
    by_cases hstar : b = '*'.toUInt8
    · rw [ih, hstar, symbols?_star, ← map_takeAll?, ← take?_byte]
      rfl
    · rw [ih, symbols?_literal hstar hany hopen hslash, ← map_takeAll?, ← take?_byte]
      rfl

end Chunkwise

end Pocket

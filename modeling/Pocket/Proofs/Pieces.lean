import Pocket.Proofs.Expansion
import Pocket.Proofs.Spans
import Pocket.Text.Numeral

/-!
# How the pieces of a source are written

Preprocessing keeps the gaps, the strings and the punctuation of a source as they stand. In a run of
word characters it replaces words; what it writes is a run again, and another word than `asm` if anything
was replaced.
-/

namespace Pocket

open Lexical

variable {value : Text → Option Text} {b : UInt8} {rest x w : Text}

/-! ### The word at the end of a run -/

/-- The ASCII word that a text ends with; digits in front of it do not belong to it. -/
def Text.endWord (t : Text) : Text :=
  (t.reverse.takeWhile isWordByte).reverse.dropWhile (!isWordStart ·)

theorem Text.endWord_cons (hb : isWordStart b = false) : endWord (b :: x) = endWord x := by
  unfold endWord
  rw [List.reverse_cons, List.takeWhile_append]
  split
  · next hall =>
    have hx : x.reverse.takeWhile isWordByte = x.reverse :=
      (List.takeWhile_prefix _).eq_of_length hall
    rw [hx, List.reverse_append, List.reverse_reverse]
    by_cases hword : isWordByte b = true
    · simp [hword, hb]
    · simp [hword]
  · rfl

theorem Text.endWord_append (hb : isWordByte b = false) : endWord (w ++ b :: x) = endWord (b :: x) := by
  have hshort : ((x.reverse ++ [b]).takeWhile isWordByte).length ≠ (x.reverse ++ [b]).length := by
    intro hlength
    have hall := (List.takeWhile_prefix isWordByte).eq_of_length hlength
    have hmem : b ∈ (x.reverse ++ [b]).takeWhile isWordByte := by simp [hall]
    have := List.all_eq_true.mp List.all_takeWhile b hmem
    rw [hb] at this
    cases this
  rw [endWord, endWord, List.reverse_append, List.reverse_cons, List.takeWhile_append, if_neg hshort]

theorem Text.endWord_word (hb : isWordStart b = true) (hw : ∀ c ∈ w, isWordByte c = true) :
    endWord (b :: w) = b :: w := by
  have hall : ∀ c ∈ (b :: w).reverse, isWordByte c = true := by
    intro c hc
    rcases List.mem_cons.mp (List.mem_reverse.mp hc) with rfl | hc
    · exact isWordByte_of_start hb
    · exact hw c hc
  have htake : ((b :: w).reverse ++ []).takeWhile isWordByte = _ := List.takeWhile_append_of_pos hall
  rw [List.append_nil, List.takeWhile_nil, List.append_nil] at htake
  rw [endWord, htake, List.reverse_reverse]
  simp [hb]

/-! ### Runs of bytes -/

/-- A byte of a run: it may stand in an ASCII word, or it spells a character beyond ASCII. -/
def IsRunByte (b : UInt8) : Prop :=
  isWordByte b = true ∨ 128 ≤ b.toNat

theorem IsRunByte.class (h : IsRunByte b) :
    b ≠ newline ∧ b ≠ '"'.toUInt8 ∧ b ≠ '/'.toUInt8 := by
  rcases h with hword | hbeyond
  · exact isWordByte_class hword
  · refine ⟨?_, ?_, ?_⟩ <;> rintro rfl <;> exact absurd hbeyond (by decide)

theorem isAsmSpace_of_beyond (h : 128 ≤ b.toNat) :
    Region.isAsmSpace b = false ∧ b ≠ '\x7b'.toUInt8 := by
  constructor
  · simp only [Region.isAsmSpace, Region.isAsmGap, Bool.or_eq_false_iff, beq_eq_false_iff_ne]
    refine ⟨⟨⟨?_, ?_⟩, ?_⟩, ?_⟩ <;> rintro rfl <;> exact absurd h (by decide)
  · rintro rfl
    exact absurd h (by decide)

theorem Front.cut_run (hstart : isWordStart b = true) :
    Front.cut b x = (.word (b :: x.takeWhile isWordByte), x.dropWhile isWordByte) := by
  have hquote : b ≠ '"'.toUInt8 := (isWordByte_class (isWordByte_of_start hstart)).2.1
  rw [Front.cut, if_neg hquote, if_pos hstart]

/-- A run is written with its words replaced. If `asm` is its last word, a raw body may follow. -/
theorem Region.pass_run (hx : ∀ b ∈ x, IsRunByte b) (hrest : ∀ b ∈ rest.head?, isWordByte b = false) :
    pass value .code (x ++ rest) =
      x.replaceWords value ++ pass value (if x.endWord = "asm" then .asmWord else .code) rest := by
  generalize hn : x.length = n
  induction n using Nat.strongRecOn generalizing x with
  | ind n ih =>
    cases x with
    | nil =>
      rw [Text.replaceWords_nil]
      rfl
    | cons b x =>
      obtain ⟨hb, hx⟩ := List.forall_mem_cons.mp hx
      rw [List.length_cons] at hn
      -- A word is taken as a whole, so the induction is on the length and not on the bytes.
      by_cases hstart : isWordStart b = true
      · have hw : ∀ c ∈ x.takeWhile isWordByte, isWordByte c = true :=
          List.all_eq_true.mp List.all_takeWhile
        have hsplit : x.takeWhile isWordByte ++ x.dropWhile isWordByte = x :=
          List.takeWhile_append_dropWhile
        have hstop := List.head?_dropWhile_not isWordByte x
        rw [Text.replaceWords_cons (Front.cut_run hstart)]
        generalize x.takeWhile isWordByte = w at hw hsplit
        generalize x.dropWhile isWordByte = y at hsplit hstop
        subst hsplit
        cases y with
        | nil =>
          rw [List.append_nil, pass_word hstart hw hrest, Text.replaceWords_nil, List.append_nil,
            Text.endWord_word hstart hw]
          rfl
        -- The run goes on behind the word with a byte beyond ASCII, which is no brace: `asm` has no effect here.
        | cons c y =>
          have hc : isWordByte c = false := by simpa using hstop
          have hbeyond : 128 ≤ c.toNat := (hx c (by simp)).resolve_left (by simp [hc])
          have ih := ih (c :: y).length (by simp at hn ⊢; omega) (fun d hd => hx d (by simp [hd])) rfl
          have hhead : ∀ d ∈ ((c :: y) ++ rest).head?, isWordByte d = false := by
            intro d hd
            obtain rfl : c = d := by simpa using hd
            exact hc
          have hcode : pass value .asmWord ((c :: y) ++ rest) = pass value .code ((c :: y) ++ rest) := by
            refine pass_noBrace fun d hd => ?_
            obtain rfl : c = d := by simpa using hd
            exact isAsmSpace_of_beyond hbeyond
          have hregion : pass value (if (b :: w : Text) = "asm" then .asmWord else .code)
              ((c :: y) ++ rest) = pass value .code ((c :: y) ++ rest) := by
            split
            · exact hcode
            · rfl
          rw [← List.cons_append, List.append_assoc, pass_word hstart hw hhead, hregion, ih,
            Text.endWord_append hc, List.append_assoc]
          rfl
      · rw [Bool.not_eq_true] at hstart
        obtain ⟨hnewline, hquote, hslash⟩ := hb.class
        rw [List.cons_append, pass_byte hnewline hquote hstart (not_startsComment hslash),
          ih x.length (by omega) hx rfl, Text.replaceWords_cons (Front.cut_byte hquote hstart),
          Text.endWord_cons hstart]
        rfl

/-! ### Runs of characters -/

section Chars

variable {c : Char} {g : Glyph} {gs : List Glyph}

theorem wordChar_ascii : ∀ n < 128, Token.isWordChar (Char.ofNat n) = isWordByte (UInt8.ofNat n) := by
  decide +kernel

theorem isWordChar_ofNat (hb : b.toNat < 128) :
    Token.isWordChar (Char.ofNat b.toNat) = isWordByte b := by
  rw [wordChar_ascii _ hb, UInt8.ofNat_toNat]

theorem isWordByte_lt (h : isWordByte b = true) : b.toNat < 128 := by
  simp only [isWordByte, isWordStart, Bool.or_eq_true, Bool.and_eq_true, decide_eq_true_eq, beq_iff_eq,
    UInt8.le_iff_toNat_le] at h
  have hz : 'z'.toUInt8.toNat = 122 := rfl
  have hZ : 'Z'.toUInt8.toNat = 90 := rfl
  have h9 : '9'.toUInt8.toNat = 57 := rfl
  rcases h with ((h | h) | h) | h
  · omega
  · omega
  · rw [h]
    decide
  · omega

theorem Ranges.exists_of_contains {rs : Ranges} {n : Nat} (h : rs.contains n = true) :
    ∃ r ∈ rs, ∃ k ≤ r.2 - r.1, n = r.1 + k := by
  induction rs with
  | nil => cases h
  | cons r rs ih =>
    rw [Ranges.contains] at h
    split at h
    · cases h
    · split at h
      · exact ⟨r, List.mem_cons_self, n - r.1, by omega, by omega⟩
      · obtain ⟨r', hr', hk⟩ := ih h
        exact ⟨r', List.mem_cons_of_mem _ hr', hk⟩

theorem wordChar_blankRanges : ∀ r ∈ blankRanges, ∀ k ≤ r.2 - r.1,
    Token.isWordChar (Char.ofNat (r.1 + k)) = false := by
  decide +kernel

/-- A blank is no word character. -/
theorem isBlank_of_wordChar (h : Token.isWordChar c = true) : isBlank c = false := by
  rw [← Bool.not_eq_true]
  intro hblank
  obtain ⟨r, hr, k, hk, hn⟩ := Ranges.exists_of_contains hblank
  have hnone := wordChar_blankRanges r hr k hk
  rw [← hn, Char.ofNat_toNat, h] at hnone
  cases hnone

theorem wordChar_ne_replacement (h : Token.isWordChar c = true) : c ≠ Glyph.replacement := by
  rintro rfl
  exact absurd h (by decide +kernel)

theorem startsGap_cons : startsGap (g :: gs) = true ↔
    (g.char = '/' ∧ ∃ h ∈ gs.head?, h.char = '/' ∨ h.char = '*') ∨ isBlank g.char = true := by
  obtain ⟨c, bytes⟩ := g
  unfold startsGap
  split
  · next heq =>
    cases heq
    simp
  · next heq =>
    cases heq
    simp
  · next hslash hstar heq =>
    cases heq
    refine ⟨.inr, fun h => h.resolve_left ?_⟩
    rintro ⟨rfl, h, hh, hchar⟩
    obtain ⟨d, dbytes⟩ := h
    obtain ⟨more, rfl⟩ := List.head?_eq_some_iff.mp hh
    rcases hchar with rfl | rfl
    · exact hslash _ _ _ rfl rfl
    · exact hstar _ _ _ rfl rfl
  · next heq => cases heq

theorem startsGap_eq_false (hslash : g.char ≠ '/') (hblank : isBlank g.char = false) :
    startsGap (g :: gs) = false := by
  rw [← Bool.not_eq_true, startsGap_cons, hblank]
  rintro (⟨h, -⟩ | h)
  · exact hslash h
  · cases h

theorem startsGap_wordChar (hg : Token.isWordChar g.char = true) : startsGap (g :: gs) = false := by
  refine startsGap_eq_false ?_ (isBlank_of_wordChar hg)
  intro hslash
  rw [hslash] at hg
  exact absurd hg (by decide)

theorem isRunByte_of_mem (hg : g.Spelled) (hc : Token.isWordChar g.char = true) (hb : b ∈ g.bytes) :
    IsRunByte b := by
  rw [hg.bytes_eq rfl (wordChar_ne_replacement hc)] at hb
  rcases Nat.lt_or_ge b.toNat 128 with hascii | hbeyond
  · have hchar : g.char = Char.ofNat b.toNat := by
      rw [← toNat_eq_of_mem_ofChar hascii hb, Char.ofNat_toNat]
    rw [hchar, isWordChar_ofNat hascii] at hc
    exact .inl hc
  · exact .inr hbeyond

theorem glyphs_ascii (hb : b.toNat < 128) (t : Text) :
    Text.glyphs (b :: t) = Glyph.of (Char.ofNat b.toNat) :: t.glyphs := by
  have h := Text.glyphs_ofChar_append (Char.ofNat b.toNat) t
  rwa [ofChar_ofNat hb] at h

/-- A text of word characters. -/
def IsRunText (t : Text) : Prop :=
  ∀ g ∈ t.glyphs, Token.isWordChar g.char = true

theorem isRunText_word_append (hw : ∀ b ∈ w, isWordByte b = true) :
    IsRunText (w ++ x) ↔ IsRunText x := by
  induction w with
  | nil => rfl
  | cons b w ih =>
    obtain ⟨hb, hw⟩ := List.forall_mem_cons.mp hw
    have hascii := isWordByte_lt hb
    rw [IsRunText, List.cons_append, glyphs_ascii hascii, List.forall_mem_cons, ← ih hw]
    refine and_iff_right ?_
    change Token.isWordChar (Char.ofNat b.toNat) = true
    rw [isWordChar_ofNat hascii, hb]

theorem isRunText_ofChar_append (hc : Token.isWordChar c = true) :
    IsRunText (Text.ofChar c ++ x) ↔ IsRunText x := by
  rw [IsRunText, Text.glyphs_ofChar_append, List.forall_mem_cons]
  exact and_iff_right hc

theorem isWordByte_of_digit (h : Text.isDigitByte b = true) : isWordByte b = true := by
  rw [Text.isDigitByte] at h
  simp only [isWordByte, h, Bool.or_true]

/-- Only the first byte of a glyph may begin a word. -/
theorem isWordStart_of_mem {d : UInt8} {tail : Text} (hg : g.Spelled)
    (hc : Token.isWordChar g.char = true) (hbytes : g.bytes = b :: tail) (hb : isWordStart b = false)
    (hd : d ∈ g.bytes) : isWordStart d = false := by
  rw [← Bool.not_eq_true]
  intro hstart
  have hascii := isWordByte_lt (isWordByte_of_start hstart)
  have hspelling := hg.bytes_eq rfl (wordChar_ne_replacement hc)
  rw [hspelling] at hd
  have hchar : g.char = Char.ofNat d.toNat := by
    rw [← toNat_eq_of_mem_ofChar hascii hd, Char.ofNat_toNat]
  rw [hbytes, hchar, ofChar_ofNat hascii] at hspelling
  obtain ⟨rfl, -⟩ := List.cons.inj hspelling
  rw [hstart] at hb
  cases hb

/-- What a run is written as is a run again; it is the same or has a digit in it. -/
structure KeepsRun (value : Text → Option Text) (x : Text) : Prop where
  run : IsRunText (x.replaceWords value)
  ne_nil : x ≠ [] → x.replaceWords value ≠ []
  same : x.replaceWords value = x ∨ ∃ b ∈ x.replaceWords value, Text.isDigitByte b = true

theorem KeepsRun.same_behind (h : KeepsRun value x) (w : Text) :
    w ++ x.replaceWords value = w ++ x ∨
      ∃ b ∈ w ++ x.replaceWords value, Text.isDigitByte b = true := by
  rcases h.same with hsame | ⟨d, hd, hdigit⟩
  · exact .inl (by rw [hsame])
  · exact .inr ⟨d, List.mem_append_right _ hd, hdigit⟩

theorem KeepsRun.word (hvalue : ∀ w v, value w = some v → v.isDigits = true) (hw : w ≠ [])
    (hword : ∀ b ∈ w, isWordByte b = true)
    (hwritten : Text.replaceWords value (w ++ x) = (value w).getD w ++ x.replaceWords value)
    (h : KeepsRun value x) : KeepsRun value (w ++ x) := by
  cases hv : value w with
  | none =>
    rw [hv, Option.getD_none] at hwritten
    refine ⟨?_, fun _ => by simp [hwritten, hw], ?_⟩
    · rw [hwritten]
      exact (isRunText_word_append hword).mpr h.run
    · rw [hwritten]
      exact h.same_behind w
  | some v =>
    have hdigits := hvalue w v hv
    simp only [Text.isDigits, Bool.and_eq_true, Bool.not_eq_true', List.isEmpty_eq_false_iff,
      List.all_eq_true] at hdigits
    obtain ⟨d, tail, rfl⟩ := List.exists_cons_of_ne_nil hdigits.1
    rw [hv, Option.getD_some] at hwritten
    refine ⟨?_, fun _ => by simp [hwritten], .inr ⟨d, by simp [hwritten], hdigits.2 d (by simp)⟩⟩
    rw [hwritten]
    exact (isRunText_word_append fun e he => isWordByte_of_digit (hdigits.2 e he)).mpr h.run

theorem KeepsRun.glyph {tail : Text} (hg : g.Spelled) (hc : Token.isWordChar g.char = true)
    (hbytes : g.bytes = b :: tail) (hb : isWordStart b = false) (h : KeepsRun value x) :
    KeepsRun value (g.bytes ++ x) := by
  have hplain : ∀ d ∈ g.bytes, d ≠ '"'.toUInt8 ∧ isWordStart d = false := fun d hd =>
    ⟨(isRunByte_of_mem hg hc hd).class.2.1, isWordStart_of_mem hg hc hbytes hb hd⟩
  have hwritten : Text.replaceWords value (g.bytes ++ x) = g.bytes ++ x.replaceWords value :=
    Text.replaceWords_bytes hplain x
  have hne : g.bytes ≠ [] := by simp [hbytes]
  refine ⟨?_, fun _ => by simp [hwritten, hne], ?_⟩
  · rw [hwritten, hg.bytes_eq rfl (wordChar_ne_replacement hc)]
    exact (isRunText_ofChar_append hc).mpr h.run
  · rw [hwritten]
    exact h.same_behind g.bytes

theorem keepsRun (hvalue : ∀ w v, value w = some v → v.isDigits = true) (hx : IsRunText x) :
    KeepsRun value x := by
  generalize hn : x.length = n
  induction n using Nat.strongRecOn generalizing x with
  | ind n ih =>
    cases x with
    | nil => exact ⟨by rwa [Text.replaceWords_nil], absurd rfl, .inl Text.replaceWords_nil⟩
    | cons b x =>
      rw [List.length_cons] at hn
      -- A word is replaced as a whole; any other glyph stays, together with all its bytes.
      by_cases hstart : isWordStart b = true
      · have hword : ∀ c ∈ b :: x.takeWhile isWordByte, isWordByte c = true :=
          List.forall_mem_cons.mpr ⟨isWordByte_of_start hstart, List.all_eq_true.mp List.all_takeWhile⟩
        have hsplit : b :: x = b :: x.takeWhile isWordByte ++ x.dropWhile isWordByte := by simp
        have hshort : (x.dropWhile isWordByte).length ≤ x.length := (List.dropWhile_suffix _).length_le
        have hwritten : Text.replaceWords value (b :: x) = _ :=
          Text.replaceWords_cons (Front.cut_run hstart)
        rw [hsplit] at hx hwritten ⊢
        have hafter := ih _ (by omega) ((isRunText_word_append hword).mp hx) rfl
        exact .word hvalue (by simp) hword hwritten hafter
      · rw [Bool.not_eq_true] at hstart
        obtain ⟨after, hsplit, hglyphs⟩ := Text.glyphs_cons_eq b x
        obtain ⟨k, hbytes⟩ := Glyph.first_bytes b x
        rw [IsRunText, hglyphs, List.forall_mem_cons] at hx
        have hshort : after.length < n := by
          have hlength := congrArg List.length hsplit
          rw [hbytes] at hlength
          simp only [List.length_cons, List.length_append] at hlength
          omega
        rw [hsplit]
        exact .glyph (Glyph.spelled_first b x) hx.1 hbytes hstart (ih _ hshort hx.2 rfl)

end Chars

namespace Region

/-! ### Gaps -/

theorem pass_bytes
    (hw : ∀ b ∈ w, b ≠ newline ∧ b ≠ '"'.toUInt8 ∧ isWordStart b = false ∧ b ≠ '/'.toUInt8) :
    pass value .code (w ++ rest) = w ++ pass value .code rest := by
  induction w with
  | nil => rfl
  | cons b w ih =>
    obtain ⟨⟨hnewline, hquote, hstart, hslash⟩, hw⟩ := List.forall_mem_cons.mp hw
    rw [List.cons_append, pass_byte hnewline hquote hstart (not_startsComment hslash), ih hw]
    rfl

theorem blank_bytes {c : Char} (hc : isBlank c = true) (hne : c ≠ '\n') : ∀ b ∈ Text.ofChar c,
    b ≠ newline ∧ b ≠ '"'.toUInt8 ∧ isWordStart b = false ∧ b ≠ '/'.toUInt8 := by
  intro b hb
  have hascii : b.toNat < 128 → c = Char.ofNat b.toNat := by
    intro hlt
    rw [← toNat_eq_of_mem_ofChar hlt hb, Char.ofNat_toNat]
  refine ⟨?_, ?_, ?_, ?_⟩
  · rintro rfl
    exact hne (hascii (by decide))
  · rintro rfl
    rw [hascii (by decide)] at hc
    exact absurd hc (by decide)
  · rw [← Bool.not_eq_true]
    intro hstart
    have hword := isWordByte_of_start hstart
    have hlt := isWordByte_lt hword
    rw [hascii hlt, isBlank_of_wordChar (by rw [isWordChar_ofNat hlt, hword])] at hc
    cases hc
  · rintro rfl
    rw [hascii (by decide)] at hc
    exact absurd hc (by decide)

theorem pass_blank {c : Char} (hc : isBlank c = true) (rest : Text) :
    pass value .code (Text.ofChar c ++ rest) = Text.ofChar c ++ pass value .code rest := by
  by_cases hne : c = '\n'
  · subst hne
    exact pass_newline .code rest
  · exact pass_bytes (blank_bytes hc hne)

theorem pass_comment {text : Text} (htext : ¬("*/" : Text) <:+: text) (rest : Text) :
    pass value .comment (text ++ ("*/" ++ rest)) = text ++ ("*/" ++ pass value .code rest) := by
  have hclosing : closing? .comment = some ("*/" : Text) := rfl
  induction text with
  | nil => exact pass_close hclosing rest
  | cons b text ih =>
    rw [List.infix_cons_iff, not_or] at htext
    have hopen : ¬("*/" : Text) <+: b :: (text ++ ("*/" ++ rest)) := by
      rintro ⟨more, hmore⟩
      obtain ⟨rfl, hslash⟩ := List.cons.inj hmore
      cases text with
      | nil => exact absurd (List.cons.inj hslash).1 (by decide)
      | cons c text =>
        obtain ⟨rfl, -⟩ := List.cons.inj hslash
        exact htext.1 ⟨text, rfl⟩
    rw [List.cons_append, pass_inside hclosing hopen, ih htext.2]
    rfl

theorem pass_body {body : Text} (hbody : '\x7d'.toUInt8 ∉ body) (rest : Text) :
    pass value .asmBody (body ++ ("\x7d" ++ rest)) = body ++ ("\x7d" ++ pass value .code rest) := by
  have hclosing : closing? .asmBody = some ("\x7d" : Text) := rfl
  induction body with
  | nil => exact pass_close hclosing rest
  | cons b body ih =>
    rw [List.mem_cons, not_or] at hbody
    have hopen : ¬("\x7d" : Text) <+: b :: (body ++ ("\x7d" ++ rest)) := by
      rintro ⟨more, hmore⟩
      exact hbody.1 (List.cons.inj hmore).1
    rw [List.cons_append, pass_inside hclosing hopen, ih hbody.2]
    rfl

/-- Blanks and comments are kept. -/
theorem pass_trivia {gap : Text} (h : Trivia gap rest) :
    pass value .code (gap ++ rest) = gap ++ pass value .code rest := by
  induction h with
  | none rest => rfl
  | @blank c gap rest hc _ ih =>
    rw [List.append_assoc, List.append_assoc, pass_blank hc, ih]
  | @line text gap rest htext hend _ ih =>
    simp only [List.append_assoc]
    have hline : pass value .code ("//" ++ text ++ (gap ++ rest)) = _ := pass_lineComment htext hend
    rw [List.append_assoc, List.append_assoc] at hline
    rw [hline, ih]
  | @block text gap rest htext _ ih =>
    simp only [List.append_assoc]
    rw [pass_blockComment, pass_comment htext, ih]

/-! ### Strings -/

theorem cutLiteral_bytes (hw : ∀ b ∈ w, b ≠ '"'.toUInt8 ∧ b ≠ '\\'.toUInt8) (t : Text) :
    Text.cutLiteral (w ++ t) = (w ++ t.cutLiteral.1, t.cutLiteral.2) := by
  induction w with
  | nil => rfl
  | cons b w ih =>
    obtain ⟨⟨hquote, hescape⟩, hw⟩ := List.forall_mem_cons.mp hw
    rw [List.cons_append, Text.cutLiteral_other hquote hescape, ih hw]
    rfl

/-- A string of the source is one literal: what a backslash takes along may have more than one byte, but
no quote or backslash is among the further ones. -/
theorem cutLiteral_quoted {inside : List Glyph} (h : Quoted inside) (hspelled : ∀ g ∈ inside, g.Spelled)
    (t : Text) :
    Text.cutLiteral (Text.ofGlyphs inside ++ t) =
      (Text.ofGlyphs inside ++ t.cutLiteral.1, t.cutLiteral.2) := by
  induction h with
  | nil => rfl
  | @plain g inside hg _ ih =>
    obtain ⟨hspelling, hspelled⟩ := List.forall_mem_cons.mp hspelled
    -- In a glyph that is neither a quote nor a backslash no byte is one of them.
    have hbytes : ∀ b ∈ g.bytes, b ≠ '"'.toUInt8 ∧ b ≠ '\\'.toUInt8 := by
      intro b hb
      constructor
      · rintro rfl
        exact hspelling.not_mem_bytes (by decide) hg.1 hb
      · rintro rfl
        exact hspelling.not_mem_bytes (by decide) hg.2.2 hb
    rw [Text.ofGlyphs_cons, List.append_assoc, cutLiteral_bytes hbytes, ih hspelled, List.append_assoc]
  | @escape a g inside ha _ ih =>
    have hspelling := hspelled g (by simp)
    obtain ⟨b, tail, hb⟩ := List.exists_cons_of_ne_nil hspelling.ne_nil
    -- The glyph behind the backslash may be of ASCII itself, but then it has no further bytes.
    have htail : ∀ c : Char, c.toNat < 128 → c.toUInt8 ∉ tail := by
      intro c hc hmem
      obtain ⟨-, hone⟩ := hspelling.of_mem hc (by simp [hb, hmem])
      rw [ofChar_ascii hc, hb] at hone
      obtain ⟨-, rfl⟩ := List.cons.inj hone
      cases hmem
    have hplain : ∀ d ∈ tail, d ≠ '"'.toUInt8 ∧ d ≠ '\\'.toUInt8 := by
      intro d hd
      constructor
      · rintro rfl
        exact htail _ (by decide) hd
      · rintro rfl
        exact htail _ (by decide) hd
    have hbackslash : a.bytes = ['\\'.toUInt8] :=
      (hspelled a (by simp)).bytes_of_ascii ha (by decide)
    rw [Text.ofGlyphs_cons, Text.ofGlyphs_cons, hbackslash, hb]
    simp only [List.cons_append, List.nil_append, List.append_assoc]
    rw [Text.cutLiteral_escape, cutLiteral_bytes hplain, ih fun g hg => hspelled g (by simp [hg])]

theorem pass_string {a b : Glyph} {inside : List Glyph} (ha : a.char = '"') (hinside : Quoted inside)
    (hb : b.char = '"') (hspelled : ∀ g ∈ a :: inside ++ [b], g.Spelled)
    (hline : ∀ g ∈ a :: inside ++ [b], g.char ≠ '\n') :
    pass value .code (Text.ofGlyphs (a :: inside ++ [b]) ++ rest) =
      Text.ofGlyphs (a :: inside ++ [b]) ++ pass value .code rest := by
  have hbytes : Text.ofGlyphs (a :: inside ++ [b]) =
      '"'.toUInt8 :: (Text.ofGlyphs inside ++ ['"'.toUInt8]) := by
    rw [List.cons_append, Text.ofGlyphs_cons, Text.ofGlyphs_append, Text.ofGlyphs_cons,
      (hspelled a (by simp)).bytes_of_ascii ha (by decide),
      (hspelled b (by simp)).bytes_of_ascii hb (by decide)]
    rfl
  have hnewline : newline ∉ Text.ofGlyphs inside ++ ['"'.toUInt8] := by
    rw [List.mem_append, not_or]
    exact ⟨not_mem_ofGlyphs (fun g hg => hspelled g (by simp [hg])) (by decide)
      fun g hg => hline g (by simp [hg]), by decide⟩
  rw [hbytes]
  refine pass_literal hnewline fun x => ?_
  rw [List.append_assoc, cutLiteral_quoted hinside fun g hg => hspelled g (by simp [hg])]
  rw [List.singleton_append, Text.cutLiteral_quote]

/-! ### Punctuation -/

section Punctuation

variable {g : Glyph} {gs : List Glyph}

theorem not_startsComment_of_gap (hspelled : ∀ h ∈ g :: gs, h.Spelled)
    (h : startsGap (g :: gs) = false) :
    ¬StartsComment (Text.ofGlyphs (g :: gs)) := by
  obtain ⟨hg, hgs⟩ := List.forall_mem_cons.mp hspelled
  rw [← Bool.not_eq_true, startsGap_cons, not_or] at h
  -- A comment has two ASCII bytes in front, so that there are glyphs of them.
  have htwo : ∀ c : Char, c = '/' ∨ c = '*' →
      ¬['/'.toUInt8, c.toUInt8] <+: Text.ofGlyphs (g :: gs) := by
    rintro c hc ⟨more, hmore⟩
    have hascii : c.toNat < 128 := by rcases hc with rfl | rfl <;> decide
    obtain ⟨chars, hchars⟩ := head_of_bytes hspelled (c := '/') (by decide) hmore.symm
    have hslash : g.char = '/' := (List.cons.inj hchars).1
    rw [Text.ofGlyphs_cons, hg.bytes_of_ascii hslash (by decide)] at hmore
    obtain ⟨chars', hnext⟩ := head_of_bytes hgs hascii (List.cons.inj hmore).2.symm
    cases gs with
    | nil => cases hnext
    | cons d gs =>
      obtain ⟨rfl, -⟩ := List.cons.inj hnext
      exact h.1 ⟨hslash, d, rfl, hc⟩
  rintro (hline | hblock)
  · exact htwo '/' (.inl rfl) hline
  · exact htwo '*' (.inr rfl) hblock

theorem punctuation?_byte {c : Char} {kind : Token.Kind} (h : Token.punctuation? c = some kind) :
    c.toNat < 128 ∧ c.toUInt8 ≠ newline ∧ c.toUInt8 ≠ '"'.toUInt8 ∧ isWordStart c.toUInt8 = false := by
  unfold Token.punctuation? at h
  split at h <;> cases h <;> decide

theorem doubled?_byte {c : Char} {kind : Token.Kind} (h : Token.doubled? c = some kind) :
    c.toNat < 128 ∧ c.toUInt8 ≠ newline ∧ c.toUInt8 ≠ '"'.toUInt8 ∧ isWordStart c.toUInt8 = false ∧
      c.toUInt8 ≠ '/'.toUInt8 := by
  unfold Token.doubled? at h
  split at h <;> cases h <;> decide

theorem pass_single {kind : Token.Kind} (hg : Token.punctuation? g.char = some kind)
    (hspelled : ∀ h ∈ g :: gs, h.Spelled) (hgap : startsGap (g :: gs) = false) :
    pass value .code (Text.ofGlyphs [g] ++ Text.ofGlyphs gs) =
      Text.ofGlyphs [g] ++ pass value .code (Text.ofGlyphs gs) := by
  obtain ⟨hascii, hnewline, hquote, hstart⟩ := punctuation?_byte hg
  have hcomment := not_startsComment_of_gap hspelled hgap
  have hbytes : Text.ofGlyphs [g] = [g.char.toUInt8] := by
    rw [Text.ofGlyphs_cons, (hspelled g (by simp)).bytes_of_ascii rfl hascii, ofChar_ascii hascii]
    rfl
  rw [← List.singleton_append, Text.ofGlyphs_append, hbytes] at hcomment
  rw [hbytes]
  exact pass_byte hnewline hquote hstart hcomment

theorem pass_double {a b : Glyph} {kind : Token.Kind} (ha : Token.doubled? a.char = some kind)
    (hb : b.char = a.char) (hspelled : ∀ h ∈ [a, b], h.Spelled) :
    pass value .code (Text.ofGlyphs [a, b] ++ rest) =
      Text.ofGlyphs [a, b] ++ pass value .code rest := by
  obtain ⟨hascii, hbyte⟩ := doubled?_byte ha
  have hbytes : Text.ofGlyphs [a, b] = [a.char.toUInt8, a.char.toUInt8] := by
    rw [Text.ofGlyphs_cons, Text.ofGlyphs_cons, (hspelled a (by simp)).bytes_of_ascii rfl hascii,
      (hspelled b (by simp)).bytes_of_ascii hb hascii, ofChar_ascii hascii]
    rfl
  rw [hbytes]
  exact pass_bytes (by simpa using hbyte)

end Punctuation

/-! ### Runs and blocks -/

section Blocks

variable {gs tok space body : List Glyph}

/-- Behind a run of characters no byte can continue an ASCII word. -/
theorem isWordByte_head (hspelled : ∀ g ∈ gs, g.Spelled)
    (h : ∀ g ∈ gs.head?, Token.isWordChar g.char = false) :
    ∀ b ∈ (Text.ofGlyphs gs).head?, isWordByte b = false := by
  intro b hb
  cases gs with
  | nil => cases hb
  | cons g gs =>
    rw [← Bool.not_eq_true]
    intro hword
    have hlt := isWordByte_lt hword
    have hg := h g rfl
    rw [head_char (hspelled g (by simp)) hb hlt, isWordChar_ofNat hlt, hword] at hg
    cases hg

theorem pass_runGlyphs (hrun : IsRun tok gs) (hspelled : ∀ g ∈ tok ++ gs, g.Spelled) :
    pass value .code (Text.ofGlyphs tok ++ Text.ofGlyphs gs) =
      (Text.ofGlyphs tok).replaceWords value ++
        pass value (if (Text.ofGlyphs tok).endWord = "asm" then .asmWord else .code)
          (Text.ofGlyphs gs) := by
  refine pass_run ?_ (isWordByte_head (fun g hg => hspelled g (by simp [hg])) hrun.2)
  intro b hb
  obtain ⟨g, hg, hb⟩ := List.mem_flatMap.mp hb
  exact isRunByte_of_mem (hspelled g (by simp [hg])) (hrun.1 g hg) hb

/-- A blank that may stand between the word `asm` and its brace. -/
def isPlainBlank (c : Char) : Bool :=
  c == ' ' || c == '\t' || c == '\r' || c == '\n'

theorem isPlainBlank_byte {c : Char} (h : isPlainBlank c = true) :
    c.toNat < 128 ∧ isAsmSpace c.toUInt8 = true := by
  simp only [isPlainBlank, Bool.or_eq_true, beq_iff_eq] at h
  rcases h with ((rfl | rfl) | rfl) | rfl <;> decide

theorem isBlank_of_plain {c : Char} (h : isPlainBlank c = true) : isBlank c = true := by
  simp only [isPlainBlank, Bool.or_eq_true, beq_iff_eq] at h
  rcases h with ((rfl | rfl) | rfl) | rfl <;> decide

theorem isPlainBlank_of_space (h : isAsmSpace b = true) :
    b.toNat < 128 ∧ isPlainBlank (Char.ofNat b.toNat) = true := by
  simp only [isAsmSpace, isAsmGap, Bool.or_eq_true, beq_iff_eq] at h
  rcases h with ((rfl | rfl) | rfl) | rfl <;> decide

theorem pass_space (hspelled : ∀ g ∈ space, g.Spelled)
    (hspace : ∀ g ∈ space, isPlainBlank g.char = true) :
    pass value .asmWord (Text.ofGlyphs space ++ rest) =
      Text.ofGlyphs space ++ pass value .asmWord rest := by
  induction space with
  | nil => rfl
  | cons g space ih =>
    obtain ⟨hg, hspelled⟩ := List.forall_mem_cons.mp hspelled
    obtain ⟨hblank, hspace⟩ := List.forall_mem_cons.mp hspace
    obtain ⟨hascii, hbyte⟩ := isPlainBlank_byte hblank
    rw [Text.ofGlyphs_cons, hg.bytes_of_ascii rfl hascii, ofChar_ascii hascii, List.append_assoc,
      List.singleton_append, pass_asmSpace hbyte, ih hspelled hspace]
    rfl

/-- An opening brace with nothing but plain blanks before it. -/
def OpensBlock (gs : List Glyph) : Prop :=
  ∃ space rest, gs = space ++ ⟨'\x7b', "\x7b"⟩ :: rest ∧ ∀ g ∈ space, isPlainBlank g.char = true

theorem pass_noBlock (hspelled : ∀ g ∈ gs, g.Spelled) (h : ¬OpensBlock gs) :
    pass value .asmWord (Text.ofGlyphs gs) = pass value .code (Text.ofGlyphs gs) := by
  induction gs with
  | nil => exact pass_noBrace (by simp [Text.ofGlyphs])
  | cons g gs ih =>
    obtain ⟨hg, hgs⟩ := List.forall_mem_cons.mp hspelled
    by_cases hblank : isPlainBlank g.char = true
    · obtain ⟨hascii, hbyte⟩ := isPlainBlank_byte hblank
      have hrest : ¬OpensBlock gs := by
        rintro ⟨space, rest, rfl, hspace⟩
        exact h ⟨g :: space, rest, rfl, List.forall_mem_cons.mpr ⟨hblank, hspace⟩⟩
      rw [Text.ofGlyphs_cons, hg.bytes_of_ascii rfl hascii, pass_blank (isBlank_of_plain hblank),
        ofChar_ascii hascii, List.singleton_append, pass_asmSpace hbyte, ih hgs hrest]
      rfl
    · refine pass_noBrace fun b hb => ⟨?_, ?_⟩
      · rw [← Bool.not_eq_true]
        intro hspace
        obtain ⟨hlt, hplain⟩ := isPlainBlank_of_space hspace
        rw [← head_char hg hb hlt] at hplain
        exact hblank hplain
      · rintro rfl
        have hchar : g.char = '\x7b' := head_char hg hb (by decide)
        exact h ⟨[], gs, by rw [brace_eq hg hchar (by decide)]; rfl, by simp⟩

end Blocks

end Region

end Pocket

import Pocket.Preprocess
import Pocket.Proofs.Decoding
import Pocket.Proofs.Emission

/-!
# What preprocessing writes

Without directives and with macros that have no parameters, preprocessing goes over a source once. Each
piece of it is written as it stands or, if it is the name of a macro in code, as the value of the macro,
and what follows is written as if the piece had not been there. That lines are read one by one, and that
the code of a line is put aside before it is expanded, does not show.
-/

namespace Pocket

/-! ### Fronts -/

/-- The bytes that a front takes. -/
def Front.bytes : Front → Text
  | .plain t => t
  | .word w => w

/-- What a front is written as. -/
def Front.written (value : Text → Option Text) : Front → Text
  | .plain t => t
  | .word w => (value w).getD w

variable {value : Text → Option Text} {b : UInt8} {rest after held x : Text} {f : Front}

theorem Text.cutLiteral_quote (rest : Text) :
    cutLiteral ('"'.toUInt8 :: rest) = (['"'.toUInt8], rest) := by
  rw [cutLiteral.eq_def]
  exact if_pos rfl

theorem Text.cutLiteral_escape (b : UInt8) (rest : Text) :
    cutLiteral ('\\'.toUInt8 :: b :: rest) =
      ('\\'.toUInt8 :: b :: rest.cutLiteral.1, rest.cutLiteral.2) := by
  rw [cutLiteral.eq_def]
  rfl

theorem Text.cutLiteral_other (hquote : b ≠ '"'.toUInt8) (hescape : b ≠ '\\'.toUInt8) (rest : Text) :
    cutLiteral (b :: rest) = (b :: rest.cutLiteral.1, rest.cutLiteral.2) := by
  rw [cutLiteral.eq_def]
  dsimp only
  rw [if_neg hquote, if_neg hescape]

theorem Text.cutLiteral_split (t : Text) : t.cutLiteral.1 ++ t.cutLiteral.2 = t := by
  fun_induction cutLiteral t with
  | case1 => rfl
  | case2 => rfl
  | case3 => rfl
  | case4 c rest literal after heq _ ih =>
    rw [heq] at ih
    simpa using ih
  | case5 b rest _ _ literal after heq ih =>
    rw [heq] at ih
    simpa using ih

/-- A literal does not depend on how far the text behind it goes. -/
theorem Text.cutLiteral_short (t : Text) (hx : x <+: t.cutLiteral.2) :
    cutLiteral (t.cutLiteral.1 ++ x) = (t.cutLiteral.1, x) := by
  fun_induction cutLiteral t with
  | case1 =>
    obtain rfl := List.prefix_nil.mp hx
    rfl
  | case2 => exact cutLiteral_quote x
  | case3 =>
    obtain rfl := List.prefix_nil.mp hx
    rfl
  | case4 c rest literal after heq _ ih =>
    rw [heq] at ih
    have ih : cutLiteral (literal ++ x) = (literal, x) := ih hx
    rw [List.cons_append, List.cons_append, cutLiteral_escape, ih]
  | case5 b rest hquote hescape literal after heq ih =>
    rw [heq] at ih
    have ih : cutLiteral (literal ++ x) = (literal, x) := ih hx
    rw [List.cons_append, cutLiteral_other hquote hescape, ih]

theorem Front.cut_split (h : Front.cut b rest = (f, after)) : f.bytes ++ after = b :: rest := by
  unfold Front.cut at h
  split at h
  · cases h
    simpa [Front.bytes] using rest.cutLiteral_split
  · split at h
    · cases h
      simp [Front.bytes]
    · cases h
      rfl

theorem Front.cut_le (h : Front.cut b rest = (f, after)) : after.length ≤ rest.length := by
  have hlength := Front.cut_length b rest
  rwa [h] at hlength

/-- A front does not depend on how far the text behind it goes. -/
theorem Front.cut_short (h : Front.cut b rest = (f, after)) (hx : x <+: after) :
    ∃ tail, f.bytes ++ x = b :: tail ∧ Front.cut b tail = (f, x) := by
  unfold Front.cut at h
  split at h
  · next hquote =>
    cases h
    refine ⟨rest.cutLiteral.1 ++ x, rfl, ?_⟩
    rw [Front.cut, if_pos hquote, Text.cutLiteral_short rest hx]
  · next hquote =>
    split at h
    · next hstart =>
      cases h
      refine ⟨rest.takeWhile isWordByte ++ x, rfl, ?_⟩
      have hall : ∀ c ∈ rest.takeWhile isWordByte, isWordByte c = true :=
        List.all_eq_true.mp List.all_takeWhile
      -- The text that is left begins as before, so the word ends at the same byte.
      have hstop : ∀ c ∈ x.head?, isWordByte c = false := by
        intro c hc
        have hhead := List.head?_dropWhile_not isWordByte rest
        obtain ⟨more, hmore⟩ := hx
        cases x with
        | nil => cases hc
        | cons d x =>
          obtain rfl : d = c := by simpa using hc
          rw [← hmore] at hhead
          simpa using hhead
      rw [Front.cut, if_neg hquote, if_pos hstart, List.takeWhile_append_of_pos hall,
        List.dropWhile_append_of_pos hall]
      cases x with
      | nil => simp
      | cons d x => simp [hstop d rfl]
    · next hstart =>
      cases h
      refine ⟨x, rfl, ?_⟩
      rw [Front.cut, if_neg hquote, if_neg hstart]

theorem Text.replaceWords_cons (h : Front.cut b rest = (f, after)) :
    replaceWords value (b :: rest) = f.written value ++ replaceWords value after := by
  rw [replaceWords]
  split
  · next hcut =>
    rw [hcut] at h
    cases h
    rfl
  · next hcut =>
    rw [hcut] at h
    cases h
    rfl

theorem Text.replaceWords_front (h : Front.cut b rest = (f, after)) (hx : x <+: after) :
    replaceWords value (f.bytes ++ x) = f.written value ++ replaceWords value x := by
  obtain ⟨tail, htail, hcut⟩ := Front.cut_short h hx
  rw [htail, replaceWords_cons hcut]

/-- Words of a text are replaced alike if only a part of what follows is there. -/
def Splits (value : Text → Option Text) (held rest : Text) : Prop :=
  ∀ x, x <+: rest →
    Text.replaceWords value (held ++ x) = Text.replaceWords value held ++ Text.replaceWords value x

theorem Text.replaceWords_nil : replaceWords value [] = [] := by
  rw [replaceWords]

theorem Splits.nil : Splits value [] rest := by
  intro x hx
  rw [Text.replaceWords_nil]
  rfl

theorem Splits.replaceWords_front (hheld : Splits value held (b :: rest))
    (h : Front.cut b rest = (f, after)) :
    Text.replaceWords value (held ++ f.bytes) = Text.replaceWords value held ++ f.written value := by
  have hfront : Text.replaceWords value (f.bytes ++ []) =
      f.written value ++ Text.replaceWords value [] :=
    Text.replaceWords_front h List.nil_prefix
  rw [List.append_nil, Text.replaceWords_nil, List.append_nil] at hfront
  rw [hheld _ ⟨after, Front.cut_split h⟩, hfront]

theorem Splits.front (hheld : Splits value held (b :: rest)) (h : Front.cut b rest = (f, after)) :
    Splits value (held ++ f.bytes) after := by
  intro x hx
  have hpart : f.bytes ++ x <+: b :: rest := by
    rw [← Front.cut_split h]
    exact (List.prefix_append_right_inj _).mpr hx
  rw [List.append_assoc, hheld _ hpart, Text.replaceWords_front h hx, hheld.replaceWords_front h,
    List.append_assoc]

theorem isWordByte_class (h : isWordByte b = true) :
    b ≠ newline ∧ b ≠ '"'.toUInt8 ∧ b ≠ '/'.toUInt8 := by
  refine ⟨?_, ?_, ?_⟩ <;> rintro rfl <;> exact absurd h (by decide)

theorem isWordByte_of_start (h : isWordStart b = true) : isWordByte b = true := by
  simp [isWordByte, h]

/-- A byte that is neither a quote nor the start of a word is written as it stands. -/
theorem Front.cut_byte (hquote : b ≠ '"'.toUInt8) (hstart : isWordStart b = false) :
    Front.cut b rest = (.plain [b], rest) := by
  rw [Front.cut, if_neg hquote, if_neg (by simp [hstart])]

/-- A word goes on as far as its bytes do. -/
theorem Front.cut_word {w : Text} (hstart : isWordStart b = true) (hw : ∀ c ∈ w, isWordByte c = true)
    (hrest : ∀ c ∈ rest.head?, isWordByte c = false) :
    Front.cut b (w ++ rest) = (.word (b :: w), rest) := by
  have hquote : b ≠ '"'.toUInt8 := by
    rintro rfl
    exact absurd hstart (by decide)
  rw [Front.cut, if_neg hquote, if_pos hstart, List.takeWhile_append_of_pos hw,
    List.dropWhile_append_of_pos hw]
  cases rest with
  | nil => simp
  | cons c rest => simp [hrest c rfl]

/-- Bytes that are neither quotes nor begin words are kept. -/
theorem Text.replaceWords_bytes {w : Text} (hw : ∀ b ∈ w, b ≠ '"'.toUInt8 ∧ isWordStart b = false)
    (x : Text) : replaceWords value (w ++ x) = w ++ replaceWords value x := by
  induction w with
  | nil => rfl
  | cons b w ih =>
    obtain ⟨⟨hquote, hstart⟩, hw⟩ := List.forall_mem_cons.mp hw
    rw [List.cons_append, replaceWords_cons (Front.cut_byte hquote hstart), ih hw]
    rfl

/-! ### Macros without parameters -/

/-- Macros without parameters put their bodies in the place of their names. -/
theorem Macros.expand_eq {ms : Macros} (hparams : ∀ w m, ms.lookup w = some m → m.params = [])
    (depth : Nat) (t : Text) :
    ms.expand depth t = some (t.replaceWords fun w => (ms.lookup w).map Macro.body) := by
  generalize hn : t.length = n
  induction n using Nat.strongRecOn generalizing t with
  | ind n ih =>
    cases t with
    | nil => rw [Macros.expand, Text.replaceWords_nil]
    | cons b rest =>
      cases hcut : Front.cut b rest with
      | mk f after =>
        have hlength := Front.cut_le hcut
        rw [List.length_cons] at hn
        have ih := ih after.length (by omega) after rfl
        rw [Macros.expand, Text.replaceWords_cons hcut]
        split
        · next hcut' =>
          rw [hcut'] at hcut
          cases hcut
          rw [ih]
          rfl
        · next w after' hcut' =>
          rw [hcut'] at hcut
          cases hcut
          rw [Front.written]
          -- A name without parameters is replaced whatever stands behind it.
          split
          · next hlookup =>
            rw [ih, hlookup]
            rfl
          · next m hlookup =>
            rw [if_pos (by simp [hparams w m hlookup]), ih, hlookup]
            rfl

theorem Preprocess.lookup_seed (given : List (Text × Text)) (w : Text) :
    (Preprocess.seed given).lookup w = (given.lookup w).map fun v => ⟨[], v⟩ := by
  induction given with
  | nil => rfl
  | cons m given ih =>
    obtain ⟨name, v⟩ := m
    simp only [Preprocess.seed, List.map_cons, List.lookup_cons] at ih ⊢
    split
    · rfl
    · exact ih

theorem Preprocess.expand_seed (given : List (Text × Text)) (depth : Nat) (t : Text) :
    (Preprocess.seed given).expand depth t = some (t.replaceWords fun w => given.lookup w) := by
  have hparams : ∀ w m, (Preprocess.seed given).lookup w = some m → m.params = [] := by
    intro w m h
    rw [lookup_seed] at h
    obtain ⟨v, -, rfl⟩ := Option.map_eq_some_iff.mp h
    rfl
  have hvalue : (fun w => ((Preprocess.seed given).lookup w).map Macro.body) =
      fun w => given.lookup w := by
    funext w
    rw [lookup_seed, Option.map_map]
    exact Option.map_id'
  rw [Macros.expand_eq hparams, hvalue]

/-! ### Beginnings -/

theorem Text.startsWith_iff {t start : Text} : t.startsWith start = true ↔ start <+: t := by
  rw [startsWith, Option.isSome_iff_exists]
  constructor
  · rintro ⟨after, h⟩
    exact ⟨after, (after?_eq_some_iff.mp h).symm⟩
  · rintro ⟨after, h⟩
    exact ⟨after, after?_eq_some_iff.mpr h.symm⟩

theorem Text.startsWith_eq_false_iff {t start : Text} : t.startsWith start = false ↔ ¬start <+: t := by
  rw [← startsWith_iff, Bool.not_eq_true]

theorem Text.cutAfter?_here {mark : Text} (hmark : mark ≠ []) (rest : Text) :
    cutAfter? mark (mark ++ rest) = some (mark, rest) := by
  obtain ⟨b, tail, rfl⟩ := List.exists_cons_of_ne_nil hmark
  rw [List.cons_append, cutAfter?, ← List.cons_append, after?_eq_some_iff.mpr rfl]

theorem Text.cutAfter?_later {mark : Text} (h : ¬mark <+: b :: rest) :
    cutAfter? mark (b :: rest) =
      (cutAfter? mark rest).map fun (before, after) => (b :: before, after) := by
  rw [cutAfter?]
  split
  · next hafter => exact absurd ⟨_, (after?_eq_some_iff.mp hafter).symm⟩ h
  · rfl

/-! ### Lines -/

/-- A segment as it is written. -/
def Segment.written (value : Text → Option Text) : Segment → Text
  | .code t => t.replaceWords value
  | .kept t => t

namespace Region

variable {region : Region} {w t mark : Text}

/-- What the rest of a line is written as, and what it leaves open. -/
def written (value : Text → Option Text) (region : Region) (held rest : Text) : Text × Region :=
  ((segments region held rest).1.flatMap (Segment.written value), (segments region held rest).2)

/-- A text put before what is written. -/
def behind (t : Text) (line : Text × Region) : Text × Region :=
  (t ++ line.1, line.2)

theorem behind_append (s t : Text) (line : Text × Region) :
    behind (s ++ t) line = behind s (behind t line) := by
  simp [behind]

theorem behind_nil (line : Text × Region) : behind [] line = line := rfl

theorem written_code_nil : written value .code held [] = (held.replaceWords value, .code) := by
  simp [written, segments, Segment.written]

theorem written_nil (h : region ≠ .code) : written value region held [] = (held, region) := by
  simp [written, segments, Segment.written, h]

theorem written_empty (region : Region) : written value region [] [] = ([], region) := by
  cases region with
  | code => rw [written_code_nil, Text.replaceWords_nil]
  | comment => exact written_nil (by simp)
  | asmWord => exact written_nil (by simp)
  | asmBody => exact written_nil (by simp)

/-! #### Code -/

theorem written_lineComment (h : ("//" : Text) <+: b :: rest) :
    written value .code held (b :: rest) = (held.replaceWords value ++ b :: rest, .code) := by
  rw [written, segments, if_pos (Text.startsWith_iff.mpr h)]
  simp [Segment.written]

theorem written_blockComment (rest : Text) :
    written value .code held ("/*" ++ rest) =
      behind (held.replaceWords value) (written value .comment "/*" rest) := by
  have hline : Text.startsWith ("/*" ++ rest) "//" = false := rfl
  have hblock : Text.startsWith ("/*" ++ rest) "/*" = true := Text.startsWith_iff.mpr ⟨rest, rfl⟩
  change written value .code held ('/'.toUInt8 :: ('*'.toUInt8 :: rest)) = _
  change Text.startsWith ('/'.toUInt8 :: ('*'.toUInt8 :: rest)) "//" = false at hline
  change Text.startsWith ('/'.toUInt8 :: ('*'.toUInt8 :: rest)) "/*" = true at hblock
  rw [written, segments, if_neg (by simp [hline]), if_pos hblock]
  rfl

/-- Whether a comment begins. -/
def StartsComment (t : Text) : Prop :=
  ("//" : Text) <+: t ∨ ("/*" : Text) <+: t

/-- Code is put aside front by front, up to the word `asm`. -/
theorem written_front (hcomment : ¬StartsComment (b :: rest)) (h : Front.cut b rest = (f, after)) :
    written value .code held (b :: rest) =
      if f = .word "asm" then
        behind (Text.replaceWords value (held ++ f.bytes)) (written value .asmWord [] after)
      else written value .code (held ++ f.bytes) after := by
  rw [StartsComment, not_or, ← Text.startsWith_iff, ← Text.startsWith_iff] at hcomment
  rw [written, segments, if_neg hcomment.1, if_neg hcomment.2]
  split
  · next hcut =>
    rw [hcut] at h
    cases h
    rfl
  · next hcut =>
    rw [hcut] at h
    cases h
    simp only [Front.word.injEq]
    split <;> rfl

/-- Code that was put aside is written as if it had been written at once. -/
theorem written_code_held (h : Splits value held rest) :
    written value .code held rest = behind (held.replaceWords value) (written value .code [] rest) := by
  generalize hn : rest.length = n
  induction n using Nat.strongRecOn generalizing held rest with
  | ind n ih =>
    cases rest with
    | nil => rw [written_code_nil, written_code_nil, Text.replaceWords_nil, behind, List.append_nil]
    | cons b rest =>
      by_cases hcomment : StartsComment (b :: rest)
      · rcases hcomment with hline | ⟨more, hblock⟩
        · rw [written_lineComment hline, written_lineComment hline, Text.replaceWords_nil]
          rfl
        · rw [← hblock, written_blockComment, written_blockComment, Text.replaceWords_nil, behind_nil]
      · cases hcut : Front.cut b rest with
        | mk f after =>
          have hlength := Front.cut_le hcut
          rw [List.length_cons] at hn
          have hself : Splits value [] (b :: rest) := .nil
          rw [written_front hcomment hcut, written_front hcomment hcut,
            ih after.length (by omega) (h.front hcut) rfl,
            ih after.length (by omega) (hself.front hcut) rfl, h.replaceWords_front hcut,
            hself.replaceWords_front hcut, Text.replaceWords_nil, List.nil_append]
          split <;> rw [behind_append]

theorem written_code_front (hcomment : ¬StartsComment (b :: rest)) (h : Front.cut b rest = (f, after)) :
    written value .code [] (b :: rest) =
      behind (f.written value)
        (written value (if f = .word "asm" then .asmWord else .code) [] after) := by
  have hself : Splits value [] (b :: rest) := .nil
  rw [written_front hcomment h, written_code_held (hself.front h), hself.replaceWords_front h,
    Text.replaceWords_nil, List.nil_append]
  split <;> rfl

/-! #### Comments and raw bodies -/

/-- What closes a comment or a raw body. -/
def closing? : Region → Option Text
  | .comment => some "*/"
  | .asmBody => some "\x7d"
  | _ => none

theorem closing?_class (h : region.closing? = some mark) : region ≠ .code ∧ mark ≠ [] := by
  cases region <;> cases h <;> decide

theorem written_enclosed (h : region.closing? = some mark) :
    written value region held (b :: rest) =
      match Text.cutAfter? mark (b :: rest) with
      | none => (held ++ b :: rest, region)
      | some (inside, after) => behind (held ++ inside) (written value .code [] after) := by
  cases region with
  | code => cases h
  | asmWord => cases h
  | comment =>
    cases h
    rw [written, segments]
    split
    · next hcut => simp [hcut, Segment.written]
    · next hcut =>
      rw [hcut]
      rfl
  | asmBody =>
    cases h
    rw [written, segments]
    split
    · next hcut => simp [hcut, Segment.written]
    · next hcut =>
      rw [hcut]
      rfl

theorem written_close (h : region.closing? = some mark) (held rest : Text) :
    written value region held (mark ++ rest) = behind (held ++ mark) (written value .code [] rest) := by
  have hmark := (closing?_class h).2
  have hcut := Text.cutAfter?_here hmark rest
  obtain ⟨b, tail, rfl⟩ := List.exists_cons_of_ne_nil hmark
  rw [List.cons_append] at hcut ⊢
  rw [written_enclosed h, hcut]

theorem written_inside (h : region.closing? = some mark) (hb : ¬mark <+: b :: rest) (held : Text) :
    written value region held (b :: rest) = written value region (held ++ [b]) rest := by
  rw [written_enclosed h, Text.cutAfter?_later hb]
  cases rest with
  | nil => rw [written_nil (closing?_class h).1, Text.cutAfter?, Option.map_none]
  | cons c rest =>
    rw [written_enclosed h]
    cases hcut : Text.cutAfter? mark (c :: rest) with
    | none => simp
    | some cut => simp

theorem written_held (h : region.closing? = some mark) (held rest : Text) :
    written value region held rest = behind held (written value region [] rest) := by
  cases rest with
  | nil =>
    have hcode := (closing?_class h).1
    rw [written_nil hcode, written_nil hcode, behind, List.append_nil]
  | cons b rest =>
    rw [written_enclosed h, written_enclosed h]
    split <;> simp [behind]

/-! #### Behind the word `asm` -/

theorem written_gap (hb : isAsmGap b = true) :
    written value .asmWord held (b :: rest) = written value .asmWord (held ++ [b]) rest := by
  rw [written, segments, if_pos hb]
  rfl

theorem written_brace (held rest : Text) :
    written value .asmWord held ('\x7b'.toUInt8 :: rest) =
      behind (held ++ "\x7b") (written value .asmBody [] rest) := by
  rw [written, segments, if_neg (by decide), if_pos rfl]
  rfl

theorem written_noBrace (hb : isAsmGap b = false) (hbrace : b ≠ '\x7b'.toUInt8) :
    written value .asmWord held (b :: rest) = written value .code held (b :: rest) := by
  rw [written, segments, if_neg (by simp [hb]), if_neg hbrace]
  rfl

theorem gap_byte (hb : isAsmGap b = true) : b ≠ '"'.toUInt8 ∧ isWordStart b = false := by
  simp only [isAsmGap, Bool.or_eq_true, beq_iff_eq] at hb
  rcases hb with (rfl | rfl) | rfl <;> decide

theorem written_asmWord_held (hheld : ∀ b ∈ held, isAsmGap b = true) (rest : Text) :
    written value .asmWord held rest = behind held (written value .asmWord [] rest) := by
  induction rest generalizing held with
  | nil => rw [written_nil (by simp), written_nil (by simp), behind, List.append_nil]
  | cons b rest ih =>
    by_cases hb : isAsmGap b = true
    · have hheld' : ∀ c ∈ held ++ [b], isAsmGap c = true := by simpa [or_imp, forall_and, hb] using hheld
      have hself : ∀ c ∈ ([] ++ [b] : Text), isAsmGap c = true := by simpa using hb
      rw [written_gap hb, written_gap hb, ih hheld', ih hself, behind_append]
      rfl
    -- Without a brace the gap is code again, in which it stays as it is.
    · rw [Bool.not_eq_true] at hb
      by_cases hbrace : b = '\x7b'.toUInt8
      · subst hbrace
        rw [written_brace, written_brace, behind_append]
        rfl
      · have hbytes : ∀ x, Text.replaceWords value (held ++ x) = held ++ Text.replaceWords value x :=
          Text.replaceWords_bytes fun b hb => gap_byte (hheld b hb)
        have hself : Text.replaceWords value held = held := by
          have h := hbytes []
          rwa [Text.replaceWords_nil, List.append_nil] at h
        have hsplits : Splits value held (b :: rest) := by
          intro x hx
          rw [hbytes, hself]
        rw [written_noBrace hb hbrace, written_noBrace hb hbrace, written_code_held hsplits, hself]

end Region

/-! ### Whole texts -/

theorem Text.lines_newline (t : Text) : lines (newline :: t) = [] :: t.lines := by
  rw [lines, split]
  exact if_pos rfl

theorem Text.lines_cons {t line : Text} {more : List Text} (hb : b ≠ newline)
    (h : t.lines = line :: more) : lines (b :: t) = (b :: line) :: more := by
  have hb : b ≠ '\n'.toUInt8 := hb
  rw [lines] at h
  rw [lines, split, if_neg hb, h]

/-- The first line reaches up to the first newline. -/
theorem Text.lines_eq_cons (t : Text) :
    ∃ line more, t.lines = line :: more ∧ line <+: t ∧ newline ∉ line := by
  induction t with
  | nil => exact ⟨[], [], rfl, List.prefix_refl _, by simp⟩
  | cons b t ih =>
    obtain ⟨line, more, hlines, hfirst, hline⟩ := ih
    by_cases hb : b = newline
    · subst hb
      exact ⟨[], lines t, lines_newline t, List.nil_prefix, by simp⟩
    · refine ⟨b :: line, more, lines_cons hb hlines, List.cons_prefix_cons.mpr ⟨rfl, hfirst⟩, ?_⟩
      simpa [Ne.symm hb] using hline

theorem Text.lines_append {x t line : Text} {more : List Text} (hx : newline ∉ x)
    (h : t.lines = line :: more) : (x ++ t).lines = (x ++ line) :: more := by
  induction x with
  | nil => exact h
  | cons b x ih =>
    rw [List.mem_cons, not_or] at hx
    exact lines_cons (Ne.symm hx.1) (ih hx.2)

namespace Region

variable {region region' : Region} {out : Text}

/-- What some lines are written as. -/
def writtenLines (value : Text → Option Text) : Region → List Text → Text
  | _, [] => []
  | region, line :: more =>
    let (text, after) := written value region [] line
    if more.isEmpty then text else text ++ "\n" ++ writtenLines value after more

/-- What a text is written as. -/
def pass (value : Text → Option Text) (region : Region) (t : Text) : Text :=
  writtenLines value region t.lines

theorem pass_nil (region : Region) : pass value region [] = [] := by
  rw [pass, show Text.lines [] = [[]] from rfl, writtenLines, written_empty]
  rfl

theorem pass_newline (region : Region) (rest : Text) :
    pass value region (newline :: rest) = newline :: pass value region rest := by
  obtain ⟨line, more, hlines, -⟩ := rest.lines_eq_cons
  rw [pass, pass, Text.lines_newline, hlines, writtenLines, written_empty]
  rfl

/-- What stands in one line is written before the rest, if it is on every line that begins so. -/
theorem pass_append {x : Text} (hx : newline ∉ x)
    (h : ∀ line, line <+: rest → newline ∉ line →
      written value region [] (x ++ line) = behind out (written value region' [] line)) :
    pass value region (x ++ rest) = out ++ pass value region' rest := by
  obtain ⟨line, more, hlines, hfirst, hline⟩ := rest.lines_eq_cons
  rw [pass, pass, Text.lines_append hx hlines, hlines, writtenLines, writtenLines, h line hfirst hline]
  simp only [behind]
  split
  · rfl
  · simp

theorem pass_cons (hb : b ≠ newline)
    (h : ∀ line, line <+: rest →
      written value region [] (b :: line) = behind [b] (written value region' [] line)) :
    pass value region (b :: rest) = b :: pass value region' rest := by
  change pass value region ([b] ++ rest) = [b] ++ pass value region' rest
  exact pass_append (by simpa using Ne.symm hb) fun line hline _ => h line hline

/-! #### Code -/

theorem StartsComment.mono {s t : Text} (h : StartsComment s) (ht : s <+: t) : StartsComment t :=
  h.imp (·.trans ht) (·.trans ht)

theorem not_startsComment (hb : b ≠ '/'.toUInt8) : ¬StartsComment (b :: rest) := by
  rintro (⟨more, h⟩ | ⟨more, h⟩)
  · exact hb (List.cons.inj h).1.symm
  · exact hb (List.cons.inj h).1.symm

theorem pass_byte (hb : b ≠ newline) (hquote : b ≠ '"'.toUInt8) (hstart : isWordStart b = false)
    (hcomment : ¬StartsComment (b :: rest)) :
    pass value .code (b :: rest) = b :: pass value .code rest := by
  refine pass_cons hb fun line hline => ?_
  have hfirst : b :: line <+: b :: rest := List.cons_prefix_cons.mpr ⟨rfl, hline⟩
  exact written_code_front (fun h => hcomment (h.mono hfirst)) (Front.cut_byte hquote hstart)

theorem pass_word {w : Text} (hstart : isWordStart b = true) (hw : ∀ c ∈ w, isWordByte c = true)
    (hrest : ∀ c ∈ rest.head?, isWordByte c = false) :
    pass value .code (b :: w ++ rest) =
      (value (b :: w)).getD (b :: w) ++
        pass value (if (b :: w : Text) = "asm" then .asmWord else .code) rest := by
  have hword : ∀ c ∈ b :: w, isWordByte c = true :=
    List.forall_mem_cons.mpr ⟨isWordByte_of_start hstart, hw⟩
  have hnewline : newline ∉ b :: w := fun hmem => (isWordByte_class (hword _ hmem)).1 rfl
  refine pass_append hnewline fun line hline _ => ?_
  have hstop : ∀ c ∈ line.head?, isWordByte c = false := by
    intro c hc
    obtain ⟨more, rfl⟩ := hline
    cases line with
    | nil => cases hc
    | cons d line => exact hrest c hc
  have hcomment : ¬StartsComment (b :: (w ++ line)) :=
    not_startsComment (isWordByte_class (isWordByte_of_start hstart)).2.2
  rw [List.cons_append, written_code_front hcomment (Front.cut_word hstart hw hstop)]
  simp only [Front.word.injEq]
  rfl

theorem pass_literal {literal : Text} (hnewline : newline ∉ literal)
    (hliteral : ∀ x, Text.cutLiteral (literal ++ x) = (literal, x)) :
    pass value .code ('"'.toUInt8 :: literal ++ rest) =
      '"'.toUInt8 :: literal ++ pass value .code rest := by
  refine pass_append (by simpa using ⟨by decide, hnewline⟩) fun line _ _ => ?_
  have hcut : Front.cut '"'.toUInt8 (literal ++ line) = (.plain ('"'.toUInt8 :: literal), line) := by
    rw [Front.cut, if_pos rfl, hliteral]
  exact written_code_front (not_startsComment (by decide)) hcut

theorem pass_lineComment {text : Text} (htext : newline ∉ text) (hrest : ∀ b ∈ rest.head?, b = newline) :
    pass value .code ("//" ++ text ++ rest) = "//" ++ text ++ pass value .code rest := by
  have hnewline : newline ∉ ("//" : Text) ++ text := by
    rw [List.mem_append, not_or]
    exact ⟨by decide, htext⟩
  refine pass_append hnewline fun line hline hnone => ?_
  cases line with
  | nil =>
    have hwritten : written value .code [] ("//" ++ text) =
        (Text.replaceWords value [] ++ ("//" ++ text), .code) := written_lineComment ⟨text, rfl⟩
    rw [List.append_nil, hwritten, written_empty, Text.replaceWords_nil, behind, List.append_nil,
      List.nil_append]
  | cons c line =>
    obtain ⟨more, rfl⟩ := hline
    obtain rfl : c = newline := hrest c rfl
    simp at hnone

theorem pass_blockComment (rest : Text) :
    pass value .code ("/*" ++ rest) = "/*" ++ pass value .comment rest := by
  refine pass_append (by decide) fun line _ _ => ?_
  have hclosing : closing? .comment = some ("*/" : Text) := rfl
  rw [written_blockComment, Text.replaceWords_nil, behind_nil, written_held hclosing]

/-! #### Comments and raw bodies -/

theorem pass_inside {mark : Text} (h : region.closing? = some mark) (hb : ¬mark <+: b :: rest) :
    pass value region (b :: rest) = b :: pass value region rest := by
  by_cases hnewline : b = newline
  · rw [hnewline, pass_newline]
  · refine pass_cons hnewline fun line hline => ?_
    have hfirst : b :: line <+: b :: rest := List.cons_prefix_cons.mpr ⟨rfl, hline⟩
    rw [written_inside h fun hmark => hb (hmark.trans hfirst), written_held h]
    rfl

theorem pass_close {mark : Text} (h : region.closing? = some mark) (rest : Text) :
    pass value region (mark ++ rest) = mark ++ pass value .code rest := by
  have hnewline : newline ∉ mark := by
    cases region <;> cases h <;> decide
  exact pass_append hnewline fun line _ _ => written_close h [] line

/-! #### Behind the word `asm` -/

/-- Whether a byte may stand between the word `asm` and its brace, on one line or more. -/
def isAsmSpace (b : UInt8) : Bool :=
  isAsmGap b || b == newline

theorem pass_asmSpace (hb : isAsmSpace b = true) :
    pass value .asmWord (b :: rest) = b :: pass value .asmWord rest := by
  by_cases hnewline : b = newline
  · rw [hnewline, pass_newline]
  · have hgap : isAsmGap b = true := by simpa [isAsmSpace, hnewline] using hb
    refine pass_cons hnewline fun line _ => ?_
    rw [written_gap hgap]
    exact written_asmWord_held (by simpa using hgap) line

theorem pass_brace (rest : Text) :
    pass value .asmWord ("\x7b" ++ rest) = "\x7b" ++ pass value .asmBody rest :=
  pass_append (by decide) fun line _ _ => written_brace [] line

/-- Without a brace the word `asm` is one like others. -/
theorem pass_noBrace (h : ∀ b ∈ rest.head?, isAsmSpace b = false ∧ b ≠ '\x7b'.toUInt8) :
    pass value .asmWord rest = pass value .code rest := by
  cases rest with
  | nil => rw [pass_nil, pass_nil]
  | cons b rest =>
    obtain ⟨hspace, hbrace⟩ := h b rfl
    simp only [isAsmSpace, Bool.or_eq_false_iff, beq_eq_false_iff_ne] at hspace
    obtain ⟨line, more, hlines, -⟩ := Text.lines_eq_cons rest
    rw [pass, pass, Text.lines_cons hspace.2 hlines, writtenLines, writtenLines,
      written_noBrace hspace.1 hbrace]

end Region

/-! ### Preprocessing -/

namespace Preprocess

variable {depth : Nat} {s : State} {line : Text}

theorem mapM_expand {ms : Macros} (hms : ∀ t, ms.expand depth t = some (t.replaceWords value))
    (segments : List Segment) :
    Segment.expandAll ms depth segments = some (segments.flatMap (Segment.written value)) := by
  have hmap : segments.mapM (Segment.expand ms depth) = some (segments.map (Segment.written value)) := by
    induction segments with
    | nil => rfl
    | cons segment segments ih =>
      have hsegment : segment.expand ms depth = some (segment.written value) := by
        cases segment with
        | code t => exact hms t
        | kept t => rfl
      rw [List.mapM_cons, hsegment, ih]
      rfl
  rw [Segment.expandAll, hmap, List.flatMap_def]
  rfl

theorem replaceLine_plain (disk : Disk) (dir : Text) (reading : List Place)
    (hs : ∀ t, s.macros.expand depth t = some (t.replaceWords value))
    (hline : Directive.ofLine line = .plain) :
    ∃ t : s.Later disk, replaceLine disk depth dir reading s line =
        .ok ((s.region.written value [] line).1, t) ∧
      t.val.macros = s.macros ∧ t.val.region = (s.region.written value [] line).2 := by
  have hplain : (if s.region = .code then Directive.ofLine line else .plain) = .plain := by
    split
    · exact hline
    · rfl
  refine ⟨⟨{ s with region := (s.region.cutLine line).2 }, Nat.le_refl _⟩, ?_, rfl, rfl⟩
  rw [replaceLine, hplain]
  simp only [mapM_expand hs]
  rfl

theorem run_plain (disk : Disk) (dir : Text) (reading : List Place)
    (hs : ∀ t, s.macros.expand depth t = some (t.replaceWords value)) {lines : List Text}
    (hlines : ∀ line ∈ lines, Directive.ofLine line = .plain) (number : Nat) :
    ∃ t, run disk depth dir reading number s lines = .ok (s.region.writtenLines value lines, t) := by
  induction lines generalizing s number with
  | nil => exact ⟨_, run.eq_def ..⟩
  | cons line lines ih =>
    obtain ⟨hline, hlines⟩ := List.forall_mem_cons.mp hlines
    obtain ⟨t, hstep, hmacros, hregion⟩ := replaceLine_plain disk dir reading hs hline
    obtain ⟨u, hrun⟩ := ih (s := t.val) (hmacros ▸ hs) hlines (number + 1)
    refine ⟨⟨u.val, Nat.le_trans u.property t.property⟩, ?_⟩
    rw [run]
    simp only [hstep, hrun]
    rw [hregion]
    rfl

end Preprocess

/-- Without directives a source is written in one pass. -/
theorem preprocess_eq (disk : Disk) (depth : Nat) (dir : Text) (given : List (Text × Text))
    {source : Text} (hlines : ∀ line ∈ source.lines, Directive.ofLine line = .plain) :
    preprocess disk depth dir given source =
      .ok (Region.pass (fun w => given.lookup w) .code source) := by
  obtain ⟨t, hrun⟩ := Preprocess.run_plain disk dir [] (s := ⟨Preprocess.seed given, [], .code⟩)
    (Preprocess.expand_seed given depth) hlines 1
  rw [preprocess, hrun]
  rfl

end Pocket

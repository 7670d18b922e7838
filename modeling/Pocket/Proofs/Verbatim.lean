import Pocket.Proofs.WordRuns

/-!
# Sources that stay as they are

Preprocessing changes a source only by directives and by the names of macros. A source that has neither
comes out byte for byte, whatever comments, raw bodies and string literals it leaves open.

A line is cut where a comment, a raw body or the word `asm` ends, never inside a run of word bytes. So
the words that macros are looked up for are maximal runs of the source without their leading digits.
-/

namespace Pocket

open Text (isDigitByte)

variable {value : Text → Option Text} {t w x line : Text} {b : UInt8}

/-! ### Texts without names -/

/-- No maximal run has a value, its leading digits dropped. -/
def Text.Nameless (value : Text → Option Text) (t : Text) : Prop :=
  ∀ w, t.HasRun w → value (w.dropWhile isDigitByte) = none

namespace Text

theorem nameless_nil : Nameless value [] := by
  rintro w ⟨before, after, h, hrun⟩
  rw [List.append_assoc, eq_comm, List.append_eq_nil_iff, List.append_eq_nil_iff] at h
  exact absurd h.2.1 hrun.ne_nil

theorem Nameless.of_append (h : Nameless value (x ++ t))
    (hx : (∀ b ∈ x.getLast?, isWordByte b = false) ∨ ∀ b ∈ t.head?, isWordByte b = false) :
    Nameless value t := fun w hw => h w (hw.behind hx)

theorem Nameless.of_cons (h : Nameless value (b :: t)) (hb : isWordByte b = false) :
    Nameless value t := by
  refine Nameless.of_append (x := [b]) h (.inl fun c hc => ?_)
  obtain rfl : b = c := by simpa using hc
  exact hb

/-- A digit before a text makes its first run longer, but not the word behind the digits. -/
theorem Nameless.of_digit (h : Nameless value (b :: t)) (hb : isDigitByte b = true) :
    Nameless value t := by
  rintro w ⟨before, after, rfl, hrun⟩
  have hword : isWordByte b = true := by
    rw [isDigitByte] at hb
    simp [isWordByte, hb]
  cases before with
  | nil =>
    have hlonger : HasRun (b :: w ++ after) (b :: w) :=
      hasRun_first (List.cons_ne_nil _ _) (List.forall_mem_cons.mpr ⟨hword, hrun.word⟩) hrun.stop
    simpa [hb] using h _ hlonger
  | cons c before =>
    refine h w ⟨b :: c :: before, after, rfl, hrun.ne_nil, hrun.word, ?_, hrun.stop⟩
    intro d hd
    rw [List.getLast?_cons_cons] at hd
    exact hrun.start d hd

end Text

theorem Text.Nameless.behind_literal (h : Nameless value ('"'.toUInt8 :: t)) :
    Nameless value t.cutLiteral.2 := by
  obtain ⟨body, hbody, ⟨more, rfl⟩ | ⟨tail, htail, rfl⟩⟩ := literalBody_cases t
  · rw [hbody.cut]
    have hsplit : '"'.toUInt8 :: (body ++ '"'.toUInt8 :: more) =
        ('"'.toUInt8 :: body ++ ['"'.toUInt8]) ++ more := by simp
    rw [hsplit] at h
    refine h.of_append (.inl fun c hc => ?_)
    rw [List.getLast?_concat] at hc
    obtain rfl : '"'.toUInt8 = c := by simpa using hc
    rfl
  · rw [hbody.cut_unclosed htail]
    exact nameless_nil

/-- A word is a whole run here: it begins with no digit, and no digit stands before it. -/
theorem Text.Nameless.word (h : Nameless value (b :: t)) (hstart : isWordStart b = true) :
    value (b :: t.takeWhile isWordByte) = none ∧ Nameless value (t.dropWhile isWordByte) := by
  obtain ⟨hsplit, hword, hstop⟩ := first_run_split (isWordByte_of_start hstart) t
  rw [hsplit] at h
  have hname := h _ (hasRun_first (List.cons_ne_nil _ _) hword hstop)
  have hdigit : isDigitByte b = false := by
    rw [← Bool.not_eq_true]
    intro hdigit
    rw [(digit_class hdigit).2] at hstart
    cases hstart
  rw [List.dropWhile_cons_of_neg (by simp [hdigit])] at hname
  exact ⟨hname, h.of_append (.inr hstop)⟩

theorem Text.Nameless.behind_byte (h : Nameless value (b :: t)) (hstart : ¬isWordStart b = true) :
    Nameless value t := by
  by_cases hword : isWordByte b = true
  · refine h.of_digit ?_
    rw [← Bool.not_eq_false]
    intro hdigit
    exact hstart (isWordStart_of_not_digit hword hdigit)
  · exact h.of_cons (by simpa using hword)

/-- A front of such a text is written as it stands, and what follows is such a text. -/
theorem Text.Nameless.front {rest after : Text} {f : Front} (h : Nameless value (b :: rest))
    (hcut : Front.cut b rest = (f, after)) : f.written value = f.bytes ∧ Nameless value after := by
  unfold Front.cut at hcut
  split at hcut
  · next hquote =>
    subst hquote
    cases hcut
    exact ⟨rfl, h.behind_literal⟩
  · split at hcut
    · next hstart =>
      cases hcut
      obtain ⟨hname, hafter⟩ := h.word hstart
      exact ⟨by rw [Front.written, hname]; rfl, hafter⟩
    · next hstart =>
      cases hcut
      exact ⟨rfl, h.behind_byte hstart⟩

/-! ### Lines -/

theorem Text.cutAfter?_eq_some {mark inside after : Text}
    (h : cutAfter? mark t = some (inside, after)) :
    t = inside ++ after ∧ ∃ before, inside = before ++ mark := by
  fun_induction cutAfter? mark t generalizing inside with
  | case1 => cases h
  | case2 b rest after' hafter =>
    cases h
    exact ⟨after?_eq_some_iff.mp hafter, [], rfl⟩
  | case3 b rest _ ih =>
    obtain ⟨⟨inside', after'⟩, hcut, heq⟩ := Option.map_eq_some_iff.mp h
    cases heq
    obtain ⟨rfl, before, rfl⟩ := ih hcut
    exact ⟨rfl, b :: before, rfl⟩

namespace Region

variable {region : Region} {mark : Text}

theorem closing?_last (h : region.closing? = some mark) : ∀ b ∈ mark.getLast?, isWordByte b = false := by
  intro b hb
  cases region with
  | code => cases h
  | asmWord => cases h
  | comment =>
    cases h
    obtain rfl : '/'.toUInt8 = b := Option.some.inj hb
    rfl
  | asmBody =>
    cases h
    obtain rfl : '\x7d'.toUInt8 = b := Option.some.inj hb
    rfl

/-- Texts without names that are shorter than the given length are written as they stand. -/
def KeptBelow (value : Text → Option Text) (n : Nat) : Prop :=
  ∀ t : Text, t.length < n → t.Nameless value → ∀ region, (written value region [] t).1 = t

namespace KeptBelow

variable {rest : Text}

theorem blockComment {more : Text} (hshort : KeptBelow value (rest.length + 1))
    (h : Text.Nameless value (b :: rest)) (hblock : ("/*" : Text) ++ more = b :: rest) :
    (written value .code [] (b :: rest)).1 = b :: rest := by
  have hlength := congrArg List.length hblock
  rw [List.length_append, show List.length ("/*" : Text) = 2 from rfl, List.length_cons] at hlength
  have hmore : Text.Nameless value more := by
    rw [← hblock] at h
    refine h.of_append (.inl fun c hc => ?_)
    obtain rfl : '*'.toUInt8 = c := Option.some.inj hc
    rfl
  have hclosing : closing? .comment = some ("*/" : Text) := rfl
  rw [← hblock, written_blockComment, Text.replaceWords_nil, behind_nil, written_held hclosing, behind,
    hshort more (by omega) hmore .comment]

theorem code (hshort : KeptBelow value (rest.length + 1)) (h : Text.Nameless value (b :: rest)) :
    (written value .code [] (b :: rest)).1 = b :: rest := by
  by_cases hcomment : StartsComment (b :: rest)
  · rcases hcomment with hline | ⟨more, hblock⟩
    · rw [written_lineComment hline, Text.replaceWords_nil]
      rfl
    · exact hshort.blockComment h hblock
  · cases hcut : Front.cut b rest with
    | mk f after =>
      have hlength := Front.cut_le hcut
      obtain ⟨hwritten, hafter⟩ := h.front hcut
      rw [written_code_front hcomment hcut, hwritten, behind, hshort after (by omega) hafter,
        Front.cut_split hcut]

theorem enclosed (hshort : KeptBelow value (rest.length + 1)) (h : Text.Nameless value (b :: rest))
    (hmark : region.closing? = some mark) : (written value region [] (b :: rest)).1 = b :: rest := by
  rw [written_enclosed hmark]
  split
  · rfl
  · next inside after hcut =>
    have hlength := Text.cutAfter?_length (closing?_class hmark).2 hcut
    rw [List.length_cons] at hlength
    obtain ⟨hsplit, before, rfl⟩ := Text.cutAfter?_eq_some hcut
    rw [hsplit] at h
    have hafter : Text.Nameless value after := by
      refine h.of_append (.inl fun c hc => closing?_last hmark c ?_)
      obtain ⟨d, hd⟩ := Option.isSome_iff_exists.mp (List.getLast?_isSome.mpr (closing?_class hmark).2)
      rw [List.getLast?_append, hd] at hc
      rwa [hd]
    rw [behind, hshort after hlength hafter .code, hsplit]
    rfl

theorem asmWord (hshort : KeptBelow value (rest.length + 1)) (h : Text.Nameless value (b :: rest)) :
    (written value .asmWord [] (b :: rest)).1 = b :: rest := by
  by_cases hgap : isAsmGap b = true
  · have hrest : Text.Nameless value rest := by
      refine h.of_cons ?_
      simp only [isAsmGap, Bool.or_eq_true, beq_iff_eq] at hgap
      rcases hgap with (rfl | rfl) | rfl <;> rfl
    rw [written_gap hgap, written_asmWord_held (by simpa using hgap), behind,
      hshort rest (Nat.lt_succ_self _) hrest .asmWord]
    rfl
  · by_cases hbrace : b = '\x7b'.toUInt8
    · subst hbrace
      rw [written_brace, behind, hshort rest (Nat.lt_succ_self _) (h.of_cons rfl) .asmBody]
      rfl
    · rw [written_noBrace (by simpa using hgap) hbrace, hshort.code h]

end KeptBelow

/-- A line without names is written as it stands, whatever it begins in the middle of. -/
theorem written_nameless (h : line.Nameless value) (region : Region) :
    (written value region [] line).1 = line := by
  -- A literal, a word or a comment is passed in one step, so the induction is on the length.
  generalize hn : line.length = n
  induction n using Nat.strongRecOn generalizing line region with
  | ind n ih =>
    cases line with
    | nil => rw [written_empty]
    | cons b rest =>
      have hshort : KeptBelow value (rest.length + 1) := by
        intro t ht hnameless region
        exact ih t.length (hn ▸ ht) hnameless region rfl
      cases region with
      | code => exact hshort.code h
      | comment => exact hshort.enclosed h rfl
      | asmBody => exact hshort.enclosed h rfl
      | asmWord => exact hshort.asmWord h

theorem writtenLines_nameless {lines : List Text} (h : ∀ line ∈ lines, Text.Nameless value line)
    (region : Region) : writtenLines value region lines = Text.join "\n" lines := by
  induction lines generalizing region with
  | nil => rfl
  | cons line more ih =>
    obtain ⟨hline, hmore⟩ := List.forall_mem_cons.mp h
    have hwritten := written_nameless hline region
    rw [writtenLines]
    generalize written value region [] line = out at hwritten
    obtain ⟨text, after⟩ := out
    obtain rfl : text = line := hwritten
    dsimp only
    cases more with
    | nil => simp [Text.join, List.intercalate]
    | cons next more => rw [ih hmore, Text.join, Text.join, List.intercalate_cons_cons, if_neg (by simp)]

end Region

/-! ### Whole sources -/

theorem Text.join_lines (t : Text) : join "\n" t.lines = t := by
  induction t with
  | nil => rfl
  | cons b t ih =>
    obtain ⟨line, more, hlines, -⟩ := lines_eq_cons t
    rw [hlines] at ih
    by_cases hb : b = newline
    · rw [hb, lines_newline, hlines, join, List.intercalate_cons_cons, ← join, ih]
      rfl
    · rw [lines_cons hb hlines]
      cases more with
      | nil => simpa [join, List.intercalate] using ih
      | cons next more =>
        rw [join, List.intercalate_cons_cons] at ih ⊢
        rw [← ih]
        rfl

theorem Text.join_split {lines : List Text} (h : line ∈ lines) :
    ∃ before after, join "\n" lines = before ++ line ++ after ∧
      (∀ b ∈ before.getLast?, b = newline) ∧ ∀ b ∈ after.head?, b = newline := by
  induction lines with
  | nil => cases h
  | cons first more ih =>
    cases more with
    | nil =>
      obtain rfl := List.mem_singleton.mp h
      exact ⟨[], [], by simp [join, List.intercalate], by simp, by simp⟩
    | cons next more =>
      rw [join, List.intercalate_cons_cons, ← join]
      rcases List.mem_cons.mp h with rfl | h
      · refine ⟨[], "\n" ++ join "\n" (next :: more), by simp, by simp, fun b hb => ?_⟩
        exact (Option.some.inj hb).symm
      -- What stands before the line ends in a newline, be it the one of the first line.
      · obtain ⟨before, after, hsplit, hbefore, hafter⟩ := ih h
        refine ⟨first ++ "\n" ++ before, after, by rw [hsplit]; simp, fun b hb => ?_, hafter⟩
        rw [List.getLast?_append] at hb
        cases hlast : before.getLast? with
        | some c =>
          rw [hlast] at hb
          exact hbefore b (by rw [hlast]; exact hb)
        | none =>
          rw [hlast, Option.none_or, List.getLast?_append] at hb
          exact (Option.some.inj hb).symm

/-- No run goes over the end of a line. -/
theorem Text.HasRun.of_line (hline : line ∈ t.lines) (h : line.HasRun w) : t.HasRun w := by
  obtain ⟨before, after, hsplit, hbefore, hafter⟩ := join_split hline
  rw [join_lines] at hsplit
  have hbefore : ∀ b ∈ before.getLast?, isWordByte b = false := by
    intro b hb
    rw [hbefore b hb]
    rfl
  have hafter : ∀ b ∈ after.head?, isWordByte b = false := by
    intro b hb
    rw [hafter b hb]
    rfl
  obtain ⟨x, y, rfl, hrun⟩ := h
  -- The run ends within the line or together with it; behind the line comes a newline.
  have hlonger : HasRun (x ++ w ++ (y ++ after)) w := by
    refine ⟨x, y ++ after, rfl, hrun.ne_nil, hrun.word, hrun.start, fun b hb => ?_⟩
    rw [List.head?_append] at hb
    cases hhead : y.head? with
    | some c =>
      rw [hhead] at hb
      exact hrun.stop b (by rw [hhead]; exact hb)
    | none =>
      rw [hhead, Option.none_or] at hb
      exact hafter b hb
  rw [hsplit, List.append_assoc, List.append_assoc _ _ after]
  exact hlonger.behind (.inl hbefore)

theorem Directive.ofLine_plain (hdefine : Text.startsWith line.trim "#define" = false)
    (hinclude : Text.startsWith line.trim "#include" = false) : ofLine line = .plain := by
  unfold ofLine
  dsimp only
  split
  · next rest hrest => simp [Text.startsWith, hrest] at hdefine
  · rw [hinclude]
    rfl

/-- A source without directives in which no given name stands, leading digits dropped, comes out as it
is. -/
theorem preprocess_unchanged (disk : Disk) (depth : Nat) (dir : Text) (given : List (Text × Text))
    (source : Text)
    (hlines : ∀ line ∈ source.lines, Text.startsWith line.trim "#define" = false ∧
      Text.startsWith line.trim "#include" = false)
    (hnames : ∀ w, source.HasRun w → ∀ m ∈ given, m.1 ≠ w.dropWhile isDigitByte) :
    preprocess disk depth dir given source = .ok source := by
  have hnameless : ∀ line ∈ source.lines, line.Nameless fun w => given.lookup w := by
    intro line hline w hw
    rw [List.lookup_eq_none_iff]
    intro m hm
    simpa using (hnames w (hw.of_line hline) m hm).symm
  rw [preprocess_eq disk depth dir given fun line hline =>
      Directive.ofLine_plain (hlines line hline).1 (hlines line hline).2,
    Region.pass, Region.writtenLines_nameless hnameless, Text.join_lines]

/-- A source that leaves a string literal, a comment and a raw body open. -/
def openSource : Text := "1N \"N\\\n/* N\n*/ asm\n\x7b N"

theorem openSource_runs {w : Text} (hw : openSource.HasRun w) : w.dropWhile isDigitByte ≠ "M" := by
  obtain ⟨before, after, hsplit, -⟩ := hw
  intro heq
  have hword : 'M'.toUInt8 ∈ w.dropWhile isDigitByte := by
    rw [heq]
    exact List.mem_singleton.mpr rfl
  have hmem := (List.dropWhile_suffix _).subset hword
  have hsource : 'M'.toUInt8 ∈ openSource := by simp [hsplit, hmem]
  exact absurd hsource (by decide)

theorem preprocess_unchanged_open :
    (∀ line ∈ openSource.lines, Text.startsWith line.trim "#define" = false ∧
      Text.startsWith line.trim "#include" = false) ∧
    preprocess ⟨[], []⟩ 0 [] [("M", "1")] openSource = .ok openSource := by
  have hlines : ∀ line ∈ openSource.lines, Text.startsWith line.trim "#define" = false ∧
      Text.startsWith line.trim "#include" = false := by decide
  refine ⟨hlines, preprocess_unchanged ⟨[], []⟩ 0 [] [("M", "1")] openSource hlines ?_⟩
  intro w hw m hm
  obtain rfl := List.mem_singleton.mp hm
  exact (openSource_runs hw).symm

end Pocket

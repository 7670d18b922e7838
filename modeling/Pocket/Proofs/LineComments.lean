import Mathlib
import Pocket.Proofs.Commented
import Pocket.Proofs.Mentions

/-!
# Line comments

A comment put behind a line of code that ends in code is kept as it stands and skipped by the lexer: it
changes no token, whatever it holds. A comment behind a definition is not told from the body: it stands
wherever the macro is used, and hides what follows there.
-/

namespace Pocket

open Preprocess

/-! ### Lines that end in code -/

/-- Read from the middle of something, a line comes to its end in code: in no comment, string literal or
raw body, and not directly behind the word `asm`. -/
inductive EndsInCode : Region → Text → Prop where
  | stop : EndsInCode .code []
  | byte {b : UInt8} {rest : Text} (hquote : b ≠ '"'.toUInt8) (hstart : isWordStart b = false)
      (hcomment : ¬Region.StartsComment (b :: rest)) :
      EndsInCode .code rest → EndsInCode .code (b :: rest)
  | word {w rest : Text} (hw : IsWord w) (hasm : w ≠ "asm") (hstop : ∀ b ∈ rest.head?, isWordByte b = false) :
      EndsInCode .code rest → EndsInCode .code (w ++ rest)
  | asm {rest : Text} (hstop : ∀ b ∈ rest.head?, isWordByte b = false) :
      EndsInCode .asmWord rest → EndsInCode .code ("asm" ++ rest)
  | literal {body rest : Text} (hbody : LiteralBody body) :
      EndsInCode .code rest → EndsInCode .code ('"'.toUInt8 :: (body ++ '"'.toUInt8 :: rest))
  | comment {rest : Text} : EndsInCode .comment rest → EndsInCode .code ("/*" ++ rest)
  | close {region : Region} {mark t inside after : Text} (hmark : region.closing? = some mark)
      (hcut : Text.cutAfter? mark t = some (inside, after)) : EndsInCode .code after → EndsInCode region t
  | gap {b : UInt8} {rest : Text} (hb : Region.isAsmGap b = true) :
      EndsInCode .asmWord rest → EndsInCode .asmWord (b :: rest)
  | brace {rest : Text} : EndsInCode .asmBody rest → EndsInCode .asmWord ('\x7b'.toUInt8 :: rest)
  | noBrace {b : UInt8} {rest : Text} (hgap : Region.isAsmGap b = false) (hbrace : b ≠ '\x7b'.toUInt8) :
      EndsInCode .code (b :: rest) → EndsInCode .asmWord (b :: rest)

namespace Region

variable {region : Region} {held rest after mark inside t x : Text} {b : UInt8} {f : Front}

theorem segments_front (hcomment : ¬StartsComment (b :: rest)) (hcut : Front.cut b rest = (f, after)) :
    segments .code held (b :: rest) =
      if f = .word "asm" then lead (.code (held ++ f.bytes)) (segments .asmWord [] after)
      else segments .code (held ++ f.bytes) after := by
  rw [StartsComment, not_or, ← Text.startsWith_iff, ← Text.startsWith_iff] at hcomment
  rw [segments, if_neg hcomment.1, if_neg hcomment.2]
  split
  · next hcut' =>
    rw [hcut] at hcut'
    cases hcut'
    rfl
  · next hcut' =>
    rw [hcut] at hcut'
    cases hcut'
    simp only [Front.word.injEq]
    rfl

theorem segments_word {w : Text} (hw : IsWord w) (hstop : ∀ c ∈ rest.head?, isWordByte c = false) :
    segments .code held (w ++ rest) =
      if w = "asm" then lead (.code (held ++ w)) (segments .asmWord [] rest)
      else segments .code (held ++ w) rest := by
  have hbytes := hw.wordBytes
  obtain ⟨b, tail, hsplit, hcut⟩ := hw.cut hstop
  have hb : isWordByte b = true := by
    obtain ⟨c, more, rfl⟩ := List.exists_cons_of_ne_nil hw.ne_nil
    obtain ⟨rfl, -⟩ := List.cons.inj hsplit
    exact hbytes c List.mem_cons_self
  rw [hsplit, segments_front (not_startsComment (isWordByte_class hb).2.2) hcut]
  simp only [Front.word.injEq]
  rfl

theorem segments_close (hmark : region.closing? = some mark) (hcut : Text.cutAfter? mark t = some (inside, after)) :
    segments region held t = lead (.kept (held ++ inside)) (segments .code [] after) := by
  cases t with
  | nil => cases hcut
  | cons b t =>
    cases region <;> cases hmark
    all_goals
      rw [segments]
      split
      · next hcut' =>
        rw [hcut] at hcut'
        cases hcut'
      · next hcut' =>
        rw [hcut] at hcut'
        cases hcut'
        rfl

theorem segments_blockComment : segments .code held ("/*" ++ rest) =
    lead (.code held) (segments .comment "/*" rest) := by
  have hline : Text.startsWith ('/'.toUInt8 :: ('*'.toUInt8 :: rest)) "//" = false := rfl
  have hblock : Text.startsWith ('/'.toUInt8 :: ('*'.toUInt8 :: rest)) "/*" = true :=
    Text.startsWith_iff.mpr ⟨rest, rfl⟩
  change segments .code held ('/'.toUInt8 :: '*'.toUInt8 :: rest) = _
  rw [segments, if_neg (by simp [hline]), if_pos hblock]
  rfl

theorem segments_lineComment (h : ("//" : Text) <+: t) :
    segments .code held t = ([.code held, .kept t], .code) := by
  cases t with
  | nil => cases List.prefix_nil.mp h
  | cons b t => rw [segments, if_pos (Text.startsWith_iff.mpr h)]

theorem not_startsComment_append (h : ¬StartsComment (b :: rest)) (hx : ∀ c ∈ x.head?, c = ' '.toUInt8) :
    ¬StartsComment (b :: (rest ++ x)) := by
  cases rest with
  | nil =>
    cases x with
    | nil => exact h
    | cons c x =>
      obtain rfl := hx c rfl
      rintro (⟨more, hmore⟩ | ⟨more, hmore⟩)
      all_goals exact absurd (List.cons.inj (List.cons.inj hmore).2).1 (by decide)
  | cons c rest =>
    rintro (⟨more, hmore⟩ | ⟨more, hmore⟩)
    · obtain ⟨hb, hmore⟩ := List.cons.inj hmore
      exact h (.inl ⟨rest, by rw [← hb, ← (List.cons.inj hmore).1]; rfl⟩)
    · obtain ⟨hb, hmore⟩ := List.cons.inj hmore
      exact h (.inr ⟨rest, by rw [← hb, ← (List.cons.inj hmore).1]; rfl⟩)

end Region

theorem Text.cutAfter?_append {mark t inside after : Text} (h : cutAfter? mark t = some (inside, after))
    (x : Text) : cutAfter? mark (t ++ x) = some (inside, after ++ x) := by
  fun_induction cutAfter? mark t generalizing inside with
  | case1 => cases h
  | case2 b rest after' hafter =>
    cases h
    have hafter' : after? mark (b :: (rest ++ x)) = some (after ++ x) := by
      rw [← List.cons_append, after?_eq_some_iff.mp hafter, List.append_assoc]
      exact after?_eq_some_iff.mpr rfl
    rw [List.cons_append, cutAfter?, hafter']
  | case3 b rest hafter ih =>
    obtain ⟨⟨inside', after'⟩, hcut, heq⟩ := Option.map_eq_some_iff.mp h
    cases heq
    obtain ⟨rfl, before, rfl⟩ := cutAfter?_eq_some hcut
    have hlater : ¬mark <+: b :: (before ++ mark ++ after ++ x) := by
      -- The mark that was found lies behind, so that one here would lie in the text as well.
      intro hmark
      have hwithin : mark <+: b :: (before ++ mark ++ after) :=
        List.prefix_of_prefix_length_le hmark (List.prefix_append (b :: (before ++ mark ++ after)) x)
          (by simp; omega)
      obtain ⟨more, hmore⟩ := hwithin
      rw [after?_eq_some_iff.mpr hmore.symm] at hafter
      cases hafter
    rw [List.cons_append, cutAfter?_later hlater, ih hcut]
    rfl

/-- A line is cut into segments of which the last one is code, and a comment behind it is one more. -/
def Region.SplitsOff (region : Region) (held line : Text) : Prop :=
  ∃ segs code, region.segments held line = (segs ++ [.code code], .code) ∧
    ∀ comment : Text, ("//" : Text) <+: comment →
      region.segments held (line ++ ' '.toUInt8 :: comment) =
        (segs ++ [.code (code ++ " "), .kept comment], .code)

namespace Region.SplitsOff

variable {region region' : Region} {held held' line line' : Text}

theorem of_eq (h : region'.SplitsOff held' line')
    (heq : ∀ x : Text, (∀ c ∈ x.head?, c = ' '.toUInt8) →
      region.segments held (line ++ x) = region'.segments held' (line' ++ x)) : region.SplitsOff held line := by
  obtain ⟨segs, code, hline, hcommented⟩ := h
  refine ⟨segs, code, ?_, fun comment hcomment => ?_⟩
  · simpa [hline] using heq [] (by simp)
  · rw [heq _ (by simp), hcommented comment hcomment]

theorem of_lead {s : Segment} (h : region'.SplitsOff held' line')
    (heq : ∀ x : Text, (∀ c ∈ x.head?, c = ' '.toUInt8) →
      region.segments held (line ++ x) = lead s (region'.segments held' (line' ++ x))) :
    region.SplitsOff held line := by
  obtain ⟨segs, code, hline, hcommented⟩ := h
  refine ⟨s :: segs, code, ?_, fun comment hcomment => ?_⟩
  · simpa [hline, lead] using heq [] (by simp)
  · rw [heq _ (by simp), hcommented comment hcomment]
    rfl

end Region.SplitsOff

theorem wordStops_append {rest x : Text} (hrest : ∀ c ∈ rest.head?, isWordByte c = false)
    (hx : ∀ c ∈ x.head?, c = ' '.toUInt8) : ∀ c ∈ (rest ++ x).head?, isWordByte c = false := by
  cases rest with
  | nil =>
    intro c hc
    rw [hx c hc]
    rfl
  | cons b rest => exact hrest

theorem EndsInCode.splitsOff {region : Region} {line : Text} (h : EndsInCode region line) (held : Text) :
    region.SplitsOff held line := by
  induction h generalizing held with
  | stop =>
    -- The blank before the two slashes is held as code, and they end the line.
    refine ⟨[], held, by rw [Region.segments]; rfl, fun comment hcomment => ?_⟩
    have hblank : ¬Region.StartsComment (' '.toUInt8 :: comment) := Region.not_startsComment (by decide)
    rw [List.nil_append, Region.segments_front hblank (Front.cut_byte (by decide) (by decide)),
      if_neg (by simp), Region.segments_lineComment hcomment]
    rfl
  | @byte b rest hquote hstart hcomment _ ih =>
    refine (ih (held ++ [b])).of_eq fun x hx => ?_
    rw [List.cons_append, Region.segments_front (Region.not_startsComment_append hcomment hx)
      (Front.cut_byte hquote hstart), if_neg (by simp)]
    rfl
  | @word w rest hw hasm hstop _ ih =>
    refine (ih (held ++ w)).of_eq fun x hx => ?_
    rw [List.append_assoc, Region.segments_word hw (wordStops_append hstop hx), if_neg hasm]
  -- The word is cut off with what is held, because a raw body may follow it.
  | asm hstop _ ih =>
    refine (ih []).of_lead (s := .code (held ++ "asm")) fun x hx => ?_
    have hw : IsWord "asm" := ⟨_, _, rfl, rfl, List.all_eq_true.mp rfl⟩
    rw [List.append_assoc, Region.segments_word hw (wordStops_append hstop hx), if_pos rfl]
  | @literal body rest hbody _ ih =>
    refine (ih (held ++ ('"'.toUInt8 :: (body ++ ['"'.toUInt8])))).of_eq fun x _ => ?_
    have hcut : Front.cut '"'.toUInt8 (body ++ '"'.toUInt8 :: (rest ++ x)) =
        (.plain ('"'.toUInt8 :: (body ++ ['"'.toUInt8])), rest ++ x) := by
      rw [Front.cut, if_pos rfl, hbody.cut]
    simp only [List.cons_append, List.append_assoc]
    rw [Region.segments_front (Region.not_startsComment (by decide)) hcut, if_neg (by simp)]
    rfl
  | comment _ ih =>
    refine (ih "/*").of_lead (s := .code held) fun x _ => ?_
    rw [List.append_assoc, Region.segments_blockComment]
  | @close region mark t inside after hmark hcut _ ih =>
    refine (ih []).of_lead (s := .kept (held ++ inside)) fun x _ => ?_
    exact Region.segments_close hmark (Text.cutAfter?_append hcut x)
  | @gap b rest hb _ ih =>
    refine (ih (held ++ [b])).of_eq fun x _ => ?_
    rw [List.cons_append, Region.segments, if_pos hb]
  | brace _ ih =>
    refine (ih []).of_lead (s := .kept (held ++ ['\x7b'.toUInt8])) fun x _ => ?_
    rw [List.cons_append, Region.segments, if_neg (by decide), if_pos rfl]
  | noBrace hgap hbrace _ ih =>
    refine (ih held).of_eq fun x _ => ?_
    rw [List.cons_append, Region.segments, if_neg (by simp [hgap]), if_neg hbrace]

/-! ### Code with a blank behind it -/

section Blank

variable {ms : Macros} {depth nested : Nat} {t rest after w current : Text} {b : UInt8} {f : Front} {m : Macro}

theorem Front.cut_blank (h : Front.cut b rest = (f, after)) :
    Front.cut b (rest ++ [' '.toUInt8]) = (f, after ++ [' '.toUInt8]) ∨
      f = .plain (b :: rest) ∧ after = [] ∧
        Front.cut b (rest ++ [' '.toUInt8]) = (.plain (b :: (rest ++ [' '.toUInt8])), []) := by
  by_cases hquote : b = '"'.toUInt8
  · rw [Front.cut, if_pos hquote] at h ⊢
    obtain ⟨body, hbody, ⟨more, rfl⟩ | ⟨tail, htail, rfl⟩⟩ := literalBody_cases rest
    · rw [hbody.cut] at h
      cases h
      refine .inl ?_
      rw [List.append_assoc, List.cons_append, hbody.cut]
    · -- A literal that is not closed goes on to the end.
      have hquoteless : ∀ c ∈ tail ++ [' '.toUInt8], c ≠ '"'.toUInt8 := by
        rcases htail with rfl | rfl <;> simp <;> decide
      obtain ⟨body', tail', hbody', htail', heq⟩ := hbody.exists_unclosed hquoteless
      rw [hbody.cut_unclosed htail] at h
      cases h
      refine .inr ⟨rfl, rfl, ?_⟩
      rw [List.append_assoc, heq, hbody'.cut_unclosed htail']
  · by_cases hstart : isWordStart b = true
    · rw [Front.cut_run hstart] at h
      cases h
      -- The blank ends a run of word bytes, so the run is the same as without it.
      have hsplit : rest ++ [' '.toUInt8] =
          rest.takeWhile isWordByte ++ (rest.dropWhile isWordByte ++ [' '.toUInt8]) := by
        rw [← List.append_assoc, List.takeWhile_append_dropWhile]
      have hstop := (Text.first_run_split (isWordByte_of_start hstart) rest).2.2
      refine .inl ?_
      rw [hsplit, Front.cut_word hstart (List.all_eq_true.mp List.all_takeWhile)
        (wordStops_append hstop (by simp))]
    · rw [Front.cut_byte hquote (by simpa using hstart)] at h ⊢
      cases h
      exact .inl rfl

theorem Front.cut_word_blank (h : Front.cut b rest = (.word w, after)) :
    Front.cut b (rest ++ [' '.toUInt8]) = (.word w, after ++ [' '.toUInt8]) := by
  rcases Front.cut_blank h with hcut | ⟨hplain, -⟩
  · exact hcut
  · cases hplain

theorem Macro.takeArguments_blank (nested : Nat) (current t : Text) :
    takeArguments nested current (t ++ [' '.toUInt8]) =
      (takeArguments nested current t).map fun r => (r.1, r.2 ++ [' '.toUInt8]) := by
  fun_induction takeArguments nested current t with
  | case1 nested current =>
    rw [List.nil_append, takeArguments_byte (by decide) (by decide) (.inl (by decide)), takeArguments]
    rfl
  | case2 nested current rest ih => rw [List.cons_append, takeArguments_open, ih]
  | case3 current rest =>
    rw [List.cons_append, takeArguments_close]
    rfl
  | case4 current rest _ n ih => rw [List.cons_append, takeArguments_close_nested, ih]
  | case5 nested current b rest hopen hclose hcomma ih =>
    obtain ⟨rfl, rfl⟩ : b = ','.toUInt8 ∧ nested = 0 := by simpa using hcomma
    rw [List.cons_append, takeArguments_comma, ih]
    simp [Option.map_map, Function.comp_def]
  | case6 nested current b rest hopen hclose hcomma ih =>
    rw [List.cons_append, takeArguments_byte hopen hclose (not_and_or.mp (by simpa using hcomma)), ih]

theorem Macro.arguments?_blank (t : Text) : arguments? (t ++ [' '.toUInt8]) =
    (arguments? t).map fun r => (r.1, r.2 ++ [' '.toUInt8]) := by
  rw [arguments?, arguments?, List.dropWhile_append]
  cases hdrop : t.dropWhile fun b => b == ' '.toUInt8 || b == '\t'.toUInt8 with
  | nil => rfl
  | cons b rest =>
    rw [if_neg (by simp)]
    dsimp only [List.cons_append]
    split
    · exact takeArguments_blank 0 [] rest
    · rfl

theorem Macro.call?_blank (m : Macro) (t : Text) : m.call? (t ++ [' '.toUInt8]) =
    (m.call? t).map fun r => (r.1, r.2 ++ [' '.toUInt8]) := by
  rw [call?, call?, arguments?_blank]
  cases arguments? t with
  | none => rfl
  | some r =>
    obtain ⟨args, after⟩ := r
    simp only [Option.map_some, Option.filter_some]
    split <;> rfl

/-- A blank behind code stays there. -/
theorem Macros.expand_blank (ms : Macros) (depth : Nat) (t : Text) :
    ms.expand depth (t ++ [' '.toUInt8]) = (ms.expand depth t).map (· ++ [' '.toUInt8]) := by
  fun_induction ms.expand depth t with
  | case1 depth =>
    rw [List.nil_append, expand_plain (Front.cut_byte (by decide) (by decide)), expand]
    rfl
  | case2 depth b rest t after hcut ih =>
    -- Only a literal that is not closed takes the blank along.
    rcases Front.cut_blank hcut with hcut' | ⟨hplain, rfl, hcut'⟩
    · rw [List.cons_append, expand_plain hcut', ih]
      simp [Option.map_map, Function.comp_def]
    · cases hplain
      rw [List.cons_append, expand_plain hcut', expand]
      simp
  | case3 depth b rest w after hcut hw ih =>
    rw [List.cons_append, expand_word (Front.cut_word_blank hcut), hw]
    dsimp only
    rw [ih]
    simp [Option.map_map, Function.comp_def]
  | case4 depth b rest w after hcut m hm hparams ih =>
    rw [List.cons_append, expand_word (Front.cut_word_blank hcut), hm]
    dsimp only
    rw [if_pos hparams, ih]
    simp [Option.map_map, Function.comp_def]
  -- The blank comes behind everything that the search for arguments looks at.
  | case5 depth b rest w after hcut m hm hparams hcall ih =>
    rw [List.cons_append, expand_word (Front.cut_word_blank hcut), hm]
    dsimp only
    rw [if_neg hparams, Macro.call?_blank, hcall]
    dsimp only [Option.map_none]
    rw [ih]
    simp [Option.map_map, Function.comp_def]
  | case6 b rest w after hcut m hm hparams args beyond hcall =>
    rw [List.cons_append, expand_word (Front.cut_word_blank hcut), hm]
    dsimp only
    rw [if_neg hparams, Macro.call?_blank, hcall]
    rfl
  | case7 b rest w after hcut m hm hparams args beyond hcall depth ihinner ih =>
    rw [List.cons_append, expand_word (Front.cut_word_blank hcut), hm]
    dsimp only
    rw [if_neg hparams, Macro.call?_blank, hcall]
    dsimp only [Option.map_some]
    rw [ih]
    cases ms.expand depth (m.instantiate args) <;> cases ms.expand (depth + 1) beyond <;> simp

end Blank

theorem Segment.expandAll_append (ms : Macros) (depth : Nat) (first second : List Segment) :
    expandAll ms depth (first ++ second) =
      (expandAll ms depth first).bind fun t => (expandAll ms depth second).map (t ++ ·) := by
  induction first with
  | nil => simp [expandAll, Function.comp_def]
  | cons segment first ih =>
    rw [List.cons_append, expandAll_cons, expandAll_cons, ih]
    cases segment.expand ms depth with
    | none => rfl
    | some t =>
      cases expandAll ms depth first with
      | none => rfl
      | some u => simp [Option.map_map, Function.comp_def]

theorem Segment.expandAll_commented {ms : Macros} {depth : Nat} {segs : List Segment} {code text : Text}
    (h : expandAll ms depth (segs ++ [.code code]) = some text) (comment : Text) :
    expandAll ms depth (segs ++ [.code (code ++ " "), .kept comment]) = some (text ++ " " ++ comment) := by
  rw [expandAll_append] at h ⊢
  obtain ⟨front, hfront, h⟩ := Option.bind_eq_some_iff.mp h
  obtain ⟨last, hlast, rfl⟩ := Option.map_eq_some_iff.mp h
  rw [expandAll_cons] at hlast
  obtain ⟨t, ht, hlast⟩ := Option.bind_eq_some_iff.mp hlast
  cases hlast
  have hblank : expand ms depth (.code (code ++ " ")) = some (t ++ " ") := by
    change ms.expand depth code = some t at ht
    change ms.expand depth (code ++ [' '.toUInt8]) = some (t ++ [' '.toUInt8])
    rw [Macros.expand_blank, ht]
    rfl
  rw [hfront, expandAll_cons, hblank]
  have hkept : expandAll ms depth [.kept comment] = some comment := by
    rw [expandAll_cons]
    exact congrArg some (List.append_nil comment)
  rw [hkept]
  simp

/-! ### Lines with a comment -/

namespace Preprocess

variable {disk : Disk} {depth : Nat} {dir : Text} {reading : List Place} {s : State} {line text out : Text}
  {front back : List Text}

/-- A comment behind a line of code is written behind what the line is written as. -/
theorem action_commented (hrole : s.role line = .plain) (hend : EndsInCode s.region line) {t : State}
    (h : action disk depth dir reading s line = .write text t) (comment : Text) :
    action disk depth dir reading s (line ++ " // " ++ comment) = .write (text ++ " // " ++ comment) t := by
  have hrole' : s.role (line ++ " // " ++ comment) = .plain := roleIn_commented hrole comment
  obtain ⟨segs, code, hcut, hcommented⟩ := hend.splitsOff []
  have hcut' : s.region.cutLine (line ++ " // " ++ comment) =
      (segs ++ [.code (code ++ " "), .kept ("// " ++ comment)], .code) := by
    have hslashes : ("//" : Text) <+: "// " ++ comment := ⟨' '.toUInt8 :: comment, rfl⟩
    rw [← hcommented _ hslashes, List.append_assoc]
    rfl
  rw [action, hrole, Region.cutLine, hcut] at h
  rw [action, hrole', hcut']
  dsimp only at h ⊢
  cases hexpand : Segment.expandAll s.macros depth (segs ++ [.code code]) with
  | none =>
    rw [hexpand] at h
    cases h
  | some t =>
    rw [hexpand] at h
    cases h
    rw [Segment.expandAll_commented hexpand]
    dsimp only [withinDepth]
    rw [List.append_assoc, List.append_assoc]
    rfl

/-- A file with a comment behind one of its lines of code: what is written up to the line, what is written
behind it, and the same with the comment in between. -/
theorem preprocess_commented {given : List (Text × Text)} {source source' : Text}
    (hsource : source.lines = front ++ line :: back)
    (hsource' : source'.lines = front ++ (line ++ " // " ++ text) :: back)
    (hout : preprocess disk depth dir given source = .ok out)
    (hrole : roleIn (leftOpen .code front) line = .plain) (hend : EndsInCode (leftOpen .code front) line) :
    ∃ before after, preprocess disk depth dir given (Text.join "\n" (front ++ [line])) = .ok before ∧
      out = before ++ after ∧ (∀ b ∈ after.head?, b = newline) ∧
      preprocess disk depth dir given source' = .ok (before ++ " // " ++ text ++ after) := by
  -- The lines up to the comment are a text of their own, to which nothing is written behind.
  have hjoined : (Text.join "\n" (front ++ [line])).lines = front ++ [line] := by
    refine Text.split_join (by simp) fun l hl => ?_
    have hmem : l ∈ source.lines := by
      rw [hsource]
      simp only [List.mem_append, List.mem_cons, List.not_mem_nil, or_false] at hl ⊢
      rcases hl with hl | hl
      · exact .inl hl
      · exact .inr (.inl hl)
    exact oneLine_of_mem_lines hmem
  obtain ⟨passed, more, s, u, h, hrun, rfl⟩ := exists_passes hsource (List.cons_ne_nil _ _) hout
  have hregion : s.region = leftOpen .code front := h.region
  rw [← hregion] at hrole hend
  rw [h.preprocess_eq hjoined (List.cons_ne_nil _ _), h.preprocess_eq hsource' (List.cons_ne_nil _ _),
    run_cons, run_cons, replaceLine_eq, replaceLine_eq]
  rw [run_cons, replaceLine_eq] at hrun
  -- A line of code is written or fails; it does not enter a file.
  cases haction : action disk depth dir [] s line with
  | fail e =>
    rw [haction] at hrun
    cases hrun
  | enter file path content =>
    obtain ⟨-, ⟨d, hinclusion⟩, -⟩ := action_enter haction
    rw [State.role, hrole] at hinclusion
    cases hinclusion
  | write written t =>
    rw [haction] at hrun
    rw [action_commented hrole hend haction]
    dsimp only at hrun ⊢
    cases hback : forget (run disk depth dir [] (1 + front.length + 1) t back) with
    | error e =>
      rw [hback] at hrun
      cases hrun
    | ok rest =>
      rw [hback] at hrun
      cases hrun
      refine ⟨passed ++ written, if back.isEmpty then [] else "\n" ++ rest.1, ?_, ?_, ?_, ?_⟩
      · rw [run]
        rfl
      · split <;> simp
      · split
        · simp
        · intro b hb
          exact (Option.some.inj hb).symm
      · change Except.ok (passed ++ if back.isEmpty then _ else _) = _
        split <;> simp

theorem unaware_seed (given : List (Text × Text)) (name : Text) :
    State.AlikeBut name ⟨seed given, [], .code⟩ ⟨seed given, [], .code⟩ := by
  refine ⟨⟨fun _ _ _ => rfl, fun w m _ _ hm hparams => absurd ?_ hparams⟩, rfl, rfl⟩
  rw [lookup_seed] at hm
  obtain ⟨v, -, rfl⟩ := Option.map_eq_some_iff.mp hm
  rfl

/-- A comment behind the definition of a macro that no other line mentions changes nothing, or the macro
has no parameters and its body with the comment expands too deep. -/
theorem preprocess_definition_commented {given : List (Text × Text)} {source source' d name : Text} {m : Macro}
    (hsource : source.lines = front ++ line :: back)
    (hsource' : source'.lines = front ++ (line ++ " // " ++ text) :: back)
    (hout : preprocess disk depth dir given source = .ok out)
    (hrole : roleIn (leftOpen .code front) line = .definition d)
    (hread : Directive.readDefinition d = .ok (name, m)) (hothers : ∀ l ∈ front ++ back, Unaware name l) :
    preprocess disk depth dir given source' = .ok out ∨ m.params = [] ∧
      preprocess disk depth dir given source' = .error (.onLine (front.length + 1) (.tooDeep depth)) := by
  obtain ⟨passed, more, s, u, h, hrun, rfl⟩ := exists_passes hsource (List.cons_ne_nil _ _) hout
  have hregion : s.region = leftOpen .code front := h.region
  rw [← hregion] at hrole
  obtain ⟨hcode, hline⟩ := code_of_role (s := s) hrole (by simp)
  -- Up to the definition nobody knows the name, so a second run would be in the same state.
  have hkept := kept_alikeBut disk depth name
  have hs : State.AlikeBut name s s :=
    h.kept hkept (unaware_seed given name) fun l hl => hothers l (List.mem_append_left _ hl)
  obtain ⟨d', name', m', hline', hread', hword, hparams, -⟩ :=
    Directive.readDefinition_commented hline hread text
  have hrole' : s.role (line ++ " // " ++ text) = .definition d' := by
    rw [State.role, roleIn, if_pos hcode, hline']
  rw [h.preprocess_eq hsource' (List.cons_ne_nil _ _), run_cons, replaceLine_eq, action, hrole']
  rw [run_cons, replaceLine_eq, action, State.role, hrole] at hrun
  dsimp only at hrun ⊢
  rcases Directive.macrosAfter_of_read hread s.macros depth with ⟨body, hmacros⟩ | ⟨-, hdeep⟩
  · rcases Directive.macrosAfter_of_read hread' s.macros depth with ⟨body', hmacros'⟩ | ⟨hnil, hdeep⟩
    · refine .inl ?_
      rw [hmacros] at hrun
      rw [hmacros']
      dsimp only at hrun ⊢
      -- Behind it the two states differ in this one macro only, which no further line asks for.
      have halike : Outcome.Alike (State.AlikeBut name)
          (Outcome.behind [] back (forget (run disk depth dir [] (1 + front.length + 1)
            { s with macros := s.macros.define name ⟨m.params, body⟩ } back)))
          (Outcome.behind [] back (forget (run disk depth dir [] (1 + front.length + 1)
            { s with macros := s.macros.define name' ⟨m'.params, body'⟩ } back))) := by
        refine (hkept.outcome ?_ fun l hl => hothers l (List.mem_append_right _ hl)).behind [] back
        exact ⟨hs.macros.redefine (fun _ => rfl) hword _ _, rfl, rfl⟩
      rw [hrun] at halike
      generalize Outcome.behind [] back (forget (run disk depth dir [] (1 + front.length + 1)
        { s with macros := s.macros.define name' ⟨m'.params, body'⟩ } back)) = r at halike ⊢
      cases halike with
      | ok _ _ => rfl
    · refine .inr ⟨hparams.symm.trans hnil, ?_⟩
      rw [hdeep, Nat.add_comm]
      rfl
  · rw [hdeep] at hrun
    cases hrun

/-- The definition on a line of a file that comes to a text can be read. -/
theorem read_of_preprocess {given : List (Text × Text)} {source d : Text}
    (hsource : source.lines = front ++ line :: back)
    (hout : preprocess disk depth dir given source = .ok out)
    (hrole : roleIn (leftOpen .code front) line = .definition d) :
    ∃ name m, Directive.readDefinition d = .ok (name, m) := by
  obtain ⟨passed, more, s, u, h, hrun, rfl⟩ := exists_passes hsource (List.cons_ne_nil _ _) hout
  have hregion : s.region = leftOpen .code front := h.region
  rw [← hregion] at hrole
  rw [run_cons, replaceLine_eq, action, State.role, hrole] at hrun
  dsimp only at hrun
  cases hread : Directive.readDefinition d with
  | error e =>
    have hfail : Directive.macrosAfter s.macros depth d = .error e := by
      rw [Directive.macrosAfter, hread]
      rfl
    rw [hfail] at hrun
    cases hrun
  | ok found => exact ⟨found.1, found.2, rfl⟩

end Preprocess

/-- What a comment behind a line changes. Behind a line of code that ends in code it is written behind what
the line is written as, and the lexer skips it there if the text up to there leaves nothing open. Behind a
definition it is part of the body; if no other line mentions the macro it changes nothing, or the body
expands too deep. -/
theorem comment_behind_line {disk : Disk} {depth : Nat} {dir : Text} {given : List (Text × Text)}
    {source source' out line text : Text} {front back : List Text}
    (hsource : source.lines = front ++ line :: back)
    (hsource' : source'.lines = front ++ (line ++ " // " ++ text) :: back)
    (hout : preprocess disk depth dir given source = .ok out) :
    (roleIn (leftOpen .code front) line = .plain → EndsInCode (leftOpen .code front) line →
      ∃ before after, preprocess disk depth dir given (Text.join "\n" (front ++ [line])) = .ok before ∧
        out = before ++ after ∧
        preprocess disk depth dir given source' = .ok (before ++ " // " ++ text ++ after) ∧
        ((Lexer.ofText before).Settled →
          wordsRead (before ++ " // " ++ text ++ after).tokens = wordsRead out.tokens)) ∧
    ∀ d, roleIn (leftOpen .code front) line = .definition d →
      ∃ name m d', Directive.readDefinition d = .ok (name, m) ∧
        Directive.ofLine (line ++ " // " ++ text) = .definition d' ∧
        (¬line.EndsBlank →
          Directive.readDefinition d' = .ok (name, ⟨m.params, (m.body ++ " // " ++ text).trim⟩)) ∧
        ((∀ l ∈ front ++ back, Unaware name l) →
          preprocess disk depth dir given source' = .ok out ∨ m.params = [] ∧
            preprocess disk depth dir given source' =
              .error (.onLine (front.length + 1) (.tooDeep depth))) := by
  have htext : text.OneLine := by
    have hmem : line ++ " // " ++ text ∈ source'.lines := by simp [hsource']
    exact (Text.oneLine_append.mp (oneLine_of_mem_lines hmem)).2
  refine ⟨fun hrole hend => ?_, fun d hrole => ?_⟩
  · obtain ⟨before, after, hbefore, rfl, hafter, hcommented⟩ :=
      preprocess_commented hsource hsource' hout hrole hend
    exact ⟨before, after, hbefore, rfl, hcommented, fun hsettled =>
      wordsRead_commented hsettled htext hafter⟩
  · obtain ⟨name, m, hread⟩ := read_of_preprocess hsource hout hrole
    have hline := (code_of_role (s := ⟨[], [], leftOpen .code front⟩) hrole (by simp)).2
    obtain ⟨d', name', m', hline', hread', -, hparams, hexact⟩ :=
      Directive.readDefinition_commented hline hread text
    refine ⟨name, m, d', hread, hline', fun hblank => ?_, fun hothers => ?_⟩
    · obtain ⟨rfl, hbody⟩ := hexact hblank
      rw [hread', ← hparams, ← hbody]
    · exact preprocess_definition_commented hsource hsource' hout hrole hread hothers

/-- A source with two macros, one of which is not used. -/
def pairSource : Text := "#define M(a) 2\n#define N 1\nf(N);\ng();"

def pairOutput : Text := "\n\nf(1);\ng();"

theorem preprocess_pair : preprocess ⟨[], []⟩ 1 [] [] pairSource = .ok pairOutput ∧
    preprocess ⟨[], []⟩ 1 [] [] "#define M(a) 2\n#define N 1\nf(N);" = .ok "\n\nf(1);" := by
  let one : Macros := [("M", ⟨["a"], "2"⟩)]
  let both : Macros := ("N", ⟨[], "1"⟩) :: one
  have hfirst : action ⟨[], []⟩ 1 [] [] ⟨[], [], .code⟩ "#define M(a) 2" = .write [] ⟨one, [], .code⟩ := by
    cbv
  have hsecond : action ⟨[], []⟩ 1 [] [] ⟨one, [], .code⟩ "#define N 1" = .write [] ⟨both, [], .code⟩ := by
    cbv
  have huse : action ⟨[], []⟩ 1 [] [] ⟨both, [], .code⟩ "f(N);" = .write "f(1);" ⟨both, [], .code⟩ := by cbv
  have hlast : action ⟨[], []⟩ 1 [] [] ⟨both, [], .code⟩ "g();" = .write "g();" ⟨both, [], .code⟩ := by cbv
  have hreads : ∃ log, Preprocess.Reads ⟨[], []⟩ 1 [] [] 1 ⟨seed [], [], .code⟩ pairSource.lines log
      (.ok (pairOutput, ⟨both, [], .code⟩)) :=
    ⟨_, .write hfirst (.write hsecond (.write huse (.write hlast .stop)))⟩
  have hreads' : ∃ log, Preprocess.Reads ⟨[], []⟩ 1 [] [] 1 ⟨seed [], [], .code⟩
      (Text.lines "#define M(a) 2\n#define N 1\nf(N);") log (.ok ("\n\nf(1);", ⟨both, [], .code⟩)) :=
    ⟨_, .write hfirst (.write hsecond (.write huse .stop))⟩
  obtain ⟨log, hreads⟩ := hreads
  obtain ⟨log', hreads'⟩ := hreads'
  exact ⟨preprocess_of_reads hreads, preprocess_of_reads hreads'⟩

theorem endsInCode_call : EndsInCode .code "f(N);" := by
  have hmark : ∀ {b : UInt8} {rest : Text}, b ≠ '"'.toUInt8 → isWordStart b = false → b ≠ '/'.toUInt8 →
      EndsInCode .code rest → EndsInCode .code (b :: rest) :=
    fun hquote hstart hslash => .byte hquote hstart (Region.not_startsComment hslash)
  have hasm : ∀ b : UInt8, [b] ≠ ("asm" : Text) :=
    fun b h => absurd (congrArg List.length h) (show 1 ≠ 3 by decide)
  have hletter : ∀ {b c : UInt8} {rest : Text}, isWordStart b = true → isWordByte c = false →
      EndsInCode .code (c :: rest) → EndsInCode .code ([b] ++ c :: rest) :=
    fun hstart hstop => .word ⟨_, [], rfl, hstart, by simp⟩ (hasm _) (by simpa using hstop)
  have hclose : EndsInCode .code ");" :=
    hmark (by decide) (by decide) (by decide) (hmark (by decide) (by decide) (by decide) .stop)
  have hname : EndsInCode .code "N);" := hletter (by decide) (by decide) hclose
  exact hletter (by decide) (by decide) (hmark (by decide) (by decide) (by decide) hname)

theorem settled_call : (Lexer.ofText "\n\nf(1);").Settled := by
  have hread : (wordsRead (Lexer.tokens (Lexer.ofText "\n\nf(1);"))).2 = none := by cbv
  intro cause hcause
  rw [hread] at hcause
  cases hcause

theorem unaware_pair : ∀ line ∈ [] ++ (["#define N 1", "f(N);", "g();"] : List Text), Unaware "M" line := by
  intro line hline
  have hm : 'M'.toUInt8 ∉ line := by
    revert line
    decide
  have hplain : ∀ d, Directive.ofLine line ≠ .inclusion d := by
    fin_cases hline
    · exact nofun
    · exact nofun
    · exact nofun
  exact ⟨fun h => hm (h.subset (List.mem_singleton.mpr rfl)), hplain⟩

theorem comment_behind_line_pair :
    EndsInCode .code "f(N);" ∧ (Lexer.ofText "\n\nf(1);").Settled ∧
    preprocess ⟨[], []⟩ 1 [] [] pairSource = .ok pairOutput ∧
    preprocess ⟨[], []⟩ 1 [] [] "#define M(a) 2\n#define N 1\nf(N); // \"N /* asm\ng();" =
      .ok "\n\nf(1); // \"N /* asm\ng();" ∧
    wordsRead (Text.tokens "\n\nf(1); // \"N /* asm\ng();") = wordsRead pairOutput.tokens ∧
    preprocess ⟨[], []⟩ 1 [] [] "#define M(a) 2 // M(N)\n#define N 1\nf(N);\ng();" = .ok pairOutput := by
  obtain ⟨hout, huse⟩ := preprocess_pair
  let front : List Text := ["#define M(a) 2", "#define N 1"]
  let back : List Text := ["#define N 1", "f(N);", "g();"]
  let line : Text := "f(N);"
  let first : Text := "#define M(a) 2"
  let text : Text := "\"N /* asm"
  let call : Text := "M(N)"
  have hsource : pairSource.lines = front ++ line :: ["g();"] := rfl
  have hsource' : Text.lines "#define M(a) 2\n#define N 1\nf(N); // \"N /* asm\ng();" =
      front ++ (line ++ " // " ++ text) :: ["g();"] := rfl
  have hfirst : pairSource.lines = [] ++ first :: back := rfl
  have hfirst' : Text.lines "#define M(a) 2 // M(N)\n#define N 1\nf(N);\ng();" =
      [] ++ (first ++ " // " ++ call) :: back := rfl
  have hopen : leftOpen .code front = .code := rfl
  have hplain : roleIn (leftOpen .code front) line = .plain := by
    rw [hopen]
    cbv
  have hend : EndsInCode (leftOpen .code front) line := by
    rw [hopen]
    exact endsInCode_call
  obtain ⟨before, after, hbefore, hsplit, hcommented, hwords⟩ :=
    (comment_behind_line hsource hsource' hout).1 hplain hend
  obtain rfl : "\n\nf(1);" = before := Except.ok.inj (huse.symm.trans hbefore)
  have hpair : pairOutput = "\n\nf(1);" ++ "\ng();" := rfl
  obtain rfl : "\ng();" = after := List.append_cancel_left (hpair.symm.trans hsplit)
  have hdefines : Directive.readDefinition "M(a) 2" = .ok ("M", ⟨["a"], "2"⟩) := by cbv
  obtain ⟨name, m, d, hread, -, -, hunaware⟩ := (comment_behind_line hfirst hfirst' hout).2 "M(a) 2" (by cbv)
  obtain ⟨rfl, rfl⟩ := Prod.mk.inj (Except.ok.inj (hdefines.symm.trans hread))
  refine ⟨endsInCode_call, settled_call, hout, hcommented, hwords settled_call, ?_⟩
  rcases hunaware unaware_pair with hsame | ⟨hnone, -⟩
  · exact hsame
  · cases hnone

/-- A comment behind a definition stands where the macro is used: what follows there is not read. -/
theorem comment_in_body_hides :
    preprocess ⟨[], []⟩ 1 [] [] "#define N main\nvoid N()\x7b\x7d" = .ok "\nvoid main()\x7b\x7d" ∧
    preprocess ⟨[], []⟩ 1 [] [] "#define N main // entry\nvoid N()\x7b\x7d" = .ok "\nvoid main // entry()\x7b\x7d" ∧
    (wordsRead (Text.tokens "\nvoid main()\x7b\x7d")).1.length = 7 ∧
    (wordsRead (Text.tokens "\nvoid main // entry()\x7b\x7d")).1.length = 3 := by
  let bare : Macros := [("N", ⟨[], "main"⟩)]
  let noted : Macros := [("N", ⟨[], "main // entry"⟩)]
  have hbare : action ⟨[], []⟩ 1 [] [] ⟨[], [], .code⟩ "#define N main" = .write [] ⟨bare, [], .code⟩ := by
    cbv
  have hnoted : action ⟨[], []⟩ 1 [] [] ⟨[], [], .code⟩ "#define N main // entry" =
      .write [] ⟨noted, [], .code⟩ := by cbv
  have huse : action ⟨[], []⟩ 1 [] [] ⟨bare, [], .code⟩ "void N()\x7b\x7d" =
      .write "void main()\x7b\x7d" ⟨bare, [], .code⟩ := by cbv
  have huse' : action ⟨[], []⟩ 1 [] [] ⟨noted, [], .code⟩ "void N()\x7b\x7d" =
      .write "void main // entry()\x7b\x7d" ⟨noted, [], .code⟩ := by cbv
  have hreads : ∃ log, Preprocess.Reads ⟨[], []⟩ 1 [] [] 1 ⟨seed [], [], .code⟩
      (Text.lines "#define N main\nvoid N()\x7b\x7d") log (.ok ("\nvoid main()\x7b\x7d", ⟨bare, [], .code⟩)) :=
    ⟨_, .write hbare (.write huse .stop)⟩
  have hreads' : ∃ log, Preprocess.Reads ⟨[], []⟩ 1 [] [] 1 ⟨seed [], [], .code⟩
      (Text.lines "#define N main // entry\nvoid N()\x7b\x7d") log
      (.ok ("\nvoid main // entry()\x7b\x7d", ⟨noted, [], .code⟩)) :=
    ⟨_, .write hnoted (.write huse' .stop)⟩
  obtain ⟨log, hreads⟩ := hreads
  obtain ⟨log', hreads'⟩ := hreads'
  exact ⟨preprocess_of_reads hreads, preprocess_of_reads hreads', by cbv, by cbv⟩

end Pocket

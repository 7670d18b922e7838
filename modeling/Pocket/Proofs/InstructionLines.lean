import Mathlib
import Pocket.Asm.Listing
import Pocket.Proofs.Directives
import Pocket.Proofs.Operands
import Pocket.Proofs.Parameters

/-!
# Lines with an instruction

How a line that begins with blanks is read: its comment is dropped, then the labels before colons, and what
is left is an instruction, with its operands in parentheses or behind a blank. An instruction that can be
taken for nothing else is read as it was written.
-/

namespace Pocket.Asm

open Text

/-! ### Names -/

/-- Whether a byte may stand in a name behind its first byte. -/
def continuesName (b : UInt8) : Bool :=
  startsName b || ('0'.toUInt8 ≤ b && b ≤ '9'.toUInt8)

section Names

variable {t u v w : Text} {b : UInt8}

theorem isFirm_of_continuesName (h : continuesName b = true) : IsFirm b := by
  by_cases hdot : b = '.'.toUInt8
  · rw [hdot]
    decide
  · refine isFirm_of_wordByte ?_
    simp only [continuesName, startsName, Bool.or_eq_true, beq_iff_eq, hdot, or_false] at h
    simp only [isWordByte, isWordStart, Bool.or_eq_true, beq_iff_eq]
    tauto

theorem continuesName_of_isName (h : isName t = true) : ∀ b ∈ t, continuesName b = true := by
  cases t with
  | nil => cases h
  | cons c t =>
    rw [isName, Bool.and_eq_true, List.all_eq_true] at h
    refine List.forall_mem_cons.mpr ⟨?_, h.2⟩
    rw [continuesName, h.1, Bool.true_or]

theorem isName_ne_nil (h : isName t = true) : t ≠ [] := by
  rintro rfl
  cases h

theorem isName_not_mem (h : isName t = true) (hname : continuesName b = false) : b ∉ t := by
  intro hb
  rw [continuesName_of_isName h b hb] at hname
  cases hname

/-- A name has no blanks to trim. -/
theorem isName_trim (h : isName t = true) : t.trim = t := by
  have hfirm : ∀ b ∈ t, IsFirm b := fun b hb => isFirm_of_continuesName (continuesName_of_isName h b hb)
  obtain ⟨b, more, hfirst⟩ := List.exists_cons_of_ne_nil (isName_ne_nil h)
  obtain ⟨front, d, hlast⟩ := (List.eq_nil_or_concat' t).resolve_left (isName_ne_nil h)
  refine trim_eq_self ?_ ?_
  · rw [hfirst]
    exact not_startsBlank_append not_startsBlank_nil (hfirm b (by simp [hfirst])) more
  · rw [hlast]
    exact not_endsBlank_append not_endsBlank_nil (hfirm d (by simp [hlast])) front

/-- A text with a byte that is in no name is no name, trimmed or not. -/
theorem not_mem_of_isName (h : isName t.trim = true) (hfirm : IsFirm b) (hname : continuesName b = false) :
    b ∉ t :=
  fun hb => isName_not_mem h hname (mem_trim hb hfirm)

end Names

/-! ### Comments -/

/-- The bytes of a text that are characters by themselves and no blanks. -/
def visible (t : Text) : Text :=
  t.filter (IsFirm ·)

/-- The bytes of a text that decide where its comment begins. -/
def marks (t : Text) : Text :=
  t.filter fun b => b = '"'.toUInt8 ∨ b = ';'.toUInt8

section Comments

variable {s t : Text} {b : UInt8}

theorem visible_append (s t : Text) : visible (s ++ t) = visible s ++ visible t :=
  List.filter_append s t

theorem visible_blank (h : t.Blank) : visible t = [] := by
  rw [visible, List.filter_eq_nil_iff]
  intro b hb hfirm
  exact h.not_mem (of_decide_eq_true hfirm) hb

theorem visible_trim (t : Text) : visible t.trim = visible t := by
  obtain ⟨l, r, hsplit, hl, hr, -⟩ := t.exists_trim_split
  nth_rewrite 2 [hsplit]
  rw [visible_append, visible_append, visible_blank hl, visible_blank hr, List.nil_append, List.append_nil]

theorem visible_join_trim (ts : List Text) :
    visible (join ", " (ts.map Text.trim)) = visible (join "," ts) := by
  induction ts with
  | nil => rfl
  | cons t ts ih =>
    by_cases hts : ts = []
    · rw [hts, List.map_singleton, join_singleton, join_singleton, visible_trim]
    · rw [List.map_cons, join_cons _ _ (by simpa using hts), join_cons _ _ hts, visible_append, visible_append,
        visible_append, visible_append, visible_trim, ih]
      rfl

/-- The operands of a text show what the text shows. -/
theorem visible_operands (t : Text) : visible (join ", " (operands t)) = visible t := by
  rw [operands_eq]
  split
  · next hblank => rw [← visible_trim t, hblank]; rfl
  · rw [visible_join_trim, join_pieces]

theorem marks_visible (t : Text) : marks (visible t) = marks t := by
  rw [marks, visible, List.filter_filter]
  refine List.filter_congr fun b _ => ?_
  by_cases hmark : b = '"'.toUInt8 ∨ b = ';'.toUInt8
  · have hfirm : IsFirm b := by rcases hmark with rfl | rfl <;> decide
    simp [hmark, hfirm]
  · simp [hmark]

theorem marks_congr (h : visible s = visible t) : marks s = marks t := by
  rw [← marks_visible, h, marks_visible]

theorem marks_append (s t : Text) : marks (s ++ t) = marks s ++ marks t :=
  List.filter_append s t

theorem marks_parens (t : Text) : marks ('('.toUInt8 :: (t ++ [')'.toUInt8])) = marks t := by
  calc marks ('('.toUInt8 :: (t ++ [')'.toUInt8])) = marks (t ++ [')'.toUInt8]) := rfl
    _ = marks t ++ marks [')'.toUInt8] := marks_append t _
    _ = marks t := List.append_nil _

theorem marks_eq_nil (h : ∀ b ∈ t, b ≠ '"'.toUInt8 ∧ b ≠ ';'.toUInt8) : marks t = [] := by
  rw [marks, List.filter_eq_nil_iff]
  intro b hb
  simp [h b hb]

theorem withoutComment_idem (quoted : Bool) (t : Text) :
    withoutComment quoted (withoutComment quoted t) = withoutComment quoted t := by
  induction t generalizing quoted with
  | nil => rfl
  | cons b t ih =>
    rw [withoutComment]
    split
    · next hb => rw [withoutComment, if_pos hb, ih]
    · next hb =>
      split
      · rfl
      · next hsemi => rw [withoutComment, if_neg hb, if_neg hsemi, ih]

/-- Whether a text has a comment can be told from its marks. -/
theorem withoutComment_eq_self_iff (quoted : Bool) (t : Text) :
    withoutComment quoted t = t ↔ withoutComment quoted (marks t) = marks t := by
  induction t generalizing quoted with
  | nil => rfl
  | cons b t ih =>
    by_cases hquote : b = '"'.toUInt8
    · have hmarks : marks (b :: t) = b :: marks t := by simp [marks, hquote]
      rw [hmarks, withoutComment, withoutComment, if_pos hquote, if_pos hquote, List.cons_inj_right,
        List.cons_inj_right, ih]
    by_cases hsemi : b = ';'.toUInt8
    · have hmarks : marks (b :: t) = b :: marks t := by simp [marks, hsemi]
      rw [hmarks, withoutComment, withoutComment, if_neg hquote, if_neg hquote]
      cases quoted with
      | true => simp [ih]
      | false => simp [hsemi]
    · have hmarks : marks (b :: t) = marks t := by simp [marks, hquote, hsemi]
      rw [hmarks, withoutComment, if_neg hquote, if_neg (fun h => hsemi h.1), List.cons_inj_right, ih]

theorem withoutComment_indent (t : Text) :
    withoutComment false (indent ++ t) = indent ++ withoutComment false t := by
  change withoutComment false (' '.toUInt8 :: ' '.toUInt8 :: ' '.toUInt8 :: ' '.toUInt8 :: t) = _
  simp only [withoutComment]
  rfl

end Comments

/-! ### Labels -/

/-- No label stands in front of a text: what is before its first colon is no name. -/
def Unlabelled (t : Text) : Prop :=
  ∀ u v, t = u ++ ':'.toUInt8 :: v → ':'.toUInt8 ∉ u → isName u.trim = false

section Labels

variable {t u v w : Text} {sep b : UInt8}

/-- Where a byte stands in a text put together from two. -/
theorem append_eq_append_cons {x y : Text} (h : x ++ y = u ++ b :: v) :
    (∃ z, x = u ++ b :: z ∧ v = z ++ y) ∨ ∃ z, u = x ++ z ∧ y = z ++ b :: v := by
  rcases List.append_eq_append_iff.mp h with ⟨z, hu, hy⟩ | ⟨z, hx, hv⟩
  · exact .inr ⟨z, hu, hy⟩
  · cases z with
    | nil => exact .inr ⟨[], by simpa using hx.symm, hv.symm⟩
    | cons d z =>
      obtain ⟨rfl, hrest⟩ := List.cons.inj hv
      exact .inl ⟨z, hx, hrest⟩

theorem split_not_mem (h : sep ∉ t) : split sep t = [t] := by
  obtain ⟨first, more, hnil, hsplit⟩ := split_append h []
  rw [split] at hnil
  cases hnil
  simpa using hsplit

theorem split_append_cons (h : sep ∉ u) (v : Text) : split sep (u ++ sep :: v) = u :: split sep v := by
  obtain ⟨first, more, hsep, hsplit⟩ := split_append h (sep :: v)
  rw [split, if_pos rfl] at hsep
  cases hsep
  rwa [List.append_nil] at hsplit

theorem exists_split_eq_cons (sep : UInt8) (t : Text) : ∃ first more, split sep t = first :: more := by
  obtain ⟨first, more, hsplit, -⟩ := split_append (List.not_mem_nil : sep ∉ []) t
  exact ⟨first, more, hsplit⟩

theorem join_split_self (sep : UInt8) (t : Text) : join [sep] (split sep t) = t := by
  induction hn : t.length using Nat.strongRecOn generalizing t with
  | ind n ih =>
    by_cases hsep : sep ∈ t
    · obtain ⟨u, v, rfl, hu⟩ := List.eq_append_cons_of_mem hsep
      have hv := ih v.length (by rw [← hn, List.length_append, List.length_cons]; omega) v rfl
      have hne : split sep v ≠ [] := by
        obtain ⟨first, more, hsplit⟩ := exists_split_eq_cons sep v
        simp [hsplit]
      rw [split_append_cons hu, join_cons _ _ hne, hv]
      rfl
    · rw [split_not_mem hsep, join_singleton]

theorem takeLabels_name (hu : ':'.toUInt8 ∉ u) (hname : isName u.trim = true) (v : Text) :
    takeLabels (split ':'.toUInt8 (u ++ ':'.toUInt8 :: v)) =
      (u.trim :: (takeLabels (split ':'.toUInt8 v)).1, (takeLabels (split ':'.toUInt8 v)).2) := by
  obtain ⟨first, more, hsplit⟩ := exists_split_eq_cons ':'.toUInt8 v
  rw [split_append_cons hu, hsplit, takeLabels]
  dsimp only
  rw [if_pos hname]
  intro h
  cases h

theorem takeLabels_unlabelled (h : Unlabelled t) : takeLabels (split ':'.toUInt8 t) = ([], t.trim) := by
  by_cases hcolon : ':'.toUInt8 ∈ t
  · obtain ⟨u, v, rfl, hu⟩ := List.eq_append_cons_of_mem hcolon
    have hjoin := join_split_self ':'.toUInt8 (u ++ ':'.toUInt8 :: v)
    obtain ⟨first, more, hsplit⟩ := exists_split_eq_cons ':'.toUInt8 v
    rw [split_append_cons hu, hsplit] at hjoin ⊢
    rw [takeLabels]
    · dsimp only
      rw [if_neg (by simp [h u v rfl hu])]
      exact congrArg (fun s : Text => (([] : List Text), s.trim)) hjoin
    · intro h
      cases h
  · rw [split_not_mem hcolon]
    rfl

end Labels

/-! ### Instructions -/

/-- A text without spaces and tabs. -/
def Unspaced (t : Text) : Prop :=
  ' '.toUInt8 ∉ t ∧ '\t'.toUInt8 ∉ t

/-- A text that is written like a call: a name, the opening parenthesis directly behind it, and the closing
one at the end. -/
def CallLike (t : Text) : Prop :=
  ∃ op s, t = op ++ '('.toUInt8 :: (s ++ [')'.toUInt8]) ∧ isName op.trim = true ∧ Unspaced op

section Instructions

variable {op s t u w : Text} {sep : UInt8}

theorem cut_append (h : sep ∉ u) (v : Text) : (u ++ sep :: v).cut sep = (u, v) := by
  rw [Text.cut, Text.cut?_append h]
  rfl

theorem cut?_not_mem (h : sep ∉ t) : t.cut? sep = none := by
  refine Option.eq_none_iff_forall_ne_some.mpr fun parts hcut => h ?_
  obtain ⟨ht, -⟩ := Text.cut?_eq_some hcut
  rw [ht]
  simp

theorem cut_not_mem (h : sep ∉ t) : t.cut sep = (t, []) := by
  rw [Text.cut, cut?_not_mem h]
  rfl

theorem endsWith_iff {tail : Text} : t.endsWith tail = true ↔ ∃ s, t = s ++ tail := by
  refine ⟨fun h => ⟨_, (Text.dropEnding_append h).symm⟩, ?_⟩
  rintro ⟨s, rfl⟩
  rw [Text.endsWith, List.reverse_append]
  exact Text.startsWith_iff.mpr (List.prefix_append _ _)

theorem instruction_call (hname : isName op.trim = true) (hop : Unspaced op) (s : Text) :
    instruction (op ++ '('.toUInt8 :: (s ++ [')'.toUInt8])) = (op.toLower, operands s, true) := by
  have hparen : '('.toUInt8 ∉ op := not_mem_of_isName hname (by decide) (by decide)
  have hends : (op ++ '('.toUInt8 :: (s ++ [')'.toUInt8])).endsWith ")" = true :=
    endsWith_iff.mpr ⟨op ++ '('.toUInt8 :: s, by simp; rfl⟩
  rw [instruction, cut_append hparen]
  dsimp only
  rw [hname, hends, List.dropLast_concat]
  simp [hop.1, hop.2]

theorem callLike_of_test (hname : isName (t.cut '('.toUInt8).1.trim = true) (hends : t.endsWith ")" = true)
    (hparen : '('.toUInt8 ∈ t) (hhead : Unspaced (t.cut '('.toUInt8).1) : CallLike t := by
  obtain ⟨head, tail, rfl, hout⟩ := List.eq_append_cons_of_mem hparen
  rw [cut_append hout] at hname hhead
  obtain ⟨front, hfront⟩ := endsWith_iff.mp hends
  rcases List.eq_nil_or_concat' tail with rfl | ⟨s, d, rfl⟩
  · cases (List.append_inj' hfront rfl).2
  · rw [← List.cons_append, ← List.append_assoc] at hfront
    have hlast : [d] = [')'.toUInt8] := (List.append_inj' hfront rfl).2
    cases hlast
    exact ⟨head, s, rfl, hname, hhead⟩

/-- What is not written like a call is a mnemonic and, behind a space or a tab, its operands. -/
theorem instruction_plain (h : ¬CallLike t) : instruction t =
    match (t.cut ' '.toUInt8).1.cut? '\t'.toUInt8 with
    | some (mnemonic, more) => (mnemonic.toLower, operands (more ++ " " ++ (t.cut ' '.toUInt8).2), false)
    | none => ((t.cut ' '.toUInt8).1.toLower, operands (t.cut ' '.toUInt8).2, false) := by
  rw [instruction]
  dsimp only
  split
  · next hcall =>
    simp only [Bool.and_eq_true, Bool.not_eq_true', List.contains_eq_mem, decide_eq_true_eq,
      decide_eq_false_iff_not] at hcall
    obtain ⟨⟨⟨⟨hname, hends⟩, hparen⟩, hspace⟩, htab⟩ := hcall
    exact absurd (callLike_of_test hname hends hparen ⟨hspace, htab⟩) h
  · rfl

theorem instruction_word (h : ¬CallLike w) (hw : Unspaced w) : instruction w = (w.toLower, [], false) := by
  rw [instruction_plain h, cut_not_mem hw.1]
  dsimp only
  rw [cut?_not_mem hw.2]
  rfl

theorem operands_trim (t : Text) : operands t.trim = operands t := by
  rw [operands, operands, trim_trim]

theorem instruction_spaced (hw : Unspaced w) (hsep : sep = ' '.toUInt8 ∨ sep = '\t'.toUInt8)
    (h : ¬CallLike (w ++ sep :: s)) : instruction (w ++ sep :: s) = (w.toLower, operands s, false) := by
  rw [instruction_plain h]
  rcases hsep with rfl | rfl
  · rw [cut_append hw.1]
    dsimp only
    rw [cut?_not_mem hw.2]
  -- A space behind the tab is found first; the tab is looked for in front of it.
  · by_cases hspace : ' '.toUInt8 ∈ s
    · obtain ⟨more, rest, rfl, hmore⟩ := List.eq_append_cons_of_mem hspace
      have hfront : ' '.toUInt8 ∉ w ++ '\t'.toUInt8 :: more := by
        simpa [hw.1, hmore] using by decide
      rw [← List.cons_append, ← List.append_assoc, cut_append hfront]
      dsimp only
      rw [Text.cut?_append hw.2]
      dsimp only
      rw [List.append_assoc]
      rfl
    · have hall : ' '.toUInt8 ∉ w ++ '\t'.toUInt8 :: s := by
        simpa [hw.1, hspace] using by decide
      rw [cut_not_mem hall]
      dsimp only
      rw [Text.cut?_append hw.2]
      dsimp only
      rw [List.append_nil, ← operands_trim, trim_append_blank (r := " ") blank_space, operands_trim]

theorem exists_unspaced (t : Text) : Unspaced t ∨
    ∃ w sep s, t = w ++ sep :: s ∧ Unspaced w ∧ (sep = ' '.toUInt8 ∨ sep = '\t'.toUInt8) := by
  induction t with
  | nil => exact .inl ⟨by simp, by simp⟩
  | cons b t ih =>
    by_cases hb : b = ' '.toUInt8 ∨ b = '\t'.toUInt8
    · exact .inr ⟨[], b, t, rfl, ⟨by simp, by simp⟩, hb⟩
    · obtain ⟨hspace, htab⟩ := not_or.mp hb
      have hcons : ∀ {w : Text}, Unspaced w → Unspaced (b :: w) := fun hw =>
        ⟨by simp [hw.1, Ne.symm hspace], by simp [hw.2, Ne.symm htab]⟩
      rcases ih with ht | ⟨w, sep, s, rfl, hw, hsep⟩
      · exact .inl (hcons ht)
      · exact .inr ⟨b :: w, sep, s, rfl, hcons hw, hsep⟩

/-- How a text is divided into a mnemonic and the text of its operands, in parentheses or behind a blank. -/
inductive Divided : Text → Text → Text → Bool → Prop where
  | call {op : Text} (hname : isName op.trim = true) (hop : Unspaced op) (s : Text) :
      Divided (op ++ '('.toUInt8 :: (s ++ [')'.toUInt8])) op s true
  | word {w : Text} (hw : Unspaced w) (hcall : ¬CallLike w) : Divided w w [] false
  | spaced {w s : Text} {sep : UInt8} (hw : Unspaced w) (hsep : sep = ' '.toUInt8 ∨ sep = '\t'.toUInt8)
      (hcall : ¬CallLike (w ++ sep :: s)) : Divided (w ++ sep :: s) w s false

theorem exists_divided (t : Text) : ∃ op s parens, Divided t op s parens := by
  by_cases hcall : CallLike t
  · obtain ⟨op, s, rfl, hname, hop⟩ := hcall
    exact ⟨op, s, true, .call hname hop s⟩
  · rcases exists_unspaced t with hw | ⟨w, sep, s, rfl, hw, hsep⟩
    · exact ⟨t, [], false, .word hw hcall⟩
    · exact ⟨w, s, false, .spaced hw hsep hcall⟩

theorem Divided.instruction {parens : Bool} (h : Divided t op s parens) :
    instruction t = (op.toLower, operands s, parens) := by
  cases h with
  | call hname hop s => exact instruction_call hname hop s
  | word hw hcall => exact instruction_word hcall hw
  | spaced hw hsep hcall => exact instruction_spaced hw hsep hcall

theorem Divided.subset {parens : Bool} (h : Divided t op s parens) : op ⊆ t ∧ s ⊆ t := by
  cases h with
  | call => exact ⟨fun b hb => by simp [hb], fun b hb => by simp [hb]⟩
  | word => exact ⟨List.Subset.refl _, List.nil_subset _⟩
  | spaced => exact ⟨fun b hb => by simp [hb], fun b hb => by simp [hb]⟩

end Instructions

/-! ### Reading an indented line -/

/-- The instruction on what is left of a line; on nothing there is none. -/
def instructionOn (t : Text) : Text × List Text × Bool :=
  if t = [] then ([], [], false) else instruction t

section Indented

variable {t body op k K l r m : Text} {args : List Text} {b : UInt8}

theorem blank_indent : Blank indent :=
  ((blank_space.append blank_space).append blank_space).append blank_space

/-- On an indented line a label needs a colon. -/
theorem ofText_indent (n : Int) (t : Text) : Line.ofText n (indent ++ t) =
    let (labels, rest) := takeLabels ((withoutComment false t).trim.split ':'.toUInt8)
    let (mnemonic, operands, parens) := instructionOn rest
    ⟨n, labels, mnemonic, operands, parens⟩ := by
  have hspace : (indent ++ withoutComment false t).startsWith " " = true :=
    Text.startsWith_iff.mpr ⟨"   " ++ withoutComment false t, rfl⟩
  rw [Line.ofText, withoutComment_indent, trim_blank_append blank_indent]
  dsimp only
  rw [hspace, Bool.not_true, Bool.and_false, Bool.false_and, Bool.false_and, if_neg Bool.false_ne_true]
  dsimp only
  simp only [List.append_nil, instructionOn, List.isEmpty_iff]

theorem ofText_unlabelled (n : Int) (hcomment : withoutComment false body = body) (h : Unlabelled body.trim) :
    Line.ofText n (indent ++ body) =
      ⟨n, [], (instructionOn body.trim).1, (instructionOn body.trim).2.1, (instructionOn body.trim).2.2⟩ := by
  rw [ofText_indent, hcomment, takeLabels_unlabelled h, trim_trim]

/-! ### Blanks behind a word -/

/-- A word and what stands behind a space is a name only if nothing stands there. -/
theorem isName_trim_spaced (hne : op ≠ []) (hstart : ¬op.StartsBlank)
    (h : isName (op ++ ' '.toUInt8 :: k).trim = true) : k.Blank ∧ isName op.trim = true := by
  have hspace : ' '.toUInt8 ∉ (op ++ ' '.toUInt8 :: k).trim := isName_not_mem h (by decide)
  obtain ⟨l, r, hsplit, hl, hr, -⟩ := (op ++ ' '.toUInt8 :: k).exists_trim_split
  generalize hname : (op ++ ' '.toUInt8 :: k).trim = name at hspace hsplit h
  have hbegin : ¬StartsBlank (op ++ ' '.toUInt8 :: k) :=
    not_startsBlank_fresh hne hstart (by simp [Glyph.Fresh]; decide)
  have hk : k.Blank := by
    rw [hsplit, List.append_assoc] at hbegin
    rw [not_startsBlank_blank_append hl hbegin, List.nil_append] at hsplit
    rcases append_eq_append_cons hsplit.symm with ⟨z, rfl, -⟩ | ⟨z, -, rfl⟩
    · exact absurd (by simp) hspace
    · exact blank_behind (by decide) hr
  refine ⟨hk, ?_⟩
  rwa [← hname, trim_append_blank (r := ' '.toUInt8 :: k) (blank_space.append hk)] at h

theorem not_endsBlank_spaced (hne : K ≠ []) (h : ¬K.EndsBlank) (x : Text) :
    ¬EndsBlank (x ++ ' '.toUInt8 :: K) := by
  rintro ⟨c, hc, before, hsplit⟩
  rcases append_eq_append_cons hsplit with ⟨z, -, rfl⟩ | ⟨z, -, hz⟩
  · exact h ⟨c, hc, z, rfl⟩
  · exact hne (eq_nil_of_ofChar (by decide) hz)

/-! ### Legible instructions -/

/-- A mnemonic and operands that are read from an indented line as they are. -/
structure Legible (op : Text) (args : List Text) : Prop where
  lower : op.toLower = op
  filled : op ≠ []
  start : ¬op.StartsBlank
  unspaced : Unspaced op
  operands : AreOperands args
  uncommented : withoutComment false (op ++ join ", " args) = op ++ join ", " args
  unlabelled : Unlabelled op

/-- What is asked in addition of an instruction without parentheses: it shall be taken neither for a label
nor for a call. -/
structure Plain (op : Text) (args : List Text) : Prop extends Legible op args where
  ends : args = [] → ¬op.EndsBlank
  apart : isName op.trim = true → ∀ l v, l.Blank → join ", " args ≠ l ++ ':'.toUInt8 :: v
  uncalled : ∀ u v, op = u ++ '('.toUInt8 :: v → isName u.trim = true →
    (visible (op ++ join ", " args)).getLast? ≠ some ')'.toUInt8

theorem withoutComment_congr {s t : Text} (h : visible s = visible t) (hs : withoutComment false s = s) :
    withoutComment false t = t := by
  rw [withoutComment_eq_self_iff] at hs ⊢
  rwa [← marks_congr h]

/-- In front of a byte that is in no name, a label would have to end. -/
theorem unlabelled_append (hop : ':'.toUInt8 ∉ op) (hb : IsFirm b) (hname : continuesName b = false)
    (hne : b ≠ ':'.toUInt8) (k : Text) : Unlabelled (op ++ b :: k) := by
  intro u v hsplit hu
  rcases append_eq_append_cons hsplit with ⟨z, hz, -⟩ | ⟨z, rfl, hz⟩
  · exact absurd (by simp [hz]) hop
  · cases z with
    | nil => exact absurd (List.cons.inj hz).1 hne
    | cons d z =>
      obtain ⟨rfl, -⟩ := List.cons.inj hz
      exact Bool.eq_false_iff.mpr fun h => not_mem_of_isName h hb hname (by simp)

theorem Legible.read_call (h : Legible op args) (hname : isName op.trim = true) (n : Int) :
    Line.ofText n (Item.instr true op args).render = ⟨n, [], op, args, true⟩ := by
  have hrender : (Item.instr true op args).render =
      indent ++ (op ++ '('.toUInt8 :: (join ", " args ++ [')'.toUInt8])) := by
    simp only [Item.render, Item.instr, if_true, List.append_assoc]
    rfl
  generalize hbody : op ++ '('.toUInt8 :: (join ", " args ++ [')'.toUInt8]) = body at hrender
  have htrim : body.trim = body := by
    rw [← hbody]
    refine trim_eq_self (not_startsBlank_append h.start (by decide) _) ?_
    rw [← List.cons_append, ← List.append_assoc]
    exact not_endsBlank_append not_endsBlank_nil (by decide) _
  have hcomment : withoutComment false body = body := by
    have hmarks : marks body = marks (op ++ join ", " args) := by
      rw [← hbody, marks_append, marks_append, marks_parens]
    rw [withoutComment_eq_self_iff, hmarks, ← withoutComment_eq_self_iff, h.uncommented]
  have hlabel : Unlabelled body := by
    rw [← hbody]
    exact unlabelled_append (not_mem_of_isName hname (by decide) (by decide)) (by decide) (by decide) (by decide) _
  rw [hrender, ofText_unlabelled n hcomment (htrim.symm ▸ hlabel), htrim, instructionOn, if_neg (by simp [← hbody]),
    ← hbody, instruction_call hname h.unspaced, h.lower, h.operands.operands_join]

theorem render_spaced (hargs : args ≠ []) :
    (Item.instr false op args).render = indent ++ (op ++ ' '.toUInt8 :: join ", " args) := by
  simp only [Item.render, Item.instr, List.isEmpty_iff, if_neg hargs, List.append_assoc]
  rfl

/-- What is read of an instruction without parentheses. An empty operand at the end leaves a blank there, which
is trimmed away. -/
theorem Legible.code_spaced (h : Legible op args) (hargs : args ≠ []) : ∃ K r, join ", " args = K ++ r ∧ r.Blank ∧
    K ≠ [] ∧ Asm.operands K = args ∧
    withoutComment false (op ++ ' '.toUInt8 :: join ", " args) = op ++ ' '.toUInt8 :: join ", " args ∧
    (op ++ ' '.toUInt8 :: join ", " args).trim = op ++ ' '.toUInt8 :: K := by
  obtain ⟨K, r, hsplit, hr, hend⟩ := (join ", " args).exists_end_split
  have hK : Asm.operands K = args := by
    rw [← h.operands.operands_join, hsplit, ← operands_trim (K ++ r), trim_append_blank hr, operands_trim]
  have hne : K ≠ [] := by
    rintro rfl
    exact hargs hK.symm
  refine ⟨K, r, hsplit, hr, hne, hK, ?_, ?_⟩
  · refine withoutComment_congr ?_ h.uncommented
    rw [visible_append, visible_append]
    rfl
  · rw [hsplit, ← List.cons_append, ← List.append_assoc, trim_append_blank hr]
    exact trim_eq_self (not_startsBlank_fresh h.filled h.start (by simp [Glyph.Fresh]; decide))
      (not_endsBlank_spaced hne hend op)

theorem Plain.not_callLike (h : Plain op args) {t tail : Text} (ht : t = op ++ tail)
    (htail : ∀ b ∈ tail.head?, b = ' '.toUInt8) (hvisible : visible tail = visible (join ", " args)) :
    ¬CallLike t := by
  rintro ⟨u, s, hsplit, hname, hu⟩
  rw [ht] at hsplit
  rcases append_eq_append_cons hsplit with ⟨z, hz, -⟩ | ⟨z, rfl, hz⟩
  · refine h.uncalled u z hz hname ?_
    rw [visible_append, ← hvisible, ← visible_append, hsplit, ← List.cons_append, ← List.append_assoc, visible_append]
    exact List.getLast?_concat
  · rw [hz] at htail
    cases z with
    | nil => exact absurd (htail _ rfl) (by decide)
    | cons d z =>
      rw [htail d rfl] at hu
      exact hu.1 (by simp)

theorem Plain.read_word (h : Plain op []) (n : Int) :
    Line.ofText n (Item.instr false op []).render = ⟨n, [], op, [], false⟩ := by
  have hcomment : withoutComment false op = op := by simpa [join] using h.uncommented
  have htrim : op.trim = op := trim_eq_self h.start (h.ends rfl)
  have hcall : ¬CallLike op := h.not_callLike (List.append_nil op).symm (by simp) rfl
  have hrender : (Item.instr false op []).render = indent ++ op := rfl
  rw [hrender, ofText_unlabelled n hcomment (htrim.symm ▸ h.unlabelled), htrim, instructionOn, if_neg h.filled,
    instruction_word hcall h.unspaced, h.lower]

theorem Plain.read (h : Plain op args) (n : Int) :
    Line.ofText n (Item.instr false op args).render = ⟨n, [], op, args, false⟩ := by
  by_cases hargs : args = []
  · subst hargs
    exact h.read_word n
  obtain ⟨K, r, hsplit, hr, -, hK, hcomment, htrim⟩ := h.code_spaced hargs
  -- A colon behind the mnemonic would make it a label, unless something else stands between them.
  have hlabel : Unlabelled (op ++ ' '.toUInt8 :: K) := by
    intro u v hu hcolon
    rcases append_eq_append_cons hu with ⟨z, hz, -⟩ | ⟨z, rfl, hz⟩
    · exact h.unlabelled u z hz hcolon
    · cases z with
      | nil => exact absurd (List.cons.inj hz).1 (by decide)
      | cons d z =>
        have hrest : K = z ++ ':'.toUInt8 :: v := (List.cons.inj hz).2
        rw [← (List.cons.inj hz).1]
        refine Bool.eq_false_iff.mpr fun hname => ?_
        obtain ⟨hblank, hop⟩ := isName_trim_spaced h.filled h.start hname
        exact h.apart hop z (v ++ r) hblank (by rw [hsplit, hrest, List.append_assoc]; rfl)
  have hvisible : visible (' '.toUInt8 :: K) = visible (join ", " args) := by
    rw [hsplit, visible_append, visible_blank hr, List.append_nil]
    rfl
  have hcall := h.not_callLike rfl (by simp) hvisible
  rw [render_spaced hargs, ofText_unlabelled n hcomment (htrim.symm ▸ hlabel), htrim, instructionOn,
    if_neg (by simp), instruction_spaced h.unspaced (.inl rfl) hcall, h.lower, hK]

end Indented

end Pocket.Asm

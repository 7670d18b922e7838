import Mathlib
import Pocket.Program.Code
import Pocket.Proofs.InstructionLines

/-!
# Instructions that are written anew

The instruction on an indented ASCII line can be anything, since reading never fails. Written anew, without the
labels and the comment, in lower case and with its operands trimmed, it is read as the same instruction: what is
left out cannot be mistaken for something else, and what is kept looks as before.
-/

namespace Pocket

/-! ### Lower case in ASCII -/

/-- A text of single-byte characters. -/
def Text.Ascii (t : Text) : Prop :=
  ∀ b ∈ t, b.toNat < 128

instance (t : Text) : Decidable t.Ascii :=
  inferInstanceAs (Decidable (∀ b ∈ t, b.toNat < 128))

/-- A byte in lower case. -/
def lowerByte (b : UInt8) : UInt8 :=
  if 'A'.toUInt8 ≤ b ∧ b ≤ 'Z'.toUInt8 then b + 32 else b

namespace Asm

open Text

section Lower

variable {t u v w : Text} {b c : UInt8}

theorem ofChar_lowerChar : ∀ n < 128, ofChar (lowerChar (Char.ofNat n)) = [lowerByte (UInt8.ofNat n)] := by
  decide +kernel

theorem toLower_eq_map (h : t.Ascii) : t.toLower = t.map lowerByte := by
  induction t with
  | nil => rfl
  | cons b t ih =>
    obtain ⟨hb, ht⟩ := List.forall_mem_cons.mp h
    have hfirst := ofChar_lowerChar b.toNat hb
    rw [UInt8.ofNat_toNat] at hfirst
    have hcons : toLower (b :: t) = ofChar (lowerChar (Char.ofNat b.toNat)) ++ toLower t := by
      rw [toLower, glyphs_ascii hb]
      rfl
    rw [hcons, hfirst, ih ht]
    rfl

/-- What lower case does to a byte: letters stay letters, and every other byte stays as it is. -/
theorem lowerByte_cases (b : UInt8) : lowerByte (lowerByte b) = lowerByte b ∧
    (lowerByte b = b ∨ isWordByte b = true ∧ isWordByte (lowerByte b) = true) ∧
    startsName (lowerByte b) = startsName b ∧ continuesName (lowerByte b) = continuesName b := by
  have hall : ∀ n < 256, lowerByte (lowerByte (UInt8.ofNat n)) = lowerByte (UInt8.ofNat n) ∧
      (lowerByte (UInt8.ofNat n) = UInt8.ofNat n ∨
        isWordByte (UInt8.ofNat n) = true ∧ isWordByte (lowerByte (UInt8.ofNat n)) = true) ∧
      startsName (lowerByte (UInt8.ofNat n)) = startsName (UInt8.ofNat n) ∧
      continuesName (lowerByte (UInt8.ofNat n)) = continuesName (UInt8.ofNat n) := by
    decide +kernel
  have hb := hall b.toNat (UInt8.toNat_lt b)
  rwa [UInt8.ofNat_toNat] at hb

theorem lowerByte_of_not_word (h : isWordByte (lowerByte b) = false) : lowerByte b = b := by
  rcases (lowerByte_cases b).2.1 with hb | ⟨-, hword⟩
  · exact hb
  · rw [hword] at h
    cases h

theorem lowerByte_eq_iff (hc : isWordByte c = false) : lowerByte b = c ↔ b = c := by
  constructor
  · rintro rfl
    exact (lowerByte_of_not_word hc).symm
  · rintro rfl
    rcases (lowerByte_cases b).2.1 with hlower | ⟨hword, -⟩
    · exact hlower
    · rw [hword] at hc
      cases hc

theorem isFirm_lowerByte : IsFirm (lowerByte b) ↔ IsFirm b := by
  rcases (lowerByte_cases b).2.1 with hb | ⟨hb, hlower⟩
  · rw [hb]
  · exact iff_of_true (isFirm_of_wordByte hlower) (isFirm_of_wordByte hb)

theorem lower_lower (t : Text) : (t.map lowerByte).map lowerByte = t.map lowerByte := by
  rw [List.map_map]
  exact List.map_congr_left fun b _ => (lowerByte_cases b).1

theorem ascii_lower (h : t.Ascii) : Text.Ascii (t.map lowerByte) := by
  intro c hc
  obtain ⟨b, hb, rfl⟩ := List.mem_map.mp hc
  rcases (lowerByte_cases b).2.1 with hlower | ⟨-, hword⟩
  · rw [hlower]
    exact h b hb
  · exact isWordByte_lt hword

theorem isName_lower (t : Text) : isName (t.map lowerByte) = isName t := by
  cases t with
  | nil => rfl
  | cons b t =>
    rw [List.map_cons, isName, isName, List.all_map, (lowerByte_cases b).2.2.1]
    exact congrArg _ (List.all_congr rfl fun c => (lowerByte_cases c).2.2.2)

theorem mem_lower (hc : isWordByte c = false) : c ∈ t.map lowerByte ↔ c ∈ t := by
  simp [lowerByte_eq_iff hc]

/-- Where a byte that is no letter stands in a text in lower case, there it stands in the text. -/
theorem split_lower (hc : isWordByte c = false) (h : t.map lowerByte = u ++ c :: v) :
    ∃ u' v', t = u' ++ c :: v' ∧ u'.map lowerByte = u ∧ v'.map lowerByte = v := by
  obtain ⟨u', rest, rfl, hu, hrest⟩ := List.map_eq_append_iff.mp h
  obtain ⟨b, v', rfl, hb, hv⟩ := List.map_eq_cons_iff.mp hrest
  exact ⟨u', v', by rw [(lowerByte_eq_iff hc).mp hb], hu, hv⟩

/-- Blanks in a text in lower case are blanks of the text. -/
theorem lower_eq_ofChar {ch : Char} (hch : isBlank ch = true) (h : t.map lowerByte = ofChar ch) : t = ofChar ch := by
  have hsame : ∀ b ∈ t, lowerByte b = b := by
    intro b hb
    refine lowerByte_of_not_word (Bool.eq_false_iff.mpr fun hword => ?_)
    exact (isFirm_of_wordByte hword).not_mem_ofChar hch (h ▸ List.mem_map_of_mem hb)
  rw [← h, List.map_congr_left hsame, List.map_id']

theorem startsBlank_of_lower (h : StartsBlank (t.map lowerByte)) : t.StartsBlank := by
  obtain ⟨ch, hch, rest, hrest⟩ := h
  obtain ⟨x, y, rfl, hx, -⟩ := List.map_eq_append_iff.mp hrest.symm
  exact ⟨ch, hch, y, by rw [lower_eq_ofChar hch hx]⟩

theorem endsBlank_of_lower (h : EndsBlank (t.map lowerByte)) : t.EndsBlank := by
  obtain ⟨ch, hch, rest, hrest⟩ := h
  obtain ⟨x, y, rfl, -, hy⟩ := List.map_eq_append_iff.mp hrest.symm
  exact ⟨ch, hch, x, by rw [lower_eq_ofChar hch hy]⟩

theorem trim_lower (t : Text) : Text.trim (t.map lowerByte) = t.trim.map lowerByte := by
  obtain ⟨l, r, hsplit, hl, hr, hstart, hend⟩ := t.exists_trim_split
  have hsame : ∀ {x : Text}, x.Blank → x.map lowerByte = x := by
    intro x hx
    refine (List.map_congr_left fun b hb => ?_).trans (List.map_id' x)
    rcases (lowerByte_cases b).2.1 with hlower | ⟨hword, -⟩
    · exact hlower
    · exact absurd hb (hx.not_mem (isFirm_of_wordByte hword))
  have hlower : t.map lowerByte = l ++ t.trim.map lowerByte ++ r := by
    nth_rewrite 1 [hsplit]
    rw [List.map_append, List.map_append, hsame hl, hsame hr]
  rw [hlower]
  exact trim_eq_of_split hl hr (mt startsBlank_of_lower hstart) (mt endsBlank_of_lower hend)

theorem isName_trim_lower (t : Text) : isName (Text.trim (t.map lowerByte)) = isName t.trim := by
  rw [trim_lower, isName_lower]

theorem visible_lower (t : Text) : visible (t.map lowerByte) = (visible t).map lowerByte := by
  rw [visible, visible, List.filter_map]
  refine congrArg _ (List.filter_congr fun b _ => ?_)
  simp [isFirm_lowerByte]

theorem marks_lower (t : Text) : marks (t.map lowerByte) = marks t := by
  induction t with
  | nil => rfl
  | cons b t ih =>
    have hquote : lowerByte b = '"'.toUInt8 ↔ b = '"'.toUInt8 := lowerByte_eq_iff (by decide)
    have hsemi : lowerByte b = ';'.toUInt8 ↔ b = ';'.toUInt8 := lowerByte_eq_iff (by decide)
    simp only [marks, List.map_cons, List.filter_cons, hquote, hsemi, decide_eq_true_eq] at ih ⊢
    split
    · next hmark =>
      have hsame : lowerByte b = b := by
        rcases hmark with rfl | rfl
        · exact hquote.mpr rfl
        · exact hsemi.mpr rfl
      rw [hsame, ih]
    · exact ih

end Lower

/-! ### Lines without labels and comment -/

section Stripped

variable {t r op s tail : Text} {args : List Text} {b : UInt8}

theorem Unlabelled.trim (h : Unlabelled t) : Unlabelled t.trim := by
  intro u v hsplit hu
  obtain ⟨l, r, ht, hl, -⟩ := t.exists_trim_split
  rw [hsplit] at ht
  have hname := h (l ++ u) (v ++ r) (by rw [ht]; simp) (by simpa [hu] using hl.not_mem (by decide))
  rwa [trim_blank_append hl] at hname

/-- What is left of a line behind its labels. -/
theorem takeLabels_rest (t : Text) : ∃ labels r, takeLabels (split ':'.toUInt8 t) = (labels, r) ∧ r.trim = r ∧
    Unlabelled r ∧ marks r = marks t ∧ r ⊆ t := by
  induction hn : t.length using Nat.strongRecOn generalizing t with
  | ind n ih =>
    by_cases h : Unlabelled t
    · exact ⟨[], t.trim, takeLabels_unlabelled h, trim_trim t, h.trim, marks_congr (visible_trim t), trim_subset t⟩
    · simp only [Unlabelled, not_forall, Bool.not_eq_false] at h
      obtain ⟨u, v, rfl, hu, hname⟩ := h
      obtain ⟨labels, r, htake, htrim, hlabel, hmarks, hsub⟩ :=
        ih v.length (by rw [← hn, List.length_append, List.length_cons]; omega) v rfl
      refine ⟨u.trim :: labels, r, by rw [takeLabels_name hu hname, htake], htrim, hlabel, ?_,
        fun b hb => by simp [hsub hb]⟩
      have hmarksu : marks u = [] := by
        refine marks_eq_nil fun b hb => ⟨?_, ?_⟩ <;> rintro rfl <;>
          exact not_mem_of_isName hname (by decide) (by decide) hb
      rw [marks_append, hmarksu, hmarks]
      rfl

/-- The rest of an ASCII line, without blanks around it, labels and comment. -/
structure Stripped (r : Text) : Prop where
  ascii : r.Ascii
  trimmed : r.trim = r
  unlabelled : Unlabelled r
  uncommented : withoutComment false r = r

theorem withoutComment_subset (quoted : Bool) (t : Text) : withoutComment quoted t ⊆ t := by
  induction t generalizing quoted with
  | nil => exact List.Subset.refl _
  | cons b t ih =>
    rw [withoutComment]
    split
    · exact List.cons_subset_cons b (ih _)
    · split
      · exact List.nil_subset _
      · exact List.cons_subset_cons b (ih _)

/-- An indented ASCII line is read as the instruction on its stripped rest. -/
theorem ofText_stripped (n : Int) (h : t.Ascii) : ∃ labels r, Stripped r ∧ r ⊆ t ∧ Line.ofText n (indent ++ t) =
    ⟨n, labels, (instructionOn r).1, (instructionOn r).2.1, (instructionOn r).2.2⟩ := by
  obtain ⟨labels, r, htake, htrim, hlabel, hmarks, hrest⟩ := takeLabels_rest (withoutComment false t).trim
  have hsub : r ⊆ t := fun b hb => withoutComment_subset false t (trim_subset _ (hrest hb))
  refine ⟨labels, r, ⟨fun b hb => h b (hsub hb), htrim, hlabel, ?_⟩, hsub, ?_⟩
  · rw [withoutComment_eq_self_iff, hmarks, marks_congr (visible_trim _), ← withoutComment_eq_self_iff]
    exact withoutComment_idem false t
  · rw [ofText_indent, htake]

/-- The mnemonic of a stripped line in lower case and operands that show what stands behind it are legible. -/
theorem Stripped.legible (h : Stripped r) (hsplit : r = op ++ tail) (hne : op ≠ []) (hop : Unspaced op)
    (hargs : AreOperands args) (hmarks : marks tail = marks (join ", " args)) :
    Legible (op.map lowerByte) args where
  lower := by
    have hascii : op.Ascii := fun b hb => h.ascii b (by simp [hsplit, hb])
    rw [toLower_eq_map (ascii_lower hascii), lower_lower]
  filled := by simpa using hne
  start := by
    have hstart := (not_blank_of_trim h.trimmed).1
    rw [hsplit] at hstart
    intro hblank
    obtain ⟨c, hc, hfront⟩ := startsBlank_of_lower hblank
    exact hstart ⟨c, hc, hfront.trans (List.prefix_append op tail)⟩
  unspaced := ⟨(mem_lower (by decide)).not.mpr hop.1, (mem_lower (by decide)).not.mpr hop.2⟩
  operands := hargs
  -- Upper and lower case letters look the same to the search for a comment.
  uncommented := by
    have hcomment := h.uncommented
    rw [withoutComment_eq_self_iff] at hcomment ⊢
    rwa [marks_append, marks_lower, ← hmarks, ← marks_append, ← hsplit]
  unlabelled := by
    intro u v hu hcolon
    obtain ⟨u', v', rfl, rfl, -⟩ := split_lower (by decide) hu
    rw [isName_trim_lower]
    exact h.unlabelled u' (v' ++ tail) (by rw [hsplit]; simp) ((mem_lower (by decide)).not.mp hcolon)

theorem blank_of_ascii (h : t.Ascii) (hfirm : ∀ b ∈ t, ¬IsFirm b) : t.Blank := by
  induction t with
  | nil => exact blank_nil
  | cons b t ih =>
    obtain ⟨hb, ht⟩ := List.forall_mem_cons.mp h
    obtain ⟨hbfirm, htfirm⟩ := List.forall_mem_cons.mp hfirm
    have hblank : isBlank (Char.ofNat b.toNat) = true := by
      rw [← Bool.not_eq_false]
      exact fun hno => hbfirm ⟨hb, hno⟩
    have hfirst := blank_ofChar hblank
    rw [ofChar_ofNat hb] at hfirst
    exact hfirst.append (ih ht htfirm)

theorem blank_of_visible (h : t.Ascii) (hvisible : visible t = []) : t.Blank := by
  rw [visible, List.filter_eq_nil_iff] at hvisible
  exact blank_of_ascii h fun b hb => by simpa using hvisible b hb

/-- The last byte that can be seen on a stripped line is its last byte. -/
theorem Stripped.eq_concat (h : Stripped r) (hlast : (visible r).getLast? = some b) : ∃ x, r = x ++ [b] := by
  rcases List.eq_nil_or_concat' r with rfl | ⟨x, d, rfl⟩
  · cases hlast
  · have hfirm : IsFirm d := by
      by_contra hfirm
      have hblank : Blank [d] := blank_of_ascii (fun b hb => h.ascii b (by simp_all)) (by simpa using hfirm)
      exact (not_blank_of_trim h.trimmed).2 (hblank.endsBlank (by simp) x)
    rw [visible_append, show visible [d] = [d] by simp [visible, hfirm], List.getLast?_concat] at hlast
    exact ⟨x, by rw [Option.some.inj hlast]⟩

/-- A stripped line that is not written like a call is a legible instruction without parentheses. -/
theorem Stripped.plain (h : Stripped r) (hcall : ¬CallLike r) (hsplit : r = op ++ tail) (hne : op ≠ [])
    (hop : Unspaced op) (hargs : AreOperands args) (hvisible : visible tail = visible (join ", " args)) :
    Plain (op.map lowerByte) args where
  toLegible := h.legible hsplit hne hop hargs (marks_congr hvisible)
  ends := by
    rintro rfl
    have hascii : tail.Ascii := fun b hb => h.ascii b (by simp [hsplit, hb])
    have hblank := blank_of_visible hascii hvisible
    have hend := (not_blank_of_trim h.trimmed).2
    by_cases htail : tail = []
    · rw [hsplit, htail, List.append_nil] at hend
      exact mt endsBlank_of_lower hend
    · exact absurd (hsplit ▸ hblank.endsBlank htail op) hend
  apart := by
    intro hname l v hl hjoin
    rw [isName_trim_lower] at hname
    rw [hjoin, visible_append, visible_blank hl] at hvisible
    obtain ⟨l', v', htail, hl', -⟩ := List.filter_eq_cons_iff.mp hvisible
    have hfirm : ∀ b ∈ l', ¬IsFirm b := fun b hb => by simpa using hl' b hb
    have hblank : Blank l' := blank_of_ascii (fun b hb => h.ascii b (by simp [hsplit, htail, hb])) hfirm
    have hcolon : ':'.toUInt8 ∉ op ++ l' := by
      rw [List.mem_append, not_or]
      exact ⟨not_mem_of_isName hname (by decide) (by decide), hblank.not_mem (by decide)⟩
    have hfalse := h.unlabelled (op ++ l') v' (by rw [hsplit, htail, List.append_assoc]) hcolon
    rw [trim_append_blank hblank, hname] at hfalse
    cases hfalse
  uncalled := by
    intro u v hu hname hlast
    obtain ⟨u, v, rfl, rfl, -⟩ := split_lower (by decide) hu
    rw [isName_trim_lower] at hname
    -- In lower case the line shows the same bytes as its mnemonic and its operands do.
    have hlower : (visible ((u ++ '('.toUInt8 :: v).map lowerByte ++ join ", " args)).map lowerByte =
        (visible r).map lowerByte := by
      rw [hsplit, visible_append, visible_append, ← hvisible, visible_lower, List.map_append, List.map_append,
        lower_lower]
    have hlast' : ((visible r).map lowerByte).getLast? = some ')'.toUInt8 := by
      rw [← hlower, List.getLast?_map, hlast]
      rfl
    rw [List.getLast?_map, Option.map_eq_some_iff] at hlast'
    obtain ⟨b, hb, hparen⟩ := hlast'
    rw [lowerByte_eq_iff (by decide)] at hparen
    obtain ⟨x, hx⟩ := h.eq_concat (hparen ▸ hb)
    have hcut : r.cut '('.toUInt8 = (u, v ++ tail) := by
      rw [hsplit, List.append_assoc, List.cons_append]
      exact cut_append (not_mem_of_isName hname (by decide) (by decide)) _
    refine hcall (callLike_of_test (by rwa [hcut]) (endsWith_iff.mpr ⟨x, hx⟩) (by simp [hsplit]) ?_)
    rw [hcut]
    exact ⟨fun hmem => hop.1 (by simp [hmem]), fun hmem => hop.2 (by simp [hmem])⟩

/-- The instruction of a stripped line is read again as it is written. -/
theorem Stripped.read_again (h : Stripped r) (hr : r ≠ []) (n : Int) :
    Line.ofText n (Item.instr (instruction r).2.2 (instruction r).1 (instruction r).2.1).render =
      ⟨n, [], (instruction r).1, (instruction r).2.1, (instruction r).2.2⟩ := by
  obtain ⟨op, s, parens, hdivided⟩ := exists_divided r
  have hlower : op.toLower = op.map lowerByte :=
    toLower_eq_map fun b hb => h.ascii b (hdivided.subset.1 hb)
  rw [hdivided.instruction, hlower]
  -- A line is read as a call, as a single word or as a word with operands behind it.
  cases hdivided with
  | call hname hop s =>
    have hmarks : marks ('('.toUInt8 :: (s ++ [')'.toUInt8])) = marks (join ", " (operands s)) := by
      rw [marks_parens, marks_congr (visible_operands s)]
    have hne : op ≠ [] := by
      rintro rfl
      cases hname
    exact (h.legible rfl hne hop (areOperands s) hmarks).read_call (by rwa [isName_trim_lower]) n
  | word hw hcall =>
    exact (h.plain hcall (List.append_nil _).symm hr hw (areOperands []) rfl).read n
  | @spaced _ _ sep hw hsep hcall =>
    have hblank : Blank [sep] := by
      rcases hsep with rfl | rfl
      · exact blank_space
      · exact blank_ofChar (c := '\t') rfl
    have hne : op ≠ [] := by
      rintro rfl
      cases not_startsBlank_blank_append hblank (not_blank_of_trim h.trimmed).1
    -- The separator is blank, so it does not show among the operands.
    have hvisible : visible (sep :: s) = visible (join ", " (operands s)) := by
      rw [visible_operands, ← List.singleton_append, visible_append, visible_blank hblank, List.nil_append]
    exact (h.plain hcall rfl hne hw (areOperands s) hvisible).read n

end Stripped

theorem read_indent (n : Int) : Line.ofText n indent = ⟨n, [], [], [], false⟩ := by
  have hunlabelled : Unlabelled [] := by
    intro u v hsplit
    simp at hsplit
  exact ofText_unlabelled n rfl hunlabelled

/-- The instruction on an indented ASCII line is written anew as an instruction that is read as the same. -/
theorem ofText_rewritten {t : Text} (h : t.Ascii) (n : Int) {line : Line} (hline : line = Line.ofText n (indent ++ t))
    (m : Int) :
    Line.ofText m (Item.instr line.parens line.mnemonic line.operands).render =
      ⟨m, [], line.mnemonic, line.operands, line.parens⟩ := by
  obtain ⟨labels, r, hr, -, hread⟩ := ofText_stripped n h
  rw [hline, hread, instructionOn]
  by_cases hne : r = []
  · -- Nothing is left of the line, and the item is an indentation without an instruction.
    rw [if_pos hne]
    exact read_indent m
  · rw [if_neg hne]
    exact hr.read_again hne m

end Asm

open Asm

/-- A line of an exit sequence keeps its meaning: what is emitted for it is read as what was read of the line,
without the labels, and written anew it stays as it is. -/
theorem exit_sequence_kept (p : Profile) : ∀ t ∈ p.exit, t.Ascii → ∃ first again : Line,
    first = Line.ofText 0 (indent ++ t) ∧ again = Line.ofText 0 (Profile.exitItem t).render ∧
    Profile.exitItem t = .instr first.parens first.mnemonic first.operands ∧
    Profile.exitItem t ∈ p.exitCode p.entry ∧
    again.mnemonic = first.mnemonic ∧ again.operands = first.operands ∧ again.parens = first.parens ∧
    again.labels = [] ∧ Profile.exitItem t = .instr again.parens again.mnemonic again.operands := by
  intro t ht hascii
  obtain ⟨first, hfirst⟩ : ∃ first, first = Line.ofText 0 (indent ++ t) := ⟨_, rfl⟩
  have hitem : Profile.exitItem t = .instr first.parens first.mnemonic first.operands := by
    rw [Profile.exitItem, hfirst]
  have hmem : Profile.exitItem t ∈ p.exitCode p.entry := by
    rw [Profile.exitCode, if_pos rfl]
    exact List.mem_map_of_mem ht
  have hagain := ofText_rewritten hascii 0 hfirst 0
  rw [← hitem] at hagain
  exact ⟨first, _, hfirst, hagain.symm, hitem, hmem, rfl, rfl, rfl, rfl, hitem⟩

/-- Labels, tabs, missing operands, a parenthesis that is never closed, and a comment behind a quoted semicolon. -/
def crowdedExit : Text :=
  "q: r :\tLD\t,a ,,(hl \";\", ; done"

theorem exit_sequence_kept_crowded : ∃ p : Profile, crowdedExit ∈ p.exit ∧ crowdedExit.Ascii ∧
    Line.ofText 0 (indent ++ crowdedExit) = ⟨0, ["q", "r"], "ld", [[], "a", [], "(hl \";\","], false⟩ ∧
    ∃ again, again = Line.ofText 0 (Profile.exitItem crowdedExit).render ∧
      again.mnemonic = "ld" ∧ again.operands = [[], "a", [], "(hl \";\","] ∧ again.labels = [] := by
  have hmem : crowdedExit ∈ ({ Profile.standard with exit := [crowdedExit] } : Profile).exit :=
    List.mem_singleton_self _
  have hascii : crowdedExit.Ascii := by decide +kernel
  have hread : Line.ofText 0 (indent ++ crowdedExit) =
      ⟨0, ["q", "r"], "ld", [[], "a", [], "(hl \";\","], false⟩ := by
    decide +kernel
  obtain ⟨first, again, hfirst, hagain, -, -, hmnemonic, hoperands, -, hlabels, -⟩ :=
    exit_sequence_kept _ crowdedExit hmem hascii
  rw [hread] at hfirst
  rw [hfirst] at hmnemonic hoperands
  exact ⟨_, hmem, hascii, hread, again, hagain, hmnemonic, hoperands, hlabels⟩

end Pocket

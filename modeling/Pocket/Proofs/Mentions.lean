import Mathlib
import Pocket.Proofs.Directives
import Pocket.Proofs.Parameters

/-!
# Names that are not mentioned

A text mentions a name if the name is a maximal run of it, leading digits dropped. What macros make of a
text mentions only what the text or the body of a macro mentions: a parameter is a whole word, and
arguments, segments and bodies are cut out between bytes that stand in no word. So a macro that no other
line mentions may stand for anything.
-/

namespace Pocket

open Preprocess
open Text (isDigitByte)

/-! ### Pieces of texts without names -/

section Pieces

variable {value : Text → Option Text} {t x y w : Text} {b : UInt8}

theorem Text.HasRun.before (h : t.HasRun w)
    (hx : (∀ b ∈ x.head?, isWordByte b = false) ∨ ∀ b ∈ t.getLast?, isWordByte b = false) :
    Text.HasRun (t ++ x) w := by
  obtain ⟨before, after, rfl, hrun⟩ := h
  refine ⟨before, after ++ x, by simp, hrun.ne_nil, hrun.word, hrun.start, ?_⟩
  cases after with
  | cons c after => exact hrun.stop
  | nil =>
    rcases hx with hhead | hlast
    · exact hhead
    · -- The run itself ends the text.
      obtain ⟨front, c, rfl⟩ := (List.eq_nil_or_concat' w).resolve_left hrun.ne_nil
      have hword := hrun.word c (by simp)
      rw [hlast c (by simp)] at hword
      cases hword

theorem Front.word_of_cut {rest after : Text} (h : Front.cut b rest = (.word w, after)) :
    IsWord w ∧ ∀ c ∈ after.head?, isWordByte c = false := by
  unfold Front.cut at h
  split at h
  · cases h
  · split at h
    · next hstart =>
      cases h
      exact ⟨⟨b, _, rfl, hstart, List.all_eq_true.mp List.all_takeWhile⟩,
        (Text.first_run_split (isWordByte_of_start hstart) rest).2.2⟩
    · cases h

namespace Text.Nameless

theorem of_front (h : Nameless value (t ++ x))
    (hx : (∀ b ∈ x.head?, isWordByte b = false) ∨ ∀ b ∈ t.getLast?, isWordByte b = false) :
    Nameless value t := fun w hw => h w (hw.before hx)

theorem append (hx : Nameless value x) (hy : Nameless value y)
    (hjoin : (∀ b ∈ x.getLast?, isWordByte b = false) ∨ ∀ b ∈ y.head?, isWordByte b = false) :
    Nameless value (x ++ y) := by
  rintro w ⟨before, after, hsplit, hrun⟩
  rw [List.append_assoc] at hsplit
  rcases List.append_eq_append_iff.mp hsplit with ⟨z, rfl, hy'⟩ | ⟨z, rfl, hwz⟩
  · -- The run lies in the second text.
    refine hy w ⟨z, after, by rw [hy', List.append_assoc], hrun.ne_nil, hrun.word, ?_, hrun.stop⟩
    intro c hc
    refine hrun.start c ?_
    rw [List.getLast?_append, hc]
    rfl
  · rcases List.append_eq_append_iff.mp hwz with ⟨u, rfl, rfl⟩ | ⟨u, rfl, rfl⟩
    · -- The run lies in the first text.
      refine hx w ⟨before, u, by simp, hrun.ne_nil, hrun.word, hrun.start, fun c hc => hrun.stop c ?_⟩
      rw [List.head?_append, hc]
      rfl
    -- The run reaches up to the seam at least; it ends there, begins there or goes over it.
    · cases u with
      | nil => exact hx _ ⟨before, [], by simp, hrun.ne_nil, hrun.word, hrun.start, by simp⟩
      | cons c u =>
        rcases List.eq_nil_or_concat' z with rfl | ⟨z, d, rfl⟩
        · exact hy _ ⟨[], after, by simp, hrun.ne_nil, hrun.word, by simp, hrun.stop⟩
        · -- The run would hold bytes of both.
          have hc := hrun.word c (by simp)
          have hd := hrun.word d (by simp)
          rcases hjoin with hlast | hhead
          · rw [hlast d (by simp)] at hd
            cases hd
          · rw [hhead c (by simp)] at hc
            cases hc

theorem cons (h : Nameless value t) (hb : isWordByte b = false) : Nameless value (b :: t) := by
  have hbyte : Nameless value [b] := by
    rintro w ⟨before, after, hsplit, hrun⟩
    obtain ⟨c, more, rfl⟩ := List.exists_cons_of_ne_nil hrun.ne_nil
    have hmem : c ∈ [b] := by simp [hsplit]
    have hword := hrun.word c List.mem_cons_self
    rw [List.mem_singleton.mp hmem, hb] at hword
    cases hword
  exact hbyte.append h (.inl (by simpa using hb))

theorem digits_append (hnil : value [] = none) {ds : Text} (hds : ∀ d ∈ ds, isDigitByte d = true)
    (h : Nameless value t) : Nameless value (ds ++ t) := by
  induction ds with
  | nil => exact h
  | cons d ds ih =>
    obtain ⟨hd, hds⟩ := List.forall_mem_cons.mp hds
    have hrest := ih hds
    have hword : isWordByte d = true := by
      rw [isDigitByte] at hd
      simp [isWordByte, hd]
    rintro w ⟨before, after, hsplit, hrun⟩
    cases before with
    | nil =>
      obtain ⟨c, more, rfl⟩ := List.exists_cons_of_ne_nil hrun.ne_nil
      obtain ⟨rfl, hmore⟩ := List.cons.inj hsplit
      rw [List.dropWhile_cons_of_pos hd]
      cases more with
      | nil => exact hnil
      | cons e more =>
        refine hrest _ ⟨[], after, by simpa using hmore, List.cons_ne_nil _ _, ?_, by simp, hrun.stop⟩
        exact (List.forall_mem_cons.mp hrun.word).2
    | cons c before =>
      obtain ⟨rfl, hmore⟩ := List.cons.inj hsplit
      refine hrest w ⟨before, after, by simpa using hmore, hrun.ne_nil, hrun.word, fun e he => ?_, hrun.stop⟩
      refine hrun.start e ?_
      rw [← List.singleton_append, List.getLast?_append, he]
      rfl

theorem of_gap {l r : Text} (h : Nameless value (l ++ t ++ r)) (hl : l.IsGap) (hr : r.IsGap) :
    Nameless value t := by
  refine (h.of_front (.inl hr.head)).of_append (.inl fun b hb => ?_)
  exact (hl b (List.mem_of_getLast? hb)).1

theorem trim (h : Nameless value t) : Nameless value t.trim := by
  obtain ⟨l, r, hsplit, hl, hr, -⟩ := t.exists_trim_split
  rw [hsplit] at h
  exact h.of_gap hl.isGap hr.isGap

theorem of_join {pieces : List Text} (h : Nameless value (join "," pieces)) :
    ∀ p ∈ pieces, Nameless value p := by
  induction pieces with
  | nil => nofun
  | cons p rest ih =>
    cases rest with
    | nil => simpa [join, List.intercalate] using h
    | cons q rest =>
      have hcomma : ofString "," = [','.toUInt8] := rfl
      rw [join, List.intercalate_cons_cons, ← join] at h
      refine List.forall_mem_cons.mpr ⟨?_, ih (h.of_append (.inl fun b hb => ?_))⟩
      · rw [List.append_assoc] at h
        refine h.of_front (.inl fun b hb => ?_)
        obtain rfl : ','.toUInt8 = b := Option.some.inj hb
        rfl
      · rw [hcomma, List.getLast?_concat] at hb
        obtain rfl : ','.toUInt8 = b := Option.some.inj hb
        rfl

theorem arguments {args : List Text} {beyond : Text} (h : Nameless value t)
    (hargs : ListsArguments t args beyond) : (∀ a ∈ args, Nameless value a) ∧ Nameless value beyond := by
  obtain ⟨gap, raws, hgap, -, -, rfl, rfl⟩ := hargs
  have hopen : Nameless value (join "," raws ++ ')'.toUInt8 :: beyond) := by
    rw [← List.singleton_append, ← List.append_assoc] at h
    exact h.of_append (.inl (by simp; decide))
  constructor
  · intro a ha
    obtain ⟨raw, hraw, rfl⟩ := List.mem_map.mp ha
    exact (hopen.of_front (.inl (by simp; decide))).of_join raw hraw |>.trim
  · rw [← List.singleton_append, ← List.append_assoc] at hopen
    exact hopen.of_append (.inl (by simp; decide))

theorem replaceWords {σ : Text → Option Text} (hnil : value [] = none) (h : Nameless value t)
    (hσ : ∀ w v, σ w = some v → Nameless value v) : Nameless value (t.replaceWords σ) := by
  obtain ⟨ps, hps⟩ := t.exists_parts
  rw [hps.replaceWords_eq]
  induction hps with
  | nil => exact nameless_nil
  | @literal body rest ps hbody _ ih =>
    have hsplit : '"'.toUInt8 :: (body ++ '"'.toUInt8 :: rest) =
        ('"'.toUInt8 :: body ++ ['"'.toUInt8]) ++ rest := by simp
    -- A literal ends in its quote, which is in no word, so the two sides can be looked at one by one.
    have hquote : ∀ b ∈ List.getLast? ('"'.toUInt8 :: body ++ ['"'.toUInt8]), isWordByte b = false := by
      intro b hb
      rw [List.getLast?_concat] at hb
      obtain rfl : '"'.toUInt8 = b := Option.some.inj hb
      rfl
    rw [hsplit] at h
    exact (h.of_front (.inr hquote)).append (ih (h.of_append (.inl hquote))) (.inl hquote)
  | unclosed => simpa [CodePart.expanded] using h
  | @run w rest ps hne hw hstop hrest ih =>
    have hwhole := h.of_front (.inl hstop)
    refine .append ?_ (ih (h.of_append (.inr hstop))) (.inr (hrest.head_expanded hstop))
    rw [CodePart.expanded]
    split
    · next hdigits =>
      rw [List.append_nil, takeWhile_digits hdigits]
      exact hwhole
    -- A name may stand behind digits, which stay in front of its value.
    · cases hvalue : σ (w.dropWhile isDigitByte) with
      | none =>
        rw [Option.getD_none, List.takeWhile_append_dropWhile]
        exact hwhole
      | some v => exact digits_append hnil (digits_split hw).1 (hσ _ v hvalue)
  | byte _ hb _ ih => exact (ih (h.of_cons hb)).cons hb

theorem instantiate {m : Macro} {args : List Text} (hnil : value [] = none) (hbody : Nameless value m.body)
    (hargs : ∀ a ∈ args, Nameless value a) : Nameless value (m.instantiate args) := by
  refine hbody.replaceWords hnil fun w v hv => hargs v ?_
  exact (List.of_mem_zip (List.mem_reverse.mp (mem_of_lookup hv))).2

theorem behind_mark {region : Region} {held mark inside after : Text} (h : Nameless value (held ++ t))
    (hmark : region.closing? = some mark) (hcut : cutAfter? mark t = some (inside, after)) :
    Nameless value after := by
  obtain ⟨rfl, before, rfl⟩ := cutAfter?_eq_some hcut
  rw [← List.append_assoc] at h
  refine h.of_append (.inl fun b hb => Region.closing?_last hmark b ?_)
  obtain ⟨front, c, rfl⟩ := (List.eq_nil_or_concat' mark).resolve_left (Region.closing?_class hmark).2
  simpa using hb

/-- Code is cut out of a line between bytes that stand in no word, or behind a whole word. -/
theorem segment {region : Region} {held rest : Text} (h : Nameless value (held ++ rest)) :
    ∀ t, .code t ∈ (region.segments held rest).1 → Nameless value t := by
  fun_induction Region.segments region held rest with
  | case1 region held =>
    intro t ht
    rw [List.append_nil] at h
    split at ht
    · obtain rfl : t = held := by simpa using ht
      exact h
    · simp at ht
  | case2 held b tail _ | case4 held b tail _ => simp
  -- Behind the mark that closes a region the text begins anew.
  | case3 held b tail inside after hcut ih =>
    intro t ht
    have hmark : Region.closing? .asmBody = some "\x7d" := rfl
    exact ih (h.behind_mark hmark hcut) t (by simpa [Region.lead] using ht)
  | case5 held b tail inside after hcut ih =>
    intro t ht
    have hmark : Region.closing? .comment = some "*/" := rfl
    exact ih (h.behind_mark hmark hcut) t (by simpa [Region.lead] using ht)
  | case6 held b tail _ ih => exact ih (by simpa using h)
  | case7 held tail _ ih =>
    intro t ht
    rw [← List.singleton_append, ← List.append_assoc] at h
    exact ih (h.of_append (.inl (by simp; decide))) t (by simpa [Region.lead] using ht)
  | case8 held b tail _ _ ih => exact ih h
  | case9 held b tail hline =>
    intro t ht
    obtain ⟨more, hmore⟩ := startsWith_iff.mp hline
    obtain rfl : '/'.toUInt8 = b := (List.cons.inj hmore).1
    obtain rfl : t = held := by simpa using ht
    exact h.of_front (.inl (by simp; decide))
  -- Code is cut before the slash, which is in no word.
  | case10 held b tail _ hblock ih =>
    intro t ht
    obtain ⟨more, hmore⟩ := startsWith_iff.mp hblock
    obtain ⟨hslash, hstar⟩ := List.cons.inj hmore
    obtain rfl : '/'.toUInt8 = b := hslash
    obtain rfl : '*'.toUInt8 :: more = tail := hstar
    rcases List.mem_cons.mp ht with hfirst | ht
    · cases hfirst
      exact h.of_front (.inl (by simp; decide))
    · exact ih (h.of_append (.inr (by simp; decide))) t ht
  | case11 held b tail _ _ t after hcut ih =>
    rw [← Front.cut_split hcut, Front.bytes, ← List.append_assoc] at h
    exact ih h
  -- Code is cut behind the word, where no further byte of a word stands.
  | case12 held b tail _ _ after hcut ih =>
    intro t ht
    have hstop := (Front.word_of_cut hcut).2
    rw [← Front.cut_split hcut, Front.bytes, ← List.append_assoc] at h
    rcases List.mem_cons.mp ht with hfirst | ht
    · cases hfirst
      exact h.of_front (.inl hstop)
    · exact ih (h.of_append (.inr hstop)) t ht
  | case13 held b tail _ _ w after hcut _ ih =>
    rw [← Front.cut_split hcut, Front.bytes, ← List.append_assoc] at h
    exact ih h

end Text.Nameless

end Pieces

/-! ### Definitions -/

theorem Directive.not_wordByte_of_endsName {b : UInt8} (hb : endsName b = true) : isWordByte b = false := by
  rw [← Bool.not_eq_true]
  intro hword
  rw [endsName_of_wordByte hword] at hb
  cases hb

theorem Text.Nameless.definition {value : Text → Option Text} {line d name : Text} {m : Macro}
    (h : Nameless value line) (hline : Directive.ofLine line = .definition d)
    (hread : Directive.readDefinition d = .ok (name, m)) : Nameless value m.body := by
  obtain ⟨l, gap, r, rfl, -, -, hr, -⟩ := Directive.exists_split_of_definition hline
  have hfront := h.of_front (.inl hr.isGap.head)
  obtain ⟨hdefines, -⟩ := Directive.defines_of_read hread
  cases hdefines with
  | bare => exact nameless_nil
  | body after hb hparen =>
    rw [← List.append_assoc] at hfront
    refine (hfront.of_append (.inr fun c hc => ?_)).trim
    obtain rfl := Option.some.inj hc
    exact Directive.not_wordByte_of_endsName hb
  | @list list body hlist =>
    have hsplit : l ++ "#define" ++ gap ++ Directive.withList name list body =
        (l ++ "#define" ++ gap ++ (name ++ '('.toUInt8 :: list) ++ [')'.toUInt8]) ++ body := by
      simp [Directive.withList]
    rw [hsplit] at hfront
    refine (hfront.of_append (.inl ?_)).trim
    intro b hb
    rw [List.getLast?_concat] at hb
    obtain rfl := Option.some.inj hb
    rfl

/-! ### Macros that differ in one name -/

/-- A name is mentioned where it is a maximal run, digits in front of it aside. -/
def Text.Mentions (t name : Text) : Prop :=
  ∃ w, t.HasRun w ∧ w.dropWhile isDigitByte = name

theorem Text.Mentions.subset {t name : Text} (h : t.Mentions name) : name ⊆ t := by
  obtain ⟨w, ⟨before, after, rfl, -⟩, rfl⟩ := h
  intro b hb
  have hw : b ∈ w := (List.dropWhile_suffix _).subset hb
  simp [hw]

/-- A value for one name alone. -/
def marked (name w : Text) : Option Text :=
  if w = name ∧ w ≠ [] then some [] else none

theorem Text.nameless_of_not_mentions {t name : Text} (h : ¬t.Mentions name) : t.Nameless (marked name) :=
  fun w hw => if_neg fun heq => h ⟨w, hw, heq.1⟩

/-- Macros that agree on all words but one, which is not in the body of a macro with parameters. -/
structure Macros.AlikeBut (name : Text) (ms ms' : Macros) : Prop where
  lookup : ∀ w, IsWord w → w ≠ name → ms'.lookup w = ms.lookup w
  bodies : ∀ w m, IsWord w → w ≠ name → ms.lookup w = some m → m.params ≠ [] →
    m.body.Nameless (marked name)

namespace Macros.AlikeBut

variable {name n n' : Text} {ms ms' : Macros} {m m' : Macro}

theorem ne_of_nameless {b : UInt8} {rest w after : Text} (ht : Text.Nameless (marked name) (b :: rest))
    (hcut : Front.cut b rest = (.word w, after)) : IsWord w ∧ w ≠ name := by
  have hw := (Front.word_of_cut hcut).1
  refine ⟨hw, fun heq => hw.ne_nil ?_⟩
  have hkept := (ht.front hcut).1
  rw [Front.written, marked, if_pos ⟨heq, hw.ne_nil⟩] at hkept
  exact hkept.symm

theorem alikeOn (h : AlikeBut name ms ms') : AlikeOn (Text.Nameless (marked name)) ms ms' where
  lookup ht hcut := by
    obtain ⟨hw, hne⟩ := ne_of_nameless ht hcut
    rw [h.lookup _ hw hne]
    exact Macros.Alike.refl ms _
  behind ht hcut := (ht.front hcut).2
  call ht hcut hm hparams hcall := by
    obtain ⟨hw, hne⟩ := ne_of_nameless ht hcut
    obtain ⟨hargs, hbeyond⟩ := (ht.front hcut).2.arguments (Macro.call?_eq_some_iff.mp hcall).1
    exact ⟨.instantiate (by simp [marked]) (h.bodies _ _ hw hne hm hparams) hargs, hbeyond⟩

theorem define (h : AlikeBut name ms ms') (n : Text) (hm : m.params ≠ [] → m.body.Nameless (marked name)) :
    AlikeBut name (ms.define n m) (ms'.define n m) where
  lookup w hw hne := by
    rw [Macros.define, Macros.define, List.lookup_cons, List.lookup_cons, h.lookup w hw hne]
  bodies w m' hw hne hm' hparams := by
    rcases lookup_define hm' with rfl | hm'
    · exact hm hparams
    · exact h.bodies w m' hw hne hm' hparams

theorem redefine (h : AlikeBut name ms ms') (hn : IsWord n → n = name) (hn' : IsWord n' → n' = name)
    (m m' : Macro) : AlikeBut name (ms.define n m) (ms'.define n' m') := by
  have hother : ∀ {n w : Text} (us : Macros) (u : Macro), (IsWord n → n = name) → IsWord w → w ≠ name →
      (us.define n u).lookup w = us.lookup w := by
    intro n w us u hn hw hne
    have hbeq : (w == n) = false := by
      rw [beq_eq_false_iff_ne]
      rintro rfl
      exact hne (hn hw)
    rw [Macros.define, List.lookup_cons, hbeq]
  refine ⟨fun w hw hne => ?_, fun w u hw hne hu => ?_⟩
  · rw [hother _ _ hn hw hne, hother _ _ hn' hw hne, h.lookup w hw hne]
  · rw [hother _ _ hn hw hne] at hu
    exact h.bodies w u hw hne hu

end Macros.AlikeBut

namespace Preprocess

theorem code_of_role {s : State} {line : Text} {role : Directive} (h : s.role line = role)
    (hrole : role ≠ .plain) : s.region = .code ∧ Directive.ofLine line = role := by
  rw [State.role, roleIn] at h
  split at h
  · next hcode => exact ⟨hcode, h⟩
  · exact absurd h.symm hrole

/-- States that differ at most in the macro of one name. -/
structure State.AlikeBut (name : Text) (s s' : State) : Prop where
  macros : s.macros.AlikeBut name s'.macros
  spliced : s'.spliced = s.spliced
  region : s'.region = s.region

/-- A line that does not mention a name and includes no file. -/
structure Unaware (name line : Text) : Prop where
  silent : ¬line.Mentions name
  noInclude : ∀ d, Directive.ofLine line ≠ .inclusion d

theorem kept_alikeBut (disk : Disk) (depth : Nat) (name : Text) :
    Kept disk depth (Unaware name) (State.AlikeBut name) where
  region h := h.region
  addSpliced place h := ⟨h.macros, by rw [State.addSpliced, State.addSpliced, h.spliced], h.region⟩
  asks dir reading s s' line h hline := by
    have hon := h.macros.alikeOn
    have hnameless := Text.nameless_of_not_mentions hline.silent
    refine action_alike h.spliced h.region (fun d hrole => ?_) (fun _ => ⟨?_, h.macros, h.spliced, rfl⟩) h
    · have hbody : ∀ n m, Directive.readDefinition d = .ok (n, m) → m.body.Nameless (marked name) := by
        intro n m hread
        exact hnameless.definition (code_of_role hrole (by simp)).2 hread
      rcases Directive.macrosAfter_alike (fun n m hread => hon.expand (hbody n m hread))
        (fun n m hread => h.macros.define n fun hm => hbody n m (hread hm)) with herror | ⟨us, us', hus, hus', halike⟩
      · exact .inl herror
      · exact .inr ⟨us, us', hus, hus', halike, h.spliced, h.region⟩
    · exact hon.expandAll (Text.Nameless.segment hnameless)
  contents hline haction := by
    obtain ⟨-, ⟨d, hrole⟩, -⟩ := action_enter haction
    exact absurd (code_of_role hrole (by simp)).2 (hline.noInclude d)

end Preprocess

end Pocket

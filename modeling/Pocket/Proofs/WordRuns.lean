import Mathlib
import Pocket.Proofs.Expansion
import Pocket.Text.Numeral

/-!
# Whole words

A code text falls into string literals, maximal runs of word bytes and single other bytes, in one way
only. Macros without parameters are put in the place of whole runs, with one exception: the digits that a
run begins with are kept apart, so that behind them the rest of the run is replaced, and a run that begins
with a digit is never replaced as a whole.
-/

namespace Pocket

open Text (isDigitByte)

/-! ### Maximal runs -/

/-- A run of word bytes with no word byte directly before or behind it. -/
structure MaximalRun (before w after : Text) : Prop where
  ne_nil : w ≠ []
  word : ∀ b ∈ w, isWordByte b = true
  start : ∀ b ∈ before.getLast?, isWordByte b = false
  stop : ∀ b ∈ after.head?, isWordByte b = false

/-- A text has a maximal run of word bytes. -/
def Text.HasRun (t w : Text) : Prop :=
  ∃ before after, t = before ++ w ++ after ∧ MaximalRun before w after

section Runs

variable {t w x rest : Text} {b : UInt8}

theorem Text.hasRun_first (hne : w ≠ []) (hw : ∀ b ∈ w, isWordByte b = true)
    (hrest : ∀ b ∈ rest.head?, isWordByte b = false) : Text.HasRun (w ++ rest) w :=
  ⟨[], rest, rfl, hne, hw, by simp, hrest⟩

/-- What stands before a text leaves its runs as they are, if none of them grows by it. -/
theorem Text.HasRun.behind (h : t.HasRun w)
    (hx : (∀ b ∈ x.getLast?, isWordByte b = false) ∨ ∀ b ∈ t.head?, isWordByte b = false) :
    Text.HasRun (x ++ t) w := by
  obtain ⟨before, after, rfl, hrun⟩ := h
  refine ⟨x ++ before, after, by simp, hrun.ne_nil, hrun.word, ?_, hrun.stop⟩
  intro b hb
  rw [List.getLast?_append] at hb
  cases hbefore : before.getLast? with
  | some c =>
    rw [hbefore] at hb
    obtain rfl : c = b := by simpa using hb
    exact hrun.start c hbefore
  | none =>
    rw [hbefore, Option.none_or] at hb
    rcases hx with hlast | hhead
    · exact hlast b hb
    · -- The run itself begins the text.
      obtain rfl := List.getLast?_eq_none_iff.mp hbefore
      obtain ⟨c, more, rfl⟩ := List.exists_cons_of_ne_nil hrun.ne_nil
      have hword := hrun.word c List.mem_cons_self
      rw [hhead c rfl] at hword
      cases hword

theorem isWordStart_of_not_digit (hword : isWordByte b = true) (hdigit : isDigitByte b = false) :
    isWordStart b = true := by
  rw [isDigitByte] at hdigit
  rwa [isWordByte, hdigit, Bool.or_false] at hword

theorem digit_class (h : isDigitByte b = true) : b ≠ '"'.toUInt8 ∧ isWordStart b = false := by
  simp only [isDigitByte, Bool.and_eq_true, decide_eq_true_eq, UInt8.le_iff_toNat_le] at h
  have hlow : 48 ≤ b.toNat := h.1
  have hhigh : b.toNat ≤ 57 := h.2
  have hne : ∀ c : UInt8, c.toNat < 48 ∨ 57 < c.toNat → b ≠ c := by
    rintro c hc rfl
    omega
  refine ⟨hne _ (.inl (by decide)), ?_⟩
  have ha : ¬97 ≤ b.toNat := by omega
  have hA : ¬65 ≤ b.toNat := by omega
  have hunderscore : b ≠ '_'.toUInt8 := hne _ (.inr (by decide))
  simp only [isWordStart, Bool.or_eq_false_iff, Bool.and_eq_false_iff, decide_eq_false_iff_not,
    beq_eq_false_iff_ne, UInt8.le_iff_toNat_le]
  exact ⟨⟨.inl ha, .inl hA⟩, hunderscore⟩

/-- The digits that a run begins with, and the word behind them. -/
theorem digits_split (hw : ∀ b ∈ w, isWordByte b = true) :
    (∀ b ∈ w.takeWhile isDigitByte, isDigitByte b = true) ∧
      (w.dropWhile isDigitByte = [] ∨ ∃ b more, w.dropWhile isDigitByte = b :: more ∧
        isWordStart b = true ∧ ∀ c ∈ more, isWordByte c = true) := by
  refine ⟨List.all_eq_true.mp List.all_takeWhile, ?_⟩
  cases hdrop : w.dropWhile isDigitByte with
  | nil => exact .inl rfl
  | cons b more =>
    have hmem : ∀ c ∈ b :: more, isWordByte c = true := fun c hc =>
      hw c ((List.dropWhile_suffix _).subset (hdrop ▸ hc))
    have hdigit := List.head?_dropWhile_not isDigitByte w
    rw [hdrop] at hdigit
    exact .inr ⟨b, more, rfl,
      isWordStart_of_not_digit (hmem b List.mem_cons_self) (by simpa using hdigit),
      fun c hc => hmem c (List.mem_cons_of_mem _ hc)⟩

end Runs

/-! ### Parts of a code text -/

/-- What may stand between the quotes of a string literal: a backslash takes the next byte along. -/
inductive LiteralBody : Text → Prop where
  | nil : LiteralBody []
  | escape {t : Text} (b : UInt8) (ht : LiteralBody t) : LiteralBody ('\\'.toUInt8 :: b :: t)
  | byte {b : UInt8} {t : Text} (hquote : b ≠ '"'.toUInt8) (hescape : b ≠ '\\'.toUInt8)
      (ht : LiteralBody t) : LiteralBody (b :: t)

/-- A part of a code text. -/
inductive CodePart where
  | literal (t : Text)
  | run (w : Text)
  | byte (b : UInt8)

/-- The parts that a code text falls into. A string literal without a closing quote goes on to the end;
there a backslash may have nothing to take along. -/
inductive Text.Parts : Text → List CodePart → Prop where
  | nil : Parts [] []
  | literal {body rest : Text} {ps : List CodePart} (hbody : LiteralBody body) (hrest : Parts rest ps) :
      Parts ('"'.toUInt8 :: (body ++ '"'.toUInt8 :: rest))
        (.literal ('"'.toUInt8 :: (body ++ ['"'.toUInt8])) :: ps)
  | unclosed {body tail : Text} (hbody : LiteralBody body) (htail : tail = [] ∨ tail = ['\\'.toUInt8]) :
      Parts ('"'.toUInt8 :: (body ++ tail)) [.literal ('"'.toUInt8 :: (body ++ tail))]
  | run {w rest : Text} {ps : List CodePart} (hne : w ≠ []) (hw : ∀ b ∈ w, isWordByte b = true)
      (hstop : ∀ b ∈ rest.head?, isWordByte b = false) (hrest : Parts rest ps) :
      Parts (w ++ rest) (.run w :: ps)
  | byte {b : UInt8} {rest : Text} {ps : List CodePart} (hquote : b ≠ '"'.toUInt8)
      (hb : isWordByte b = false) (hrest : Parts rest ps) : Parts (b :: rest) (.byte b :: ps)

section Literals

variable {body tail rest t : Text}

theorem LiteralBody.cut (h : LiteralBody body) (rest : Text) :
    Text.cutLiteral (body ++ '"'.toUInt8 :: rest) = (body ++ ['"'.toUInt8], rest) := by
  induction h with
  | nil => exact Text.cutLiteral_quote rest
  | escape b _ ih => rw [List.cons_append, List.cons_append, Text.cutLiteral_escape, ih]; rfl
  | byte hquote hescape _ ih => rw [List.cons_append, Text.cutLiteral_other hquote hescape, ih]; rfl

theorem LiteralBody.cut_unclosed (h : LiteralBody body) (htail : tail = [] ∨ tail = ['\\'.toUInt8]) :
    Text.cutLiteral (body ++ tail) = (body ++ tail, []) := by
  induction h with
  | nil => rcases htail with rfl | rfl <;> rfl
  | escape b _ ih => rw [List.cons_append, List.cons_append, Text.cutLiteral_escape, ih]
  | byte hquote hescape _ ih => rw [List.cons_append, Text.cutLiteral_other hquote hescape, ih]

theorem literalBody_cases (t : Text) : ∃ body, LiteralBody body ∧
    ((∃ rest, t = body ++ '"'.toUInt8 :: rest) ∨
      ∃ tail, (tail = [] ∨ tail = ['\\'.toUInt8]) ∧ t = body ++ tail) := by
  fun_induction Text.cutLiteral t with
  | case1 => exact ⟨[], .nil, .inr ⟨[], .inl rfl, rfl⟩⟩
  | case2 rest => exact ⟨[], .nil, .inl ⟨rest, rfl⟩⟩
  | case3 => exact ⟨[], .nil, .inr ⟨_, .inr rfl, rfl⟩⟩
  | case4 c rest literal after _ _ ih =>
    obtain ⟨body, hbody, ⟨more, hmore⟩ | ⟨tail, htail, hmore⟩⟩ := ih
    · exact ⟨_, .escape c hbody, .inl ⟨more, by rw [hmore]; rfl⟩⟩
    · exact ⟨_, .escape c hbody, .inr ⟨tail, htail, by rw [hmore]; rfl⟩⟩
  | case5 b rest hquote hescape literal after _ ih =>
    obtain ⟨body, hbody, ⟨more, hmore⟩ | ⟨tail, htail, hmore⟩⟩ := ih
    · exact ⟨_, .byte hquote hescape hbody, .inl ⟨more, by rw [hmore]; rfl⟩⟩
    · exact ⟨_, .byte hquote hescape hbody, .inr ⟨tail, htail, by rw [hmore]; rfl⟩⟩

end Literals

namespace Text

variable {t : Text} {ps qs : List CodePart}

theorem first_run_split {b : UInt8} (hb : isWordByte b = true) (rest : Text) :
    b :: rest = (b :: rest.takeWhile isWordByte) ++ rest.dropWhile isWordByte ∧
      (∀ c ∈ b :: rest.takeWhile isWordByte, isWordByte c = true) ∧
      ∀ c ∈ (rest.dropWhile isWordByte).head?, isWordByte c = false := by
  refine ⟨by rw [List.cons_append, List.takeWhile_append_dropWhile],
    List.forall_mem_cons.mpr ⟨hb, List.all_eq_true.mp List.all_takeWhile⟩, fun c hc => ?_⟩
  have hhead := List.head?_dropWhile_not isWordByte rest
  rw [Option.mem_def.mp hc] at hhead
  simpa using hhead

theorem exists_parts (t : Text) : ∃ ps, t.Parts ps := by
  -- A literal or a run is passed in one step, so the induction is on the length.
  generalize hn : t.length = n
  induction n using Nat.strongRecOn generalizing t with
  | ind n ih =>
    cases t with
    | nil => exact ⟨[], .nil⟩
    | cons b rest =>
      rw [List.length_cons] at hn
      by_cases hquote : b = '"'.toUInt8
      · subst hquote
        obtain ⟨body, hbody, ⟨more, rfl⟩ | ⟨tail, htail, rfl⟩⟩ := literalBody_cases rest
        · rw [List.length_append, List.length_cons] at hn
          obtain ⟨ps, hps⟩ := ih more.length (by omega) more rfl
          exact ⟨_, .literal hbody hps⟩
        · exact ⟨_, .unclosed hbody htail⟩
      · by_cases hb : isWordByte b = true
        · have hdrop := (List.dropWhile_suffix isWordByte (l := rest)).length_le
          obtain ⟨ps, hps⟩ := ih (rest.dropWhile isWordByte).length (by omega) _ rfl
          obtain ⟨hsplit, hword, hstop⟩ := first_run_split hb rest
          rw [hsplit]
          exact ⟨_, .run (List.cons_ne_nil _ _) hword hstop hps⟩
        · obtain ⟨ps, hps⟩ := ih rest.length (by omega) rest rfl
          exact ⟨_, .byte hquote (by simpa using hb) hps⟩

/-! #### There is one way only -/

theorem Parts.inv_nil (h : Parts [] ps) : ps = [] := by
  generalize hs : ([] : Text) = s at h
  cases h with
  | nil => rfl
  | literal => cases hs
  | unclosed => cases hs
  | run hne => exact absurd (List.append_eq_nil_iff.mp hs.symm).1 hne
  | byte => cases hs

theorem Parts.inv_quote (h : Parts ('"'.toUInt8 :: t) ps) :
    ∃ qs, ps = .literal ('"'.toUInt8 :: t.cutLiteral.1) :: qs ∧ t.cutLiteral.2.Parts qs := by
  generalize hs : '"'.toUInt8 :: t = s at h
  cases h with
  | nil => cases hs
  | literal hbody hrest =>
    obtain rfl := (List.cons.inj hs).2
    rw [hbody.cut]
    exact ⟨_, rfl, hrest⟩
  | unclosed hbody htail =>
    obtain rfl := (List.cons.inj hs).2
    rw [hbody.cut_unclosed htail]
    exact ⟨_, rfl, .nil⟩
  | @run w rest ps hne hw hstop hrest =>
    obtain ⟨c, more, rfl⟩ := List.exists_cons_of_ne_nil hne
    have hc := hw c List.mem_cons_self
    rw [← (List.cons.inj hs).1] at hc
    exact absurd hc (by decide)
  | byte hquote => exact absurd (List.cons.inj hs).1.symm hquote

theorem Parts.inv_word {b : UInt8} (hb : isWordByte b = true) (h : Parts (b :: t) ps) :
    ∃ qs, ps = .run (b :: t.takeWhile isWordByte) :: qs ∧ Parts (t.dropWhile isWordByte) qs := by
  have hquote := (isWordByte_class hb).2.1
  generalize hs : b :: t = s at h
  cases h with
  | nil => cases hs
  | literal => exact absurd (List.cons.inj hs).1 hquote
  | unclosed => exact absurd (List.cons.inj hs).1 hquote
  | @run w rest ps hne hw hstop hrest =>
    obtain ⟨c, more, rfl⟩ := List.exists_cons_of_ne_nil hne
    rw [List.cons_append] at hs
    obtain ⟨rfl, rfl⟩ := List.cons.inj hs
    have hmore : ∀ d ∈ more, isWordByte d = true := fun d hd => hw d (List.mem_cons_of_mem _ hd)
    rw [List.takeWhile_append_of_pos hmore, List.dropWhile_append_of_pos hmore]
    cases rest with
    | nil => exact ⟨_, by simp, hrest⟩
    | cons d rest => simpa [hstop d rfl] using hrest
  | byte _ hnot =>
    rw [← (List.cons.inj hs).1, hb] at hnot
    cases hnot

theorem Parts.inv_byte {b : UInt8} (hquote : b ≠ '"'.toUInt8) (hb : isWordByte b = false)
    (h : Parts (b :: t) ps) : ∃ qs, ps = .byte b :: qs ∧ t.Parts qs := by
  generalize hs : b :: t = s at h
  cases h with
  | nil => cases hs
  | literal => exact absurd (List.cons.inj hs).1 hquote
  | unclosed => exact absurd (List.cons.inj hs).1 hquote
  | @run w rest ps hne hw =>
    obtain ⟨c, more, rfl⟩ := List.exists_cons_of_ne_nil hne
    have hc := hw c List.mem_cons_self
    rw [← (List.cons.inj hs).1, hb] at hc
    cases hc
  | byte _ _ hrest =>
    obtain ⟨rfl, rfl⟩ := List.cons.inj hs
    exact ⟨_, rfl, hrest⟩

theorem Parts.unique (h : t.Parts ps) (h' : t.Parts qs) : qs = ps := by
  generalize hn : t.length = n
  induction n using Nat.strongRecOn generalizing t ps qs with
  | ind n ih =>
    cases t with
    | nil => rw [h.inv_nil, h'.inv_nil]
    | cons b rest =>
      rw [List.length_cons] at hn
      by_cases hquote : b = '"'.toUInt8
      · subst hquote
        have hlength := cutLiteral_length rest
        obtain ⟨ps', rfl, hps⟩ := h.inv_quote
        obtain ⟨qs', rfl, hqs⟩ := h'.inv_quote
        rw [ih _ (by omega) hps hqs rfl]
      · by_cases hb : isWordByte b = true
        · have hlength := (List.dropWhile_suffix isWordByte (l := rest)).length_le
          obtain ⟨ps', rfl, hps⟩ := h.inv_word hb
          obtain ⟨qs', rfl, hqs⟩ := h'.inv_word hb
          rw [ih _ (by omega) hps hqs rfl]
        · have hb : isWordByte b = false := by simpa using hb
          obtain ⟨ps', rfl, hps⟩ := h.inv_byte hquote hb
          obtain ⟨qs', rfl, hqs⟩ := h'.inv_byte hquote hb
          rw [ih _ (by omega) hps hqs rfl]

/-- A run among the parts is maximal in the whole text. -/
theorem Parts.hasRun {w : Text} (h : t.Parts ps) (hmem : .run w ∈ ps) : t.HasRun w := by
  induction h with
  | nil => cases hmem
  | @literal body rest ps hbody _ ih =>
    rcases List.mem_cons.mp hmem with heq | hmem
    · cases heq
    -- The quote that closes the literal is in no word, so a run behind it is maximal in the whole text, too.
    · have hrun : HasRun (('"'.toUInt8 :: (body ++ ['"'.toUInt8])) ++ rest) w := by
        refine (ih hmem).behind (.inl fun c hc => ?_)
        rw [← List.cons_append, List.getLast?_concat] at hc
        obtain rfl : '"'.toUInt8 = c := by simpa using hc
        decide
      simpa using hrun
  | unclosed => simp at hmem
  | run hne hw hstop _ ih =>
    rcases List.mem_cons.mp hmem with heq | hmem
    · cases heq
      exact hasRun_first hne hw hstop
    · exact (ih hmem).behind (.inr hstop)
  | @byte b rest ps _ hb _ ih =>
    rcases List.mem_cons.mp hmem with heq | hmem
    · cases heq
    · have hrun : HasRun ([b] ++ rest) w := by
        refine (ih hmem).behind (.inl fun c hc => ?_)
        obtain rfl : b = c := by simpa using hc
        exact hb
      exact hrun

end Text

/-! ### What a part is replaced by -/

namespace CodePart

/-- A run is replaced if it has a value. -/
def replaced (value : Text → Option Text) : CodePart → Text
  | .literal t => t
  | .run w => (value w).getD w
  | .byte b => [b]

/-- The word behind the digits that a run begins with is replaced if it has a value. -/
def expanded (value : Text → Option Text) : CodePart → Text
  | .literal t => t
  | .run w =>
    let word := w.dropWhile isDigitByte
    w.takeWhile isDigitByte ++ if word = [] then [] else (value word).getD word
  | .byte b => [b]

variable {value : Text → Option Text} {w : Text} {ps : List CodePart}

theorem expanded_eq_replaced (hne : w ≠ []) (h : (∃ d ∈ w.head?, isDigitByte d = true) →
      value w = none ∧ value (w.dropWhile isDigitByte) = none) :
    expanded value (.run w) = replaced value (.run w) := by
  obtain ⟨d, more, rfl⟩ := List.exists_cons_of_ne_nil hne
  by_cases hd : isDigitByte d = true
  · obtain ⟨hrun, hword⟩ := h ⟨d, rfl, hd⟩
    rw [expanded, replaced, hrun, hword]
    dsimp only [Option.getD_none]
    rw [ite_eq_right_iff.mpr fun hnil => hnil.symm, List.takeWhile_append_dropWhile]
  · simp [expanded, replaced, hd]

end CodePart

theorem Text.replaceWords_run {value : Text → Option Text} {w rest : Text}
    (hw : ∀ b ∈ w, isWordByte b = true) (hrest : ∀ b ∈ rest.head?, isWordByte b = false) :
    replaceWords value (w ++ rest) = CodePart.expanded value (.run w) ++ replaceWords value rest := by
  obtain ⟨hdigits, hword⟩ := digits_split hw
  have hsplit : w ++ rest = w.takeWhile isDigitByte ++ (w.dropWhile isDigitByte ++ rest) := by
    rw [← List.append_assoc, List.takeWhile_append_dropWhile]
  rw [hsplit, replaceWords_bytes fun b hb => digit_class (hdigits b hb), CodePart.expanded]
  rcases hword with hnil | ⟨b, more, hcons, hstart, hmore⟩
  · simp [hnil]
  · rw [hcons, List.cons_append, replaceWords_cons (Front.cut_word hstart hmore hrest)]
    simp [Front.written]

theorem Text.Parts.replaceWords_eq {value : Text → Option Text} {t : Text} {ps : List CodePart}
    (h : t.Parts ps) : t.replaceWords value = ps.flatMap (CodePart.expanded value) := by
  induction h with
  | nil => rw [replaceWords_nil]; rfl
  | @literal body rest ps hbody _ ih =>
    have hcut : Front.cut '"'.toUInt8 (body ++ '"'.toUInt8 :: rest) =
        (.plain ('"'.toUInt8 :: (body ++ ['"'.toUInt8])), rest) := by
      rw [Front.cut, if_pos rfl, hbody.cut]
    rw [replaceWords_cons hcut, ih]
    rfl
  | @unclosed body tail hbody htail =>
    have hcut : Front.cut '"'.toUInt8 (body ++ tail) = (.plain ('"'.toUInt8 :: (body ++ tail)), []) := by
      rw [Front.cut, if_pos rfl, hbody.cut_unclosed htail]
    rw [replaceWords_cons hcut, replaceWords_nil]
    simp [Front.written, CodePart.expanded]
  | run _ hw hstop _ ih => rw [replaceWords_run hw hstop, ih]; rfl
  | byte hquote hb _ ih =>
    have hstart := mt isWordByte_of_start (Bool.eq_false_iff.mp hb)
    rw [replaceWords_cons (Front.cut_byte hquote (by simpa using hstart)), ih]
    rfl

theorem Text.Parts.expanded_eq_replaced {value : Text → Option Text} {t : Text} {ps : List CodePart}
    (h : t.Parts ps) (hruns : ∀ w, .run w ∈ ps → (∃ d ∈ w.head?, isDigitByte d = true) →
      value w = none ∧ value (w.dropWhile isDigitByte) = none) :
    ps.flatMap (CodePart.expanded value) = ps.flatMap (CodePart.replaced value) := by
  rw [List.flatMap_def, List.flatMap_def, List.map_congr_left fun p hp => ?_]
  cases p with
  | literal t => rfl
  | byte b => rfl
  | run w =>
    obtain ⟨_, _, _, hrun⟩ := h.hasRun hp
    exact CodePart.expanded_eq_replaced hrun.ne_nil (hruns w hp)

/-! ### Macros without parameters -/

namespace Macros

/-- No macro has parameters. -/
def ObjectLike (ms : Macros) : Prop :=
  ∀ w m, ms.lookup w = some m → m.params = []

/-- The body of a macro. -/
def body? (ms : Macros) (w : Text) : Option Text :=
  (ms.lookup w).map Macro.body

/-- Expanding a code text replaces the word behind the digits of every maximal run outside string
literals. It replaces the runs as a whole wherever no run that begins with a digit is a name, or becomes
one when its digits are dropped. -/
theorem expand_replaces_words {ms : Macros} (hms : ms.ObjectLike) (depth : Nat) (t : Text) :
    ∃ ps, (∀ qs, t.Parts qs ↔ qs = ps) ∧ (∀ w, .run w ∈ ps → t.HasRun w) ∧
      ms.expand depth t = some (ps.flatMap (CodePart.expanded ms.body?)) ∧
      ((∀ w, .run w ∈ ps → (∃ d ∈ w.head?, isDigitByte d = true) →
          ms.body? w = none ∧ ms.body? (w.dropWhile isDigitByte) = none) →
        ms.expand depth t = some (ps.flatMap (CodePart.replaced ms.body?))) := by
  obtain ⟨ps, hps⟩ := t.exists_parts
  have hexpand : ms.expand depth t = some (ps.flatMap (CodePart.expanded ms.body?)) := by
    rw [expand_eq hms, ← hps.replaceWords_eq]
    rfl
  refine ⟨ps, fun qs => ⟨hps.unique, fun heq => heq ▸ hps⟩, fun w hw => hps.hasRun hw, hexpand, ?_⟩
  intro hruns
  rw [hexpand, hps.expanded_eq_replaced hruns]

end Macros

theorem Preprocess.objectLike_seed (given : List (Text × Text)) : (seed given).ObjectLike := by
  intro w m h
  rw [lookup_seed] at h
  obtain ⟨v, -, rfl⟩ := Option.map_eq_some_iff.mp h
  rfl

/-! ### Samples -/

theorem Text.Parts.checkedRun {w rest : Text} {ps : List CodePart}
    (hw : (!w.isEmpty && w.all isWordByte) = true) (hstop : rest.head?.any isWordByte = false)
    (hrest : rest.Parts ps) : Text.Parts (w ++ rest) (.run w :: ps) := by
  simp only [Bool.and_eq_true, Bool.not_eq_true', List.isEmpty_eq_false_iff, List.all_eq_true] at hw
  refine .run hw.1 hw.2 (fun b hb => ?_) hrest
  rwa [Option.mem_def.mp hb] at hstop

/-- A word alone, inside a longer word and inside a string literal, and a hexadecimal literal. -/
def boundaryText : Text := "A+AA 0x1 \"A\""

def boundaryParts : List CodePart :=
  [.run "A", .byte '+'.toUInt8, .run "AA", .byte ' '.toUInt8, .run "0x1", .byte ' '.toUInt8,
    .literal "\"A\""]

theorem boundaryText_parts : boundaryText.Parts boundaryParts := by
  have hletter : LiteralBody "A" := .byte (by decide) (by decide) .nil
  refine .checkedRun (w := "A") rfl rfl (.byte (by decide) rfl ?_)
  refine .checkedRun (w := "AA") rfl rfl (.byte (by decide) rfl ?_)
  refine .checkedRun (w := "0x1") rfl rfl (.byte (by decide) rfl ?_)
  exact .literal hletter .nil

def letterMacro : List (Text × Text) := [("A", "10")]

theorem expand_replaces_words_boundary : (Preprocess.seed letterMacro).ObjectLike ∧
    (Preprocess.seed letterMacro).expand 0 boundaryText = some "10+AA 0x1 \"A\"" := by
  have hms := Preprocess.objectLike_seed letterMacro
  refine ⟨hms, ?_⟩
  obtain ⟨ps, hparts, -, -, hwhole⟩ := Macros.expand_replaces_words hms 0 boundaryText
  obtain rfl := (hparts boundaryParts).mp boundaryText_parts
  rw [hwhole ?_]
  · decide
  · intro w hw hdigit
    have hnames : w = "A" ∨ w = "AA" ∨ w = "0x1" := by simpa [boundaryParts] using hw
    rcases hnames with rfl | rfl | rfl
    · obtain ⟨d, hd, hdigit⟩ := hdigit
      obtain rfl : 'A'.toUInt8 = d := Option.some.inj hd
      cases hdigit
    · decide
    · decide

/-- A macro whose name is the end of a hexadecimal literal. -/
def hexMacro : List (Text × Text) := [("xFF", "1")]

/-- The literal `0xFF` is one run and no name, but its end is replaced. -/
theorem hexadecimal_rewritten : (Preprocess.seed hexMacro).ObjectLike ∧
    Text.Parts "0xFF" [.run "0xFF"] ∧
    [CodePart.run "0xFF"].flatMap (CodePart.replaced (Preprocess.seed hexMacro).body?) = "0xFF" ∧
    (Preprocess.seed hexMacro).expand 0 "0xFF" = some "01" ∧
    preprocess ⟨[], []⟩ 0 [] hexMacro "0xFF" = .ok "01" := by
  have hparts : Text.Parts "0xFF" [.run "0xFF"] :=
    .checkedRun (w := "0xFF") rfl rfl .nil
  have hexpand : (Preprocess.seed hexMacro).expand 0 "0xFF" = some "01" := by
    rw [Preprocess.expand_seed, hparts.replaceWords_eq]
    decide
  refine ⟨Preprocess.objectLike_seed hexMacro, hparts, by decide, hexpand, ?_⟩
  rw [preprocess_eq ⟨[], []⟩ 0 [] hexMacro (by decide)]
  cbv

end Pocket

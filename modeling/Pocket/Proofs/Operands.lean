import Mathlib
import Pocket.Asm.Line
import Pocket.Proofs.Calls
import Pocket.Proofs.Trimming

/-!
# Operands

The operands of an instruction stand between the commas that are in no quotes and no parentheses. Such a
comma is read where nothing is open, and nothing is open behind it. So the pieces can be told one by one:
each of them is read through without a cut, and all but the last leave nothing open. Blanks neither open
nor close anything, which is why operands that are trimmed and written anew with a comma and a space
between them are read as the same operands.
-/

namespace Pocket.Asm

open Text

/-! ### Reading through a text -/

/-- What is open while operands are read: parentheses, and inside them perhaps a quote. -/
inductive Nesting where
  | code (depth : Nat)
  | quoted (double : Bool) (depth : Nat)
  deriving DecidableEq, Repr

namespace Nesting

/-- The quote that is open. -/
def quote? : Nesting → Option UInt8
  | .code _ => none
  | .quoted true _ => some '"'.toUInt8
  | .quoted false _ => some '\''.toUInt8

/-- The number of parentheses that are open. -/
def depth : Nesting → Nat
  | .code d => d
  | .quoted _ d => d

/-- What is open behind a byte. -/
def next : Nesting → UInt8 → Nesting
  | .code d, b =>
    if b = '"'.toUInt8 then .quoted true d
    else if b = '\''.toUInt8 then .quoted false d
    else if b = '('.toUInt8 then .code (d + 1)
    else if b = ')'.toUInt8 then .code (d - 1)
    else .code d
  | .quoted double d, b =>
    if b = (if double then '"'.toUInt8 else '\''.toUInt8) then .code d else .quoted double d

/-- A byte separates two operands. -/
def Cuts (n : Nesting) (b : UInt8) : Prop :=
  n = .code 0 ∧ b = ','.toUInt8

instance (n : Nesting) (b : UInt8) : Decidable (n.Cuts b) :=
  inferInstanceAs (Decidable (_ ∧ _))

/-- The pieces of a text in front of which something is open. -/
def pieces (n : Nesting) (t : Text) : List Text :=
  splitArgs n.quote? n.depth t

end Nesting

/-- Pieces with a text in front of the first one. -/
def prepend (s : Text) : List Text → List Text
  | [] => [s]
  | piece :: more => (s ++ piece) :: more

section Pieces

variable {n m k : Nesting} {s t l r x : Text} {ts : List Text} {b : UInt8}

theorem prepend_nil (h : ts ≠ []) : prepend [] ts = ts := by
  cases ts with
  | nil => exact absurd rfl h
  | cons piece more => rfl

theorem prepend_cons (b : UInt8) (s : Text) (ts : List Text) :
    prepend [b] (prepend s ts) = prepend (b :: s) ts := by
  cases ts <;> rfl

theorem pieces_nil (n : Nesting) : n.pieces [] = [[]] := by
  rw [Nesting.pieces, splitArgs]

theorem pieces_cut (h : n.Cuts b) (t : Text) : n.pieces (b :: t) = [] :: (Nesting.code 0).pieces t := by
  obtain ⟨rfl, rfl⟩ := h
  rw [Nesting.pieces, splitArgs.eq_def]
  rfl

theorem pieces_cons (h : ¬n.Cuts b) (t : Text) : n.pieces (b :: t) = prepend [b] ((n.next b).pieces t) := by
  have hprepend : ∀ ps : List Text, (match ps with
      | [] => [[b]]
      | piece :: more => (b :: piece) :: more) = prepend [b] ps := by
    intro ps
    cases ps <;> rfl
  rw [Nesting.pieces, splitArgs.eq_def, Nesting.pieces]
  cases n with
  -- In quotes only the same quote matters; it ends them.
  | quoted double d =>
    cases double with
    | true =>
      by_cases hclose : b = '"'.toUInt8
      · subst hclose
        exact hprepend (splitArgs none d t)
      · simp only [Nesting.quote?, Nesting.depth, Nesting.next, hclose, if_true, if_false]
        exact hprepend (splitArgs (some '"'.toUInt8) d t)
    | false =>
      by_cases hclose : b = '\''.toUInt8
      · subst hclose
        exact hprepend (splitArgs none d t)
      · simp only [Nesting.quote?, Nesting.depth, Nesting.next, hclose, Bool.false_eq_true, if_false]
        exact hprepend (splitArgs (some '\''.toUInt8) d t)
  | code d =>
    have hcut : ¬(b = ','.toUInt8 ∧ d = 0) := by
      rintro ⟨rfl, rfl⟩
      exact h ⟨rfl, rfl⟩
    -- Outside quotes a byte opens or closes something, unless it is the comma that is excluded here.
    by_cases hdouble : b = '"'.toUInt8
    · subst hdouble
      exact hprepend (splitArgs (some '"'.toUInt8) d t)
    by_cases hsingle : b = '\''.toUInt8
    · subst hsingle
      exact hprepend (splitArgs (some '\''.toUInt8) d t)
    by_cases hopen : b = '('.toUInt8
    · subst hopen
      exact hprepend (splitArgs none (d + 1) t)
    by_cases hclose : b = ')'.toUInt8
    · subst hclose
      exact hprepend (splitArgs none (d - 1) t)
    simp only [Nesting.quote?, Nesting.depth, Nesting.next, hdouble, hsingle, or_self, if_false, hopen, hclose,
      hcut, decide_false]
    exact hprepend (splitArgs none d t)

/-- Reading a text from one nesting to another meets no comma that separates. -/
inductive Uncut : Nesting → Text → Nesting → Prop where
  | nil (n : Nesting) : Uncut n [] n
  | cons {n m : Nesting} {b : UInt8} {t : Text} (hb : ¬n.Cuts b) (ht : Uncut (n.next b) t m) :
      Uncut n (b :: t) m

theorem Uncut.append (hs : Uncut n s m) (ht : Uncut m t k) : Uncut n (s ++ t) k := by
  induction hs with
  | nil n => exact ht
  | cons hb _ ih => exact .cons hb (ih ht)

theorem Uncut.of_append (h : Uncut n (s ++ t) k) : ∃ m, Uncut n s m ∧ Uncut m t k := by
  induction s generalizing n with
  | nil => exact ⟨n, .nil n, h⟩
  | cons b s ih =>
    cases h with
    | cons hb hrest =>
      obtain ⟨m, hs, ht⟩ := ih hrest
      exact ⟨m, .cons hb hs, ht⟩

theorem Uncut.unique (h : Uncut n s m) (h' : Uncut n s k) : m = k := by
  induction h with
  | nil n =>
    cases h'
    rfl
  | cons hb _ ih =>
    cases h' with
    | cons _ hrest => exact ih hrest

/-- Without quotes, parentheses and commas nothing is opened, closed or cut. -/
theorem Uncut.neutral (n : Nesting) (h : ∀ b ∈ s, b ≠ '"'.toUInt8 ∧ b ≠ '\''.toUInt8 ∧ b ≠ '('.toUInt8 ∧
    b ≠ ')'.toUInt8 ∧ b ≠ ','.toUInt8) : Uncut n s n := by
  induction s with
  | nil => exact .nil n
  | cons b s ih =>
    obtain ⟨⟨hdouble, hsingle, hopen, hclose, hcomma⟩, hs⟩ := List.forall_mem_cons.mp h
    refine .cons (fun hcut => hcomma hcut.2) ?_
    have hnext : n.next b = n := by
      cases n with
      | code d => simp [Nesting.next, hdouble, hsingle, hopen, hclose]
      | quoted double d => cases double <;> simp [Nesting.next, hdouble, hsingle]
    rw [hnext]
    exact ih hs

theorem Uncut.blank (n : Nesting) (h : l.Blank) : Uncut n l n := by
  refine .neutral n fun b hb => ?_
  refine ⟨?_, ?_, ?_, ?_, ?_⟩ <;> rintro rfl <;> exact h.not_mem (by decide) hb

theorem Uncut.trim (h : Uncut n t m) : Uncut n t.trim m := by
  obtain ⟨l, r, hsplit, hl, hr, -⟩ := t.exists_trim_split
  rw [hsplit, List.append_assoc] at h
  obtain ⟨n', hleft, h⟩ := h.of_append
  obtain ⟨m', hmiddle, hright⟩ := h.of_append
  rw [(Uncut.blank n hl).unique hleft, ← (Uncut.blank m' hr).unique hright]
  exact hmiddle

/-! ### Pieces -/

/-- The pieces of some text: each of them is read through without a cut, and nothing is open behind any
but the last. -/
inductive Pieces : Nesting → List Text → Prop where
  | last {n m : Nesting} {t : Text} (h : Uncut n t m) : Pieces n [t]
  | more {n : Nesting} {t : Text} {ts : List Text} (h : Uncut n t (.code 0)) (hts : Pieces (.code 0) ts) :
      Pieces n (t :: ts)

theorem Pieces.ne_nil (h : Pieces n ts) : ts ≠ [] := by
  cases h <;> simp

theorem pieces_split (n : Nesting) (t : Text) : Pieces n (n.pieces t) := by
  induction t generalizing n with
  | nil =>
    rw [pieces_nil]
    exact .last (.nil n)
  | cons b t ih =>
    by_cases hb : n.Cuts b
    · rw [pieces_cut hb, hb.1]
      exact .more (.nil _) (ih (.code 0))
    · rw [pieces_cons hb]
      have hrest := ih (n.next b)
      generalize (n.next b).pieces t = ts at hrest
      cases hrest with
      | last h => exact .last (.cons hb h)
      | more h hts => exact .more (.cons hb h) hts

theorem Uncut.pieces (h : Uncut n s m) (t : Text) : n.pieces (s ++ t) = prepend s (m.pieces t) := by
  induction h with
  | nil n => exact (prepend_nil (pieces_split n t).ne_nil).symm
  | cons hb _ ih => rw [List.cons_append, pieces_cons hb, ih, prepend_cons]

theorem Uncut.single (h : Uncut n s m) : n.pieces s = [s] := by
  have hpieces := h.pieces []
  rwa [List.append_nil, pieces_nil, prepend, List.append_nil] at hpieces

theorem Uncut.pieces_comma (h : Uncut n s (.code 0)) (t : Text) :
    n.pieces (s ++ ','.toUInt8 :: t) = s :: (Nesting.code 0).pieces t := by
  rw [h.pieces, pieces_cut ⟨rfl, rfl⟩, prepend, List.append_nil]

theorem join_singleton (sep t : Text) : join sep [t] = t := by
  simp [join, List.intercalate]

theorem join_cons (sep t : Text) (h : ts ≠ []) : join sep (t :: ts) = t ++ (sep ++ join sep ts) := by
  cases ts with
  | nil => exact absurd rfl h
  | cons u ts => rw [join, List.intercalate_cons_cons, List.append_assoc]; rfl

/-- Pieces that are joined again are told apart again. -/
theorem Pieces.pieces_join (h : Pieces n ts) : n.pieces (join "," ts) = ts := by
  induction h with
  | last h =>
    rw [join_singleton]
    exact h.single
  | more h hts ih =>
    rw [join_cons _ _ hts.ne_nil]
    exact (h.pieces_comma _).trans (congrArg _ ih)

theorem join_pieces (n : Nesting) (t : Text) : join "," (n.pieces t) = t := by
  induction t generalizing n with
  | nil =>
    rw [pieces_nil]
    rfl
  | cons b t ih =>
    by_cases hb : n.Cuts b
    · rw [pieces_cut hb, join_cons _ _ (pieces_split _ t).ne_nil, ih, hb.2]
      rfl
    · have hrest := ih (n.next b)
      rw [pieces_cons hb]
      generalize (n.next b).pieces t = ts at hrest
      subst hrest
      cases ts with
      | nil => rfl
      | cons piece more =>
        cases more with
        | nil => rw [prepend, join_singleton, join_singleton]; rfl
        | cons u more =>
          rw [prepend, join_cons _ _ (List.cons_ne_nil u more), join_cons _ _ (List.cons_ne_nil u more)]
          rfl

/-! ### Trimmed pieces -/

theorem Pieces.trim (h : Pieces n ts) : Pieces n (ts.map Text.trim) := by
  induction h with
  | last h => exact .last h.trim
  | more h _ ih => exact .more h.trim ih

/-- The pieces with a space in front of all but the first. -/
def spaced : List Text → List Text
  | [] => []
  | t :: ts => t :: ts.map (' '.toUInt8 :: ·)

theorem Pieces.map_space (h : Pieces n ts) : Pieces n (ts.map (' '.toUInt8 :: ·)) := by
  induction h with
  | last h => exact .last ((Uncut.blank _ blank_space).append h)
  | more h _ ih => exact .more ((Uncut.blank _ blank_space).append h) ih

theorem Pieces.spaced (h : Pieces n ts) : Pieces n (spaced ts) := by
  cases h with
  | last h => exact .last h
  | more h hts => exact .more h hts.map_space

theorem join_spaced (ts : List Text) : join "," (spaced ts) = join ", " ts := by
  cases ts with
  | nil => rfl
  | cons t ts =>
    rw [spaced]
    induction ts generalizing t with
    | nil => rw [List.map_nil, join_singleton, join_singleton]
    | cons u ts ih =>
      rw [join_cons _ _ (by simp), join_cons _ _ (by simp), ← ih u]
      cases ts with
      | nil => rw [List.map_nil, List.map_cons, List.map_nil, join_singleton, join_singleton]; rfl
      | cons v ts =>
        rw [List.map_cons, join_cons _ _ (by simp), join_cons _ _ (by simp)]
        rfl

theorem map_trim_spaced (ts : List Text) : (spaced ts).map Text.trim = ts.map Text.trim := by
  cases ts with
  | nil => rfl
  | cons t ts =>
    have htrim : ∀ u : Text, Text.trim (' '.toUInt8 :: u) = u.trim := fun u => trim_blank_append blank_space u
    rw [spaced, List.map_cons, List.map_cons, List.map_map]
    refine congrArg (t.trim :: ·) (List.map_congr_left fun u _ => ?_)
    exact htrim u

theorem map_trim_prepend (hl : l.Blank) (h : ts ≠ []) : (prepend l ts).map Text.trim = ts.map Text.trim := by
  cases ts with
  | nil => exact absurd rfl h
  | cons piece more => rw [prepend, List.map_cons, List.map_cons, trim_blank_append hl]

theorem Pieces.map_trim_append (h : Pieces n ts) (hr : r.Blank) :
    (n.pieces (join "," ts ++ r)).map Text.trim = ts.map Text.trim := by
  induction h with
  | @last n m t h =>
    rw [join_singleton, (h.append (.blank m hr)).single, List.map_singleton, List.map_singleton,
      trim_append_blank hr]
  | @more n t ts h hts ih =>
    have hsplit : n.pieces (join "," (t :: ts) ++ r) = t :: (Nesting.code 0).pieces (join "," ts ++ r) := by
      rw [join_cons _ _ hts.ne_nil, List.append_assoc]
      exact h.pieces_comma _
    rw [hsplit, List.map_cons, List.map_cons, ih]

/-- Blanks around a text do not show in its trimmed pieces. -/
theorem map_trim_pieces (n : Nesting) (t : Text) :
    (n.pieces t.trim).map Text.trim = (n.pieces t).map Text.trim := by
  obtain ⟨l, r, hsplit, hl, hr, -⟩ := t.exists_trim_split
  have hright := (pieces_split n t.trim).map_trim_append hr
  rw [join_pieces] at hright
  nth_rewrite 2 [hsplit]
  rw [List.append_assoc, (Uncut.blank n hl).pieces, map_trim_prepend hl (pieces_split _ _).ne_nil, hright]

theorem operands_eq (t : Text) :
    operands t = if t.trim = [] then [] else ((Nesting.code 0).pieces t).map Text.trim := by
  rw [operands]
  simp only [List.isEmpty_iff]
  split
  · rfl
  · exact map_trim_pieces (.code 0) t

/-- Operands as they come out of a text: trimmed pieces, and not just one that is empty. -/
structure AreOperands (ts : List Text) : Prop where
  pieces : ts = [] ∨ Pieces (.code 0) ts
  trimmed : ∀ t ∈ ts, t.trim = t
  notBlank : ts ≠ [[]]

theorem areOperands (t : Text) : AreOperands (operands t) := by
  rw [operands_eq]
  split
  · exact ⟨.inl rfl, by simp, by simp⟩
  · next hne =>
    refine ⟨.inr (pieces_split _ t).trim, ?_, fun hblank => hne ?_⟩
    · intro a ha
      obtain ⟨piece, -, rfl⟩ := List.mem_map.mp ha
      exact trim_trim piece
    · obtain ⟨piece, hpiece, htrim⟩ := List.map_eq_singleton_iff.mp hblank
      have hjoin := join_pieces (.code 0) t
      rw [hpiece, join_singleton] at hjoin
      rw [← hjoin, htrim]

/-- Operands that are written with a comma and a space between them are read again. -/
theorem AreOperands.operands_join (h : AreOperands ts) : operands (join ", " ts) = ts := by
  rcases h.pieces with rfl | hpieces
  · rfl
  have hne : (join ", " ts).trim ≠ [] := by
    cases hpieces with
    | @last _ m t _ =>
      rw [join_singleton, h.trimmed t (by simp)]
      rintro rfl
      exact h.notBlank rfl
    | more _ hts =>
      rw [join_cons _ _ hts.ne_nil]
      exact trim_ne_nil (b := ','.toUInt8) (List.mem_append_right _ (List.mem_append_left _ (by decide)))
        (by decide)
  rw [operands_eq, if_neg hne, ← join_spaced, hpieces.spaced.pieces_join, map_trim_spaced]
  exact (List.map_congr_left h.trimmed).trans (List.map_id ts)

end Pieces

/-! ### Arguments -/

section Arguments

variable {t : Text}

theorem Uncut.balanced (h : Balanced t) (hdouble : '"'.toUInt8 ∉ t) (hsingle : '\''.toUInt8 ∉ t) (d : Nat) :
    Uncut (.code (d + 1)) t (.code (d + 1)) := by
  induction h generalizing d with
  | nil => exact .nil _
  | @byte b t hopen hclose _ ih =>
    simp only [List.mem_cons, not_or] at hdouble hsingle
    refine .cons (by simp [Nesting.Cuts]) ?_
    have hnext : (Nesting.code (d + 1)).next b = .code (d + 1) := by
      simp [Nesting.next, Ne.symm hdouble.1, Ne.symm hsingle.1, hopen, hclose]
    rw [hnext]
    exact ih hdouble.2 hsingle.2 d
  | @group s t _ _ ihs iht =>
    simp only [List.mem_cons, List.mem_append, not_or] at hdouble hsingle
    refine .cons (by simp [Nesting.Cuts]) ((ihs hdouble.2.1 hsingle.2.1 (d + 1)).append ?_)
    exact .cons (by simp [Nesting.Cuts]) (iht hdouble.2.2.2 hsingle.2.2.2 d)

/-- An argument without quotes is read through without a cut. -/
theorem Uncut.argument (h : Argument t) (hdouble : '"'.toUInt8 ∉ t) (hsingle : '\''.toUInt8 ∉ t) :
    Uncut (.code 0) t (.code 0) := by
  induction h with
  | nil => exact .nil _
  | @byte b t hopen hclose hcomma _ ih =>
    simp only [List.mem_cons, not_or] at hdouble hsingle
    refine .cons (fun hcut => hcomma hcut.2) ?_
    have hnext : (Nesting.code 0).next b = .code 0 := by
      simp [Nesting.next, Ne.symm hdouble.1, Ne.symm hsingle.1, hopen, hclose]
    rw [hnext]
    exact ih hdouble.2 hsingle.2
  | @group s t hs _ ih =>
    simp only [List.mem_cons, List.mem_append, not_or] at hdouble hsingle
    refine .cons (by decide) ((Uncut.balanced hs hdouble.2.1 hsingle.2.1 0).append ?_)
    exact .cons (by simp [Nesting.Cuts]) (ih hdouble.2.2.2 hsingle.2.2.2)

theorem Pieces.of_uncut {ts : List Text} (hne : ts ≠ []) (h : ∀ t ∈ ts, Uncut (.code 0) t (.code 0)) :
    Pieces (.code 0) ts := by
  induction ts with
  | nil => exact absurd rfl hne
  | cons t ts ih =>
    obtain ⟨ht, hts⟩ := List.forall_mem_cons.mp h
    cases ts with
    | nil => exact .last ht
    | cons u ts => exact .more ht (ih (by simp) hts)

end Arguments

end Pocket.Asm

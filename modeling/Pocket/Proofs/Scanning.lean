import Pocket.Proofs.Spans

/-!
# Scanning goes forward

A lexer may be asked for tokens again and again, also behind a fault. Every call takes off some of the
source, or a token that waits, or the expectation that the keyword `asm` leaves behind, until the end is
read; from then on every call reads the end at the same place. A call that finds no brace behind `asm`
takes nothing off the source, so the expectation has its own share in the measure.
-/

namespace Pocket

theorem length_glyphsAfter_le (skip : Nat) (t : Text) : (Text.glyphsAfter skip t).length ≤ t.length := by
  fun_induction Text.glyphsAfter skip t with
  | case1 => exact Nat.le_refl 0
  | case2 skip b rest ih => exact Nat.le_succ_of_le ih
  | case3 b rest g ih => exact Nat.succ_le_succ ih

namespace Lexer

/-! ### Calls -/

/-- The lexer after some calls. -/
def after (l : Lexer) : Nat → Lexer
  | 0 => l
  | n + 1 => l.next.2.after n

/-- What the next call yields after some calls: a token or a fault. -/
def answer (l : Lexer) (n : Nat) : Outcome :=
  (l.after n).next.1

/-- The number of bytes of the source that lie behind the lexer. -/
def offset (l : Lexer) : Nat :=
  l.source.length - (Text.ofGlyphs l.cursor.rest).length

/-- How much there is left to do, counting also a block that is still to be looked for. -/
def outstanding (l : Lexer) : Nat :=
  l.remaining + l.afterAsm.toNat

theorem after_succ (l : Lexer) (n : Nat) : l.after (n + 1) = (l.after n).next.2 := by
  induction n generalizing l with
  | zero => rfl
  | succ n ih => exact ih l.next.2

variable {l : Lexer} {c : Cursor} {g : Glyph} {more : List Glyph} {source : Text}

/-! ### One call -/

/-- What a call does: it goes forward in the same source, lets no end token wait, and lowers what is left
to do, unless it reads the end; then nothing is left. -/
structure Forward (l : Lexer) (step : Outcome × Lexer) : Prop where
  source : step.2.source = l.source
  rest : step.2.cursor.rest <:+ l.cursor.rest
  queue : ∀ t ∈ step.2.queue, t.kind ≠ .eof
  work : (step.1 = .ok ⟨.eof, [], step.2.cursor.pos⟩ ∧ step.2.outstanding = 0) ∨
    ((∀ t, step.1 = .ok t → t.kind ≠ .eof) ∧ step.2.outstanding < l.outstanding)

theorem outstanding_of_queue (h : l.queue = []) :
    l.outstanding = 2 * l.cursor.rest.length + l.afterAsm.toNat := by
  simp [outstanding, remaining, h]

theorem outstanding_moveTo (l : Lexer) (c : Cursor) : (l.moveTo c).outstanding = 2 * c.rest.length := by
  simp [outstanding, remaining, moveTo]

theorem skip_suffix (c : Cursor) (n : Nat) : (c.skip n).rest <:+ c.rest :=
  List.drop_suffix n c.rest

theorem skip_succ_suffix (hc : c.rest = g :: more) (n : Nat) : (c.skip (n + 1)).rest <:+ more := by
  rw [Cursor.skip, hc]
  exact List.drop_suffix n more

/-- Where a token is looked for, at least the first glyph is taken off. -/
theorem tokenAt_takes (l : Lexer) (hc : c.rest = g :: more) :
    (l.tokenAt c g.char).2.source = l.source ∧ (l.tokenAt c g.char).2.queue = [] ∧
      (l.tokenAt c g.char).2.cursor.rest <:+ more := by
  -- A run of word characters takes at least the glyph it begins with.
  have hrun : Token.isWordChar g.char = true → (c.skip (c.run Token.isWordChar).length).rest <:+ more := by
    intro hg
    obtain ⟨run, rest, -, hrun, -⟩ := run_of_head hc hg
    rw [hrun]
    exact skip_succ_suffix hc run.length
  have hinside : (c.skip 1).rest <:+ more := skip_succ_suffix hc 0
  unfold tokenAt
  split
  · next hword =>
    refine ⟨rfl, rfl, hrun ?_⟩
    simp only [Token.startsWord, Token.isWordChar, Bool.or_eq_true] at hword ⊢
    rcases hword with hword | hword <;> simp [hword]
  · split
    · next hdigit => exact ⟨rfl, rfl, hrun (by simp [Token.isWordChar, hdigit])⟩
    · split
      -- A string takes its first quote even if no second one follows.
      · rw [stringLiteral]
        split
        · exact ⟨rfl, rfl, ((skip_suffix _ 1).trans (skip_suffix _ _)).trans hinside⟩
        · exact ⟨rfl, rfl, (skip_suffix _ _).trans hinside⟩
      · rw [punctuation]
        split
        · exact ⟨rfl, rfl, hinside⟩
        · split
          · split
            · exact ⟨rfl, rfl, skip_succ_suffix hc 1⟩
            · exact ⟨rfl, rfl, hinside⟩
          · exact ⟨rfl, rfl, hinside⟩

theorem tokenAt_ne_eof {t : Token} (hc : c.rest = g :: more) (h : (l.tokenAt c g.char).1 = .ok t) :
    t.kind ≠ .eof := by
  have hstep : l.tokenAt c g.char = (.ok t, (l.tokenAt c g.char).2) := Prod.ext h rfl
  obtain ⟨tok, rest, -, htok, -⟩ := tokenAt_sound hc hstep
  exact htok.kind_class.1

/-- A comment that is never closed is not the empty rest of a source. -/
theorem length_pos_of_next_error {start : Position} (h : c.next = .error start) : 0 < c.rest.length := by
  cases hc : c.rest with
  | nil =>
    rw [Cursor.next, hc] at h
    cases h
  | cons => simp

/-- A fault leaves a lexer in code, further on or with less to do. -/
theorem fault_forward {e : Position × LexCause} (hrest : c.rest <:+ l.cursor.rest)
    (hless : 2 * c.rest.length < l.outstanding) : Forward l (.error e, l.moveTo c) := by
  refine ⟨rfl, hrest, by simp [moveTo], .inr ⟨by simp, ?_⟩⟩
  rwa [outstanding_moveTo]

theorem codeToken_forward (hqueue : l.queue = []) : Forward l l.codeToken := by
  have hl := outstanding_of_queue hqueue
  cases hnext : l.cursor.next with
  | error start =>
    have hpos := length_pos_of_next_error hnext
    rw [codeToken, hnext]
    refine fault_forward List.nil_suffix ?_
    rw [Cursor.finish, List.length_nil]
    omega
  | ok d =>
    obtain ⟨gap, hgap, -⟩ := Cursor.next_eq_ok_iff.mp hnext
    have hsuffix : d.rest <:+ l.cursor.rest := ⟨gap, hgap.symm⟩
    cases hd : d.rest with
    | nil =>
      have hstep : l.codeToken = (.ok ⟨.eof, [], d.pos⟩, l.moveTo d) := by
        simp only [codeToken, hnext, Cursor.char?, hd]
        rfl
      rw [hstep]
      refine ⟨rfl, hsuffix, by simp [moveTo], .inl ⟨rfl, ?_⟩⟩
      rw [outstanding_moveTo, hd, List.length_nil]
    | cons g more =>
      obtain ⟨hsource, hqueue', hrest⟩ := tokenAt_takes l hd
      rw [hd] at hsuffix
      rw [codeToken_eq hnext hd]
      refine ⟨hsource, (hrest.trans (List.suffix_cons g more)).trans hsuffix, ?_,
        .inr ⟨fun t ht => tokenAt_ne_eof hd ht, ?_⟩⟩
      · simp [hqueue']
      -- A glyph counts twice, so the keyword may leave an expectation behind.
      · have hle := hrest.length_le
        have hge := hsuffix.length_le
        have hflag := Bool.toNat_le (l.tokenAt d g.char).2.afterAsm
        rw [List.length_cons] at hge
        rw [outstanding_of_queue hqueue']
        omega

theorem asmBlock_forward (hqueue : l.queue = []) (hasm : l.afterAsm = true) : Forward l l.asmBlock := by
  have hl := outstanding_of_queue hqueue
  rw [hasm, Bool.toNat_true] at hl
  cases hnext : l.cursor.next with
  | error start =>
    rw [asmBlock, hnext]
    refine fault_forward List.nil_suffix ?_
    rw [Cursor.finish, List.length_nil]
    omega
  | ok d =>
    obtain ⟨gap, hgap, -⟩ := Cursor.next_eq_ok_iff.mp hnext
    have hsuffix : d.rest <:+ l.cursor.rest := ⟨gap, hgap.symm⟩
    simp only [asmBlock, hnext]
    split
    · next hbrace =>
      obtain ⟨g, more, hd, -⟩ := char?_eq_some hbrace
      generalize hclose : (d.skip 1).skip ((d.skip 1).run (· != '\x7d')).length = close
      have hmore : close.rest <:+ more := hclose ▸ (skip_suffix _ _).trans (skip_succ_suffix hd 0)
      rw [hd] at hsuffix
      have hrest : close.rest <:+ l.cursor.rest := (hmore.trans (List.suffix_cons g more)).trans hsuffix
      have hle := hmore.length_le
      have hge := hsuffix.length_le
      rw [List.length_cons] at hge
      split
      · exact fault_forward hrest (by omega)
      · next hopen =>
        have hpos : 0 < close.rest.length := by
          cases hr : close.rest with
          | nil => simp [hr] at hopen
          | cons => simp
        refine ⟨rfl, (skip_suffix close 1).trans hrest, ?_, .inr ⟨?_, ?_⟩⟩
        · simp
        · rintro t ht
          cases ht
          simp
        -- Two glyphs are taken off for the braces, and two tokens wait.
        · simp only [outstanding, remaining, moveTo, Cursor.length_rest_skip, List.length_cons,
            List.length_nil, Bool.toNat_false] at hl ⊢
          omega
    · have hge := hsuffix.length_le
      exact fault_forward hsuffix (by omega)

theorem next_forward (h : ∀ t ∈ l.queue, t.kind ≠ .eof) : Forward l l.next := by
  unfold next
  cases hqueue : l.queue with
  | cons u queue =>
    rw [hqueue] at h
    obtain ⟨hu, hrest⟩ := List.forall_mem_cons.mp h
    refine ⟨rfl, List.suffix_refl _, hrest, .inr ⟨?_, ?_⟩⟩
    · rintro t ht
      cases ht
      exact hu
    · simp [outstanding, remaining, hqueue]
  | nil =>
    dsimp only
    split
    · next hasm => exact asmBlock_forward hqueue hasm
    · exact codeToken_forward hqueue

/-- When nothing is left to do, a call reads the end and changes nothing. -/
theorem next_of_finished (h : l.outstanding = 0) : l.next = (.ok ⟨.eof, [], l.cursor.pos⟩, l) := by
  obtain ⟨source, ⟨pos, rest⟩, afterAsm, queue⟩ := l
  simp only [outstanding, remaining, Nat.add_eq_zero_iff, Nat.mul_eq_zero, List.length_eq_zero_iff,
    Bool.toNat_eq_zero] at h
  obtain ⟨⟨hrest | hrest, rfl⟩, rfl⟩ := h
  · cases hrest
  · subst hrest
    rfl

theorem after_of_finished (h : l.outstanding = 0) (n : Nat) : l.after n = l := by
  induction n with
  | zero => rfl
  | succ n ih => rw [after, next_of_finished h, ih]

theorem answer_of_finished (h : l.outstanding = 0) (n : Nat) : l.answer n = .ok ⟨.eof, [], l.cursor.pos⟩ := by
  rw [answer, after_of_finished h, next_of_finished h]

/-! ### All calls -/

/-- What a lexer keeps along its way: what lies before it ends the source, and no end token waits. -/
structure Scans (source : Text) (l : Lexer) : Prop where
  text : l.source = source
  rest : l.cursor.rest <:+ source.glyphs
  queue : ∀ t ∈ l.queue, t.kind ≠ .eof

theorem scans_ofText (source : Text) : Scans source (ofText source) :=
  ⟨rfl, List.suffix_refl _, by simp [ofText]⟩

theorem Scans.next (h : Scans source l) : Scans source l.next.2 := by
  have hstep := next_forward h.queue
  exact ⟨hstep.source.trans h.text, hstep.rest.trans h.rest, hstep.queue⟩

theorem Scans.after (h : Scans source l) (n : Nat) : Scans source (l.after n) := by
  induction n generalizing l with
  | zero => exact h
  | succ n ih => exact ih h.next

/-- The bytes from the offset on are those that are still to be read. -/
theorem Scans.drop_offset (h : Scans source l) : source.drop l.offset = Text.ofGlyphs l.cursor.rest := by
  obtain ⟨past, hpast⟩ := h.rest
  have hlength := congrArg List.length (text_of_glyphs hpast.symm)
  rw [List.length_append] at hlength
  have hoffset : l.offset = (Text.ofGlyphs past).length := by
    rw [offset, h.text]
    omega
  rw [hoffset]
  exact Pocket.drop_offset hpast.symm

theorem Scans.offset_le_next (h : Scans source l) : l.offset ≤ l.next.2.offset := by
  have hstep := next_forward h.queue
  obtain ⟨used, hused⟩ := hstep.rest
  rw [offset, offset, hstep.source, ← hused, Text.ofGlyphs_append, List.length_append]
  omega

theorem Scans.offset_mono (h : Scans source l) {j k : Nat} (hjk : j ≤ k) :
    (l.after j).offset ≤ (l.after k).offset := by
  induction hjk with
  | refl => exact Nat.le_refl _
  | @step k _ ih =>
    rw [after_succ]
    exact Nat.le_trans ih (h.after k).offset_le_next

/-- The end is read after as many calls as there is to do, or before, and it is read from then on. -/
theorem Scans.exists_end (h : Scans source l) : ∃ n pos, n ≤ l.outstanding ∧
    (∀ k, n ≤ k → l.answer k = .ok ⟨.eof, [], pos⟩) ∧
    ∀ k t, k < n → l.answer k = .ok t → t.kind ≠ .eof := by
  induction hm : l.outstanding using Nat.strongRecOn generalizing l with
  | ind m ih =>
    subst hm
    rcases (next_forward h.queue).work with ⟨hstop, hdone⟩ | ⟨hne, hless⟩
    · refine ⟨0, l.next.2.cursor.pos, Nat.zero_le _, fun k _ => ?_, fun k t hk => absurd hk (Nat.not_lt_zero k)⟩
      cases k with
      | zero => exact hstop
      | succ k => exact answer_of_finished hdone k
    · obtain ⟨n, pos, hn, hend, hbefore⟩ := ih _ hless h.next rfl
      refine ⟨n + 1, pos, by omega, fun k hk => ?_, fun k t hk ht => ?_⟩
      · cases k with
        | zero => exact absurd hk (by omega)
        | succ k => exact hend k (by omega)
      · cases k with
        | zero => exact hne t ht
        | succ k => exact hbefore k t (by omega) ht

/-- Reading all tokens makes one call after the other, up to the first that reads the end or a fault. -/
theorem tokens_of_answers (l : Lexer) : ∃ ts : List Token,
    (∀ k t, ts[k]? = some t → l.answer k = .ok t ∧ t.kind ≠ .eof) ∧
    ((∃ stop, l.answer ts.length = .ok stop ∧ stop.kind = .eof ∧ l.tokens = (ts ++ [stop], none)) ∨
      ∃ e, l.answer ts.length = .error e ∧ l.tokens = (ts, some e)) := by
  fun_induction Lexer.tokens l with
  | case1 l e l' hnext => exact ⟨[], by simp, .inr ⟨e, congrArg Prod.fst hnext, rfl⟩⟩
  | case2 l t l' hnext ht => exact ⟨[], by simp, .inl ⟨t, congrArg Prod.fst hnext, ht, rfl⟩⟩
  | case3 l t l' hnext ht us fault htokens ih =>
    -- The calls behind the first one are those of the lexer it leaves.
    have hanswer : ∀ k, l.answer (k + 1) = l'.answer k := by
      intro k
      rw [answer, after, hnext, answer]
    obtain ⟨ts, hts, hend⟩ := ih
    refine ⟨t :: ts, fun k u hu => ?_, ?_⟩
    · cases k with
      | zero =>
        cases hu
        exact ⟨congrArg Prod.fst hnext, ht⟩
      | succ k =>
        rw [hanswer]
        exact hts k u hu
    · rw [htokens] at hend
      rw [List.length_cons, hanswer]
      rcases hend with ⟨stop, hstop, hkind, heq⟩ | ⟨e, he, heq⟩
      · cases heq
        exact .inl ⟨stop, hstop, hkind, rfl⟩
      · cases heq
        exact .inr ⟨e, he, rfl⟩

/-- Whatever a source holds and whatever faults are met, a fresh lexer reads the end within three calls
for each byte and one more. From then on every call reads the same end, and none did before. The offset
into the source never goes back. Reading all tokens makes as many of these calls as it needs, up to the
first that reads the end or a fault. -/
theorem scanning_ends (source : Text) : ∃ n pos, n + 1 ≤ 3 * source.length + 1 ∧
    (∀ k, n ≤ k → (ofText source).answer k = .ok ⟨.eof, [], pos⟩) ∧
    (∀ k t, k < n → (ofText source).answer k = .ok t → t.kind ≠ .eof) ∧
    (∀ j k, j ≤ k → ((ofText source).after j).offset ≤ ((ofText source).after k).offset) ∧
    (∀ k, source.drop ((ofText source).after k).offset =
      Text.ofGlyphs ((ofText source).after k).cursor.rest) ∧
    ∃ ts : List Token, ts.length ≤ n ∧ (∀ k t, ts[k]? = some t → (ofText source).answer k = .ok t) ∧
      (((ofText source).answer ts.length = .ok ⟨.eof, [], pos⟩ ∧
          source.tokens = (ts ++ [⟨.eof, [], pos⟩], none)) ∨
        ∃ e, (ofText source).answer ts.length = .error e ∧ source.tokens = (ts, some e)) := by
  have hscans := scans_ofText source
  obtain ⟨n, pos, hn, hend, hbefore⟩ := hscans.exists_end
  obtain ⟨ts, hts, hstop⟩ := (ofText source).tokens_of_answers
  -- The end is read at call `n` at the latest, and reading all tokens goes no further.
  have hlength : ts.length ≤ n := by
    by_contra hlt
    obtain ⟨hanswer, hkind⟩ := hts n _ (List.getElem?_eq_getElem (by omega))
    rw [hend n (Nat.le_refl n)] at hanswer
    rw [← Except.ok.inj hanswer] at hkind
    exact hkind rfl
  refine ⟨n, pos, ?_, hend, hbefore, fun j k => hscans.offset_mono, fun k => (hscans.after k).drop_offset,
    ts, hlength, fun k t ht => (hts k t ht).1, ?_⟩
  · have hglyphs : source.glyphs.length ≤ source.length := length_glyphsAfter_le 0 source
    have hstart : (ofText source).outstanding = 2 * source.glyphs.length := rfl
    omega
  · rcases hstop with ⟨stop, hanswer, hkind, htokens⟩ | hfault
    -- An end that is read earlier would contradict that none is read before call `n`.
    · have hlast : n ≤ ts.length := by
        by_contra hlt
        exact hbefore ts.length stop (by omega) hanswer hkind
      rw [hend ts.length hlast] at hanswer
      cases hanswer
      exact .inl ⟨hend ts.length hlast, htokens⟩
    · exact .inr hfault

end Lexer

end Pocket

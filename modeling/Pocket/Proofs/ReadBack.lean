import Mathlib
import Pocket.Proofs.Compiled
import Pocket.Proofs.Printing

/-!
# Printing and reading back

Reading a printed expression gives the expression, and reading a printed statement gives the statement,
as long as it carries the value of its expression; positions and bindings are not printed. Every
statement of a program that was read from a source is such a statement, so the comment above its code
stands for the statement that was compiled.
-/

namespace Pocket

open Asm Pocket.Parser Grammar Lexical

/-! ### Statements without positions and bindings -/

namespace Expr

variable {e e' : Expr}

theorem literalsFit_unplaced : e.unplaced.LiteralsFit ↔ e.LiteralsFit := by
  induction e with
  | literal value text pos => rfl
  | unary op right pos ih => exact ih
  | binary op left right pos ihl ihr => exact and_congr ihl ihr

theorem fold_of_unplaced (h : e'.unplaced = e.unplaced) : outcomeBy id e'.fold = outcomeBy id e.fold := by
  rw [← fold_unplaced, h, fold_unplaced]

theorem value_of_unplaced (h : e'.unplaced = e.unplaced) : e'.value = e.value := by
  have hvalue : ∀ e : Expr, e.value = (outcomeBy id e.fold).toOption.getD 0 := by
    intro e
    unfold value
    cases e.fold <;> rfl
  rw [hvalue, hvalue, fold_of_unplaced h]

end Expr

namespace Stmt

variable {s s' : Stmt}

/-- A statement without its positions and its binding. -/
def shape : Stmt → Stmt
  | .call c => .call { c.unplaced with target := .unresolved }
  | .expr e value pos => (Stmt.expr e value pos).unplaced

/-- A statement with the value of its expression; zero if it has none. -/
def computed : Stmt → Stmt
  | .call c => .call { c with value := (c.arg.map Expr.value).getD 0 }
  | .expr e _ pos => .expr e e.value pos

/-- A statement carries the value of its expression; zero if it has none. -/
def Valued (s : Stmt) : Prop :=
  match s.expr? with
  | some e => e.fold = .ok s.value
  | none => s.value = 0

/-- A statement that can be written: its expression is, and a called name is an identifier. -/
def Writable (s : Stmt) : Prop :=
  (∀ e, s.expr? = some e → e.Writable) ∧ ∀ c, s.call? = some c → IsLexeme .identifier c.callee

theorem expr?_of_shape (h : s'.shape = s.computed.shape) :
    s'.expr?.map Expr.unplaced = s.expr?.map Expr.unplaced := by
  have hexpr : ∀ s : Stmt, s.shape.expr? = s.expr?.map Expr.unplaced := by
    intro s
    cases s <;> rfl
  rw [← hexpr, h, hexpr]
  cases s <;> rfl

theorem Valued.computed_eq (h : s.Valued) : s.computed = s := by
  cases s with
  | call c =>
    obtain ⟨callee, arg, value, target, pos⟩ := c
    cases arg with
    | none =>
      obtain rfl : value = 0 := h
      rfl
    | some e =>
      have hvalue : e.value = value := Expr.value_of_fold h
      simp [computed, hvalue]
  | expr e value pos =>
    have hvalue : e.value = value := Expr.value_of_fold h
    rw [computed, hvalue]

/-! ### Printed statements -/

/-- Tokens that form a statement, up to its positions and its binding. -/
def Derived (s : Stmt) (ts : List Token) : Prop :=
  ∃ s', Statement ts s' ∧ s'.shape = s.computed.shape

theorem derived_expr {e : Expr} {value : Word} {pos : Position} {semi : Text} {ts : List Token}
    (h : Then (Derives .bitwiseOr e) (IsToken .semicolon semi) ts) : (expr e value pos).Derived ts := by
  obtain ⟨us, _, rfl, ⟨e', hexp, he⟩, semiPos, rfl⟩ := h
  obtain ⟨first, more, rfl, -⟩ := hexp.starts
  refine ⟨_, .expr rfl hexp, ?_⟩
  simp [shape, computed, Stmt.unplaced, he, Expr.value_of_unplaced he]

theorem derived_call {callee lparen rparen semi : Text} {value : Word} {target : Binding} {pos : Position}
    {ts : List Token}
    (h : Then (IsToken .identifier callee) (Then (IsToken .leftParen lparen)
      (Then (IsToken .rightParen rparen) (IsToken .semicolon semi))) ts) :
    (call ⟨callee, none, value, target, pos⟩).Derived ts := by
  obtain ⟨_, _, rfl, ⟨_, rfl⟩, _, _, rfl, ⟨_, rfl⟩, _, _, rfl, ⟨_, rfl⟩, _, rfl⟩ := h
  exact ⟨_, .call rfl rfl rfl rfl, rfl⟩

theorem derived_callWith {callee lparen rparen semi : Text} {e : Expr} {value : Word} {target : Binding}
    {pos : Position} {ts : List Token}
    (h : Then (IsToken .identifier callee) (Then (IsToken .leftParen lparen)
      (Then (Derives .bitwiseOr e) (Then (IsToken .rightParen rparen) (IsToken .semicolon semi)))) ts) :
    (call ⟨callee, some e, value, target, pos⟩).Derived ts := by
  obtain ⟨_, _, rfl, ⟨_, rfl⟩, _, _, rfl, ⟨_, rfl⟩, us, _, rfl, ⟨e', hexp, he⟩, _, _, rfl, ⟨_, rfl⟩, _,
    rfl⟩ := h
  refine ⟨_, .callWith rfl rfl rfl rfl hexp, ?_⟩
  simp [shape, computed, Call.unplaced, he, Expr.value_of_unplaced he]

theorem Writable.spells (h : s.Writable) : Spells (s.render ++ ";") s.Derived := by
  intro rest P hrest hP
  -- What is spelled last comes first: each part needs to know what follows it.
  have hsemi := hP.single (c := ';') rfl (by decide)
  cases s with
  | expr e value pos =>
    have hexpr := (h.1 e rfl).spells.2 _ _ (endsWord_of (by decide) rest) hsemi
    rw [semicolon_text, render, glyphs_append_ofChar, List.append_assoc]
    exact hexpr.imp fun ts hts => hts.assoc.imp fun _ => derived_expr
  | call c =>
    obtain ⟨callee, arg, value, target, pos⟩ := c
    have hclose := hsemi.single (c := ')') rfl (by decide)
    have hcallee := spells_word (h.2 _ rfl) (.inr rfl)
    cases arg with
    | none =>
      have hopen := hclose.single (c := '(') rfl (by decide)
      have hcall := hcallee _ _ (endsWord_of (by decide) _) hopen
      -- Written out sign by sign, every part begins with a character of its own.
      have htext : render (.call ⟨callee, none, value, target, pos⟩) ++ ";" =
          callee ++ (Text.ofChar '(' ++ (Text.ofChar ')' ++ Text.ofChar ';')) := by
        have hparens : ("()" : Text) = Text.ofChar '(' ++ Text.ofChar ')' := by decide
        rw [render, Call.render, semicolon_text, hparens]
        simp only [List.append_assoc]
      rw [htext, Text.glyphs_append callee (Glyph.fresh_ofChar '(' _), Text.glyphs_ofChar_append,
        Text.glyphs_ofChar_append, glyphs_ofChar, List.append_assoc]
      exact hcall.imp fun ts hts =>
        (hts.right fun _ h₁ => (h₁.right fun _ => Then.assoc).assoc).assoc.imp fun _ => derived_call
    | some e =>
      have harg := (h.1 e rfl).spells.2 _ _ (endsWord_of (by decide) _) hclose
      have hopen := harg.single (c := '(') rfl (by decide)
      have hcall := hcallee _ _ (endsWord_of (by decide) _) hopen
      have htext : render (.call ⟨callee, some e, value, target, pos⟩) ++ ";" =
          callee ++ (Text.ofChar '(' ++ (e.renderBare ++ (Text.ofChar ')' ++ Text.ofChar ';'))) := by
        rw [render, Call.render, semicolon_text, leftParen_text, rightParen_text]
        simp only [List.append_assoc]
      rw [htext, Text.glyphs_append callee (Glyph.fresh_ofChar '(' _), Text.glyphs_ofChar_append,
        Text.glyphs_append _ (Glyph.fresh_ofChar ')' _), Text.glyphs_ofChar_append, glyphs_ofChar,
        List.append_assoc, List.cons_append, List.append_assoc]
      exact hcall.imp fun ts hts =>
        (hts.right fun _ h₁ => (h₁.right fun _ h₂ => (h₂.right fun _ => Then.assoc).assoc).assoc).assoc.imp
          fun _ => derived_callWith

end Stmt

/-! ### Reading back -/

/-- The whole of a text is read as an expression that agrees with another up to positions. -/
def Expr.ReadsBack (t : Text) (e : Expr) : Prop :=
  ∃ ts last e', t.lex = .ok (ts ++ [last]) ∧ last.kind = .eof ∧
    (∀ stop, bare (expression stop (ts ++ [last])) = .ok (e', [last])) ∧ e'.unplaced = e.unplaced

/-- The whole of a text is read as a statement that agrees with another up to positions and binding. -/
def Stmt.ReadsBack (t : Text) (s : Stmt) : Prop :=
  ∃ ts last s', t.lex = .ok (ts ++ [last]) ∧ last.kind = .eof ∧
    (∀ stop, bare (statement stop (ts ++ [last])) = .ok (s', [last])) ∧ s'.shape = s.shape

/-- A text that spells something is read to its end. -/
theorem Spells.lex {t : Text} {F : List Token → Prop} (h : Spells t F) :
    ∃ ts last, t.lex = .ok (ts ++ [last]) ∧ last.kind = .eof ∧ F ts := by
  obtain ⟨_, hlayout, ts, _, rfl, hF, pos, rfl⟩ := h [] _ (by simp [EndsWord]) laysOut_nil .start
  rw [List.append_nil] at hlayout
  exact ⟨ts, _, lex_eq_ok_iff.mpr hlayout, rfl, hF⟩

theorem Expr.Writable.readsBack {e : Expr} (h : e.Writable) : e.ReadsBack e.render := by
  obtain ⟨ts, last, hlex, hlast, e', hexp, he⟩ := h.spells.1.lex
  have hfit : Fits ts := by
    rw [← hexp.literalsFit_iff, ← Expr.literalsFit_unplaced, he, Expr.literalsFit_unplaced]
    exact h.literalsFit
  refine ⟨ts, last, e', hlex, hlast, fun stop => ?_, he⟩
  exact (hexp.loosest.read hfit).1 [last] (ends_of_kind hlast [] (by decide))

namespace Stmt

variable {s s' : Stmt}

theorem check_of_shape (h : s'.shape = s.computed.shape) :
    outcomeBy id s'.check = outcomeBy id s.check := by
  have hexpr := expr?_of_shape h
  unfold check
  cases he' : s'.expr? with
  | none =>
    rw [he', Option.map_none] at hexpr
    rw [Option.map_eq_none_iff.mp hexpr.symm]
  | some e' =>
    rw [he', Option.map_some] at hexpr
    obtain ⟨e, he, hunplaced⟩ := Option.map_eq_some_iff.mp hexpr.symm
    have hfold := Expr.fold_of_unplaced hunplaced
    rw [he]
    dsimp only
    cases hf : e.fold <;> cases hf' : e'.fold <;> rw [hf, hf'] at hfold <;> simp_all [outcomeBy, Except.map]

/-- Reading a printed statement comes to folding its expression. -/
theorem Writable.read (h : s.Writable) : ∃ ts last, ∃ s' : Stmt,
    (s.render ++ ";").lex = .ok (ts ++ [last]) ∧ last.kind = .eof ∧ s'.shape = s.computed.shape ∧
      ∀ stop, bare (statement stop (ts ++ [last])) = s'.check.map fun _ => (s', [last]) := by
  obtain ⟨ts, last, hlex, hlast, s', hstmt, hshape⟩ := h.spells.lex
  have hfit : Fits ts := by
    rw [hstmt.fits_iff]
    intro e' he'
    have hexpr := expr?_of_shape hshape
    rw [he', Option.map_some] at hexpr
    obtain ⟨e, he, hunplaced⟩ := Option.map_eq_some_iff.mp hexpr.symm
    rw [← Expr.literalsFit_unplaced, ← hunplaced, Expr.literalsFit_unplaced]
    exact (h.1 e he).literalsFit
  exact ⟨ts, last, s', hlex, hlast, hshape, fun stop => hstmt.read hfit [last]⟩

theorem Valued.check_eq (h : s.Valued) : s.check = .ok () := by
  unfold Valued at h
  split at h
  · next e he =>
    rw [check_of_expr he, h]
    rfl
  · next he => simp only [check, he]

theorem check_eq_ok_of_shape (h : s'.shape = s.computed.shape) : s'.check = .ok () ↔ s.check = .ok () := by
  have hsame := check_of_shape h
  cases hs' : s'.check <;> cases hs : s.check <;> simp_all [outcomeBy]

theorem valued_of_check (hcheck : s.check = .ok ()) (hshape : s.computed.shape = s.shape) : s.Valued := by
  have hfolds : ∀ e, s.expr? = some e → e.fold = .ok e.value := by
    intro e he
    rw [check_of_expr he] at hcheck
    unfold Expr.value
    cases hf : e.fold with
    | error fault =>
      rw [hf] at hcheck
      cases hcheck
    | ok v => rfl
  cases s with
  | call c =>
    obtain ⟨callee, arg, value, target, pos⟩ := c
    cases arg with
    | none =>
      simp only [computed, shape, Call.unplaced, call.injEq, Call.mk.injEq] at hshape
      exact hshape.2.2.1.symm
    | some e =>
      simp only [computed, shape, Call.unplaced, call.injEq, Call.mk.injEq] at hshape
      have hvalue : e.value = value := hshape.2.2.1
      exact hvalue ▸ hfolds e rfl
  | expr e value pos =>
    simp only [computed, shape, Stmt.unplaced, expr.injEq] at hshape
    have hvalue : e.value = value := hshape.2.1
    exact hvalue ▸ hfolds e rfl

/-- A printed statement is read back exactly if it carries its value. -/
theorem Writable.readsBack_iff (h : s.Writable) : s.ReadsBack (s.render ++ ";") ↔ s.Valued := by
  obtain ⟨ts, last, s', hlex, hlast, hshape, hread⟩ := h.read
  constructor
  · rintro ⟨ts', last', s'', hlex', -, hread', hshape'⟩
    rw [hlex] at hlex'
    have hsame := hread last
    rw [Except.ok.inj hlex', hread' last] at hsame
    cases hs' : s'.check with
    | error fault =>
      rw [hs'] at hsame
      cases hsame
    | ok =>
      rw [hs'] at hsame
      cases hsame
      exact valued_of_check ((check_eq_ok_of_shape hshape).mp hs') (hshape.symm.trans hshape')
  · intro hvalue
    refine ⟨ts, last, s', hlex, hlast, fun stop => ?_, ?_⟩
    · rw [hread stop, (check_eq_ok_of_shape hshape).mpr hvalue.check_eq]
      rfl
    · rw [hshape, hvalue.computed_eq]

/-- A printed statement without a value is refused for the same cause. -/
theorem Writable.refused (h : s.Writable) {e : Expr} (he : s.expr? = some e) {fault : Fault}
    (hfault : e.fold = .error fault) :
    ∃ ts last fault', (s.render ++ ";").lex = .ok (ts ++ [last]) ∧ last.kind = .eof ∧
      (∀ stop, bare (statement stop (ts ++ [last])) = .error fault') ∧
        fault'.unplaced = fault.unplaced := by
  obtain ⟨ts, last, s', hlex, hlast, hshape, hread⟩ := h.read
  have hsame := check_of_shape hshape
  rw [check_of_expr he, hfault] at hsame
  cases hs' : s'.check with
  | ok =>
    rw [hs'] at hsame
    cases hsame
  | error fault' =>
    rw [hs'] at hsame
    refine ⟨ts, last, fault', hlex, hlast, fun stop => ?_, Except.error.inj hsame⟩
    rw [hread stop, hs']
    rfl

end Stmt

/-! ### Statements that were read from a source -/

/-- The numbers and names among some tokens are lexemes. -/
def Worded (ts : List Token) : Prop :=
  ∀ t ∈ ts, t.kind = .integer ∨ t.kind = .identifier → IsLexeme t.kind t.lexeme

theorem Lexical.Layout.worded {source : Text} {pos : Position} {gs : List Glyph} {ts : List Token}
    (h : Layout pos gs ts) (front : List Glyph) (hgs : source.glyphs = front ++ gs) : Worded ts := by
  induction h generalizing front with
  | stop hgap => simp [Worded]
  | @token pos gap tok rest kind lexeme ts hgap htok hkind hrest ih =>
    rw [← List.append_assoc] at hgs
    have hts : Worded ts := ih (front ++ gap ++ tok) (by simpa using hgs)
    refine List.forall_mem_cons.mpr ⟨fun hword => ?_, hts⟩
    obtain ⟨hlexeme, -, hbefore⟩ := htok.of_word hword
    have hglyphs : lexeme.glyphs = tok := by rw [hlexeme, Text.glyphs_middle hgs]
    rw [IsLexeme, hglyphs]
    exact hbefore [] (by simp [EndsWord])
  | @asm pos gap key space body rest lexeme ts hgap hkey hspace hbody hrest ih =>
    have hts := ih (front ++ gap ++ key ++ space ++ ⟨'\x7b', "\x7b"⟩ :: body ++ [⟨'\x7d', "\x7d"⟩])
      (by simpa using hgs)
    simpa [Worded] using hts

namespace Grammar

variable {ts : List Token} {s : Stmt}

theorem Expression.writable {l : Level} {e : Expr} (h : Expression l ts e) (hfit : Fits ts)
    (hwords : Worded ts) : e.Writable := by
  induction h with
  | tighter hm h ih => exact ih hfit hwords
  | join hm hop hleft hright ihl ihr =>
    refine ⟨Level.operators_subset _ hop, ihl ?_ ?_, ihr ?_ ?_⟩
    · exact fun t ht => hfit t (by simp [ht])
    · exact fun t ht => hwords t (by simp [ht])
    · exact fun t ht => hfit t (by simp [ht])
    · exact fun t ht => hwords t (by simp [ht])
  | sign hop h ih =>
    exact ⟨isUnary_iff.mpr hop, ih (fun t ht => hfit t (by simp [ht])) fun t ht => hwords t (by simp [ht])⟩
  | @literal t ht =>
    obtain ⟨v, hv⟩ := hfit t (by simp) ht
    refine ⟨ht ▸ hwords t (by simp) (.inl ht), ?_⟩
    rw [hv]
    rfl
  | parens hl hr h ih =>
    exact ih (fun t ht => hfit t (by simp [ht])) fun t ht => hwords t (by simp [ht])

theorem Statement.writable (h : Statement ts s) (hfit : Fits ts) (hwords : Worded ts) : s.Writable := by
  cases h with
  | @call name lparen rparen semi hname hl hr hs =>
    refine ⟨by simp [Stmt.expr?], ?_⟩
    rintro c ⟨⟩
    exact hname ▸ hwords name (by simp) (.inr hname)
  | @callWith name lparen rparen semi ts e hname hl hr hs he =>
    constructor
    · rintro e ⟨⟩
      exact he.writable (fun t ht => hfit t (by simp [ht])) fun t ht => hwords t (by simp [ht])
    · rintro c ⟨⟩
      exact hname ▸ hwords name (by simp) (.inr hname)
  | @expr first semi ts e hs he =>
    refine ⟨?_, by simp [Stmt.call?]⟩
    rintro e ⟨⟩
    exact he.writable (fun t ht => hfit t (List.mem_append_left _ ht)) fun t ht =>
      hwords t (List.mem_append_left _ ht)

theorem Statement.valued (h : Statement ts s) (hfolds : s.Folds) : s.Valued := by
  unfold Stmt.Valued
  split
  · next e he =>
    obtain ⟨v, hv⟩ := hfolds e he
    rw [h.value_eq he, Expr.value_of_fold hv, hv]
  · next he =>
    cases h with
    | call => rfl
    | callWith => cases he
    | expr => cases he

end Grammar

theorem Stmt.Writable.bind {s : Stmt} (names : List Text) (h : s.Writable) : (s.bind names).Writable := by
  refine ⟨by simpa using h.1, ?_⟩
  intro c hc
  rw [Stmt.call?_bind] at hc
  obtain ⟨c', hc', rfl⟩ := Option.map_eq_some_iff.mp hc
  exact h.2 c' hc'

theorem Stmt.Valued.bind {s : Stmt} (names : List Text) (h : s.Valued) : (s.bind names).Valued := by
  simpa [Stmt.Valued] using h

section Compiled

variable {p : Profile} {source : Text} {ts : List Token} {prog : Program} {d : Decl} {s : Stmt}

theorem readsBack_of_ofTokens (hlex : source.lex = .ok ts) (hprog : Program.ofTokens p ts = .ok prog)
    (hd : d ∈ prog.decls) (hs : s ∈ d.stmts) : s.ReadsBack (s.render ++ ";") := by
  have hwords : Worded ts := (lex_eq_ok_iff.mp hlex).worded [] rfl
  obtain ⟨used, ds, rest, rfl, -, hseq, hfit, hacc, hdecls, -⟩ := ofTokens_sound hprog
  rw [hdecls] at hd
  obtain ⟨d₀, hd₀, rfl⟩ := List.mem_map.mp hd
  rw [Decl.stmts_bind] at hs
  obtain ⟨s₀, hs₀, rfl⟩ := List.mem_map.mp hs
  obtain ⟨us, hus, hdecl⟩ := hseq.forall_mem d₀ hd₀
  obtain ⟨vs, hvs, hstmt⟩ := hdecl.forall_mem_stmts s₀ hs₀
  have hmem : ∀ t ∈ vs, t ∈ used := fun t ht => hus (hvs ht)
  have hfolds : s₀.Folds := Decl.folds_iff.mp (hacc.values d₀ hd₀) s₀ hs₀
  have hwritable : s₀.Writable :=
    hstmt.writable (fun t ht => hfit t (hmem t ht)) fun t ht => hwords t (List.mem_append_left _ (hmem t ht))
  exact (hwritable.bind _).readsBack_iff.mpr ((hstmt.valued hfolds).bind _)

/-- The code of a statement of an emitted function stands in the listing in one piece. -/
theorem stmtCode_mem_listing (h : prog.Checked p) {l : Listing} (hl : prog.listing p = .ok l)
    (hd : d ∈ prog.emitted p) (hs : s ∈ d.stmts) : ∃ front back, l = front ++ s.code p ++ back := by
  obtain ⟨front, back, rfl⟩ := h.code_mem_listing hl hd
  cases hb : d.body with
  | asm text pos => simp [Decl.stmts, hb] at hs
  | stmts ss =>
    rw [Decl.stmts, hb] at hs
    obtain ⟨before, after, rfl⟩ := List.append_of_mem hs
    refine ⟨front ++ .label (p.label d.name) :: before.flatMap (Stmt.code p),
      after.flatMap (Stmt.code p) ++ p.exitCode d.name ++ back, ?_⟩
    simp [Decl.code, Decl.bodyCode, hb]

theorem code_of_comments (hp : p.comments = true) (s : Stmt) :
    ∃ code, s.code p = .comment s.render :: code := by
  cases s <;> exact ⟨_, by simp only [Stmt.code, hp]; rfl⟩

end Compiled

/-- Printed expressions are read back as they were, up to positions. Printed statements are, up to
positions and bindings, exactly if they carry the value of their expression; if the expression has none,
the printed statement is refused for the same cause. In a listing with comments, the comment above the
code of every statement is read back as that statement. -/
theorem printing_reads_back :
    (∀ e : Expr, e.Writable → e.ReadsBack e.render) ∧
    (∀ s : Stmt, s.Writable → (s.ReadsBack (s.render ++ ";") ↔ s.Valued)) ∧
    (∀ (s : Stmt) (e : Expr) (fault : Fault), s.Writable → s.expr? = some e → e.fold = .error fault →
      ∃ ts last fault', (s.render ++ ";").lex = .ok (ts ++ [last]) ∧ last.kind = .eof ∧
        (∀ stop, bare (statement stop (ts ++ [last])) = .error fault') ∧
          fault'.unplaced = fault.unplaced) ∧
    ∀ (p : Profile) (source : Text) (o : Output), compile p source = .ok o → p.comments = true →
      ∀ d ∈ o.program.emitted p, ∀ s ∈ d.stmts, ∃ front code back,
        o.listing = front ++ s.code p ++ back ∧ s.code p = .comment s.render :: code ∧
          s.ReadsBack (s.render ++ ";") := by
  refine ⟨fun e he => he.readsBack, fun s hs => hs.readsBack_iff,
    fun s e fault hs he hfault => hs.refused he hfault, ?_⟩
  intro p source o ho hcomments d hd s hs
  obtain ⟨-, ts, hlex, hprog, hlisting, -⟩ := compile_eq_ok_iff.mp ho
  have hchecked := Program.checked_of_ofTokens hprog
  obtain ⟨front, back, hfront⟩ := stmtCode_mem_listing hchecked hlisting hd hs
  obtain ⟨code, hcode⟩ := code_of_comments hcomments s
  exact ⟨front, code, back, hfront, hcode,
    readsBack_of_ofTokens hlex hprog (hchecked.emitted_subset hd) hs⟩

theorem isLexeme_digit {c : Char} (hc : Token.isIntegerLiteral [c] = true) (hword : Token.startsWord c = false)
    (hdigit : isDigit c = true) : IsLexeme .integer (Text.ofChar c) := by
  have htok : Lexeme [Glyph.of c] [] .integer (Text.ofGlyphs [Glyph.of c]) := by
    refine .integer hword hdigit ⟨?_, by simp⟩ hc
    intro g hg
    obtain rfl := List.mem_singleton.mp hg
    simp [Token.isWordChar, Glyph.of, hdigit]
  have hlexeme : Text.ofGlyphs [Glyph.of c] = Text.ofChar c := by simp [Text.ofGlyphs, Glyph.of]
  rw [IsLexeme, glyphs_ofChar, ← hlexeme]
  exact htok

/-- The statement `1 / 0`. -/
def quotientByZero : Stmt :=
  .expr (.binary .slash (.literal 1 "1" ⟨1, 1⟩) (.literal 0 "0" ⟨1, 5⟩) ⟨1, 3⟩) 0 ⟨1, 1⟩

/-- A statement without a value is not read back. -/
theorem quotientByZero_not_read_back :
    quotientByZero.Writable ∧ ¬quotientByZero.ReadsBack (quotientByZero.render ++ ";") := by
  have hone : IsLexeme .integer "1" := isLexeme_digit (c := '1') (by decide) (by decide) (by decide)
  have hzero : IsLexeme .integer "0" := isLexeme_digit (c := '0') (by decide) (by decide) (by decide)
  have hwritable : quotientByZero.Writable := by
    refine ⟨?_, by simp [quotientByZero, Stmt.call?]⟩
    rintro e ⟨⟩
    exact ⟨by decide, ⟨hone, by decide⟩, hzero, by decide⟩
  refine ⟨hwritable, fun hread => ?_⟩
  have hvalued := hwritable.readsBack_iff.mp hread
  cases hvalued

/-- The call `f(-(1 + 2) * 3)` with its value. -/
def nestedCall : Stmt :=
  .call ⟨"f", some (.binary .star
    (.unary .minus (.binary .plus (.literal 1 "1" ⟨1, 6⟩) (.literal 2 "2" ⟨1, 10⟩) ⟨1, 8⟩) ⟨1, 3⟩)
    (.literal 3 "3" ⟨1, 15⟩) ⟨1, 13⟩), -9, .declared, ⟨1, 1⟩⟩

theorem printing_reads_back_nested :
    (nestedCall.Writable ∧ nestedCall.Valued ∧ nestedCall.ReadsBack (nestedCall.render ++ ";")) ∧
      ∃ o, compile sampleProfile sampleSource = .ok o ∧ sampleProfile.comments = true ∧
        ∀ d ∈ o.program.emitted sampleProfile, ∀ s ∈ d.stmts, s.ReadsBack (s.render ++ ";") := by
  have hname : IsLexeme .identifier "f" := by
    have hglyphs : Text.glyphs "f" = [Glyph.of 'f'] := glyphs_ofChar 'f'
    rw [IsLexeme, hglyphs]
    exact .word (g := Glyph.of 'f') (by decide) ⟨by decide, by simp⟩
  have hwritable : nestedCall.Writable := by
    constructor
    · rintro e ⟨⟩
      exact ⟨by decide, ⟨rfl, by decide, ⟨isLexeme_digit (c := '1') (by decide) (by decide) (by decide), by decide⟩,
        isLexeme_digit (c := '2') (by decide) (by decide) (by decide), by decide⟩,
        isLexeme_digit (c := '3') (by decide) (by decide) (by decide), by decide⟩
    · rintro c ⟨⟩
      exact hname
  have hvalued : nestedCall.Valued := rfl
  obtain ⟨ts, prog, hlex, hprog⟩ := sample_read
  obtain ⟨o, ho, -⟩ := exists_compile_eq_ok sampleProfile_flaw hlex hprog
  refine ⟨⟨hwritable, hvalued, (printing_reads_back.2.1 nestedCall hwritable).mpr hvalued⟩, o, ho, rfl, ?_⟩
  intro d hd s hs
  obtain ⟨front, code, back, -, -, hread⟩ := printing_reads_back.2.2.2 _ _ o ho rfl d hd s hs
  exact hread

end Pocket

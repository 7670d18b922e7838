import Pocket.Proofs.ParserComplete

/-!
# Accepted programs

A list of tokens is accepted as a program exactly if it derives from the grammar, all its expressions
have values, its functions have names and labels of their own, every call has a target, and there is an
entry. The functions of the program are then the only tree the tokens derive, with the calls bound.
-/

namespace Pocket

open Pocket.Parser

namespace Grammar

/-! ### Literals and integer tokens -/

theorem Statement.fits_iff {ts : List Token} {s : Stmt} (h : Statement ts s) :
    Fits ts ↔ ∀ e, s.expr? = some e → e.LiteralsFit := by
  cases h with
  | call hname hl hr hs =>
    rw [fits_cons_kind hname rfl, fits_cons_kind hl rfl, fits_cons_kind hr rfl, fits_cons_kind hs rfl]
    simp [fits_nil, Stmt.expr?]
  | callWith hname hl hr hs he =>
    rw [List.cons_append, List.cons_append, fits_cons_kind hname rfl, fits_cons_kind hl rfl, fits_append,
      fits_cons_kind hr rfl, fits_cons_kind hs rfl, ← he.literalsFit_iff]
    simp [fits_nil, Stmt.expr?]
  | expr hs he =>
    rw [fits_append, fits_cons_kind hs rfl, ← he.literalsFit_iff]
    simp [fits_nil, Stmt.expr?]

/-- What holds of the tokens of each part holds of the tokens of a sequence. -/
theorem Sequence.fits_iff {α : Type} {Form : List Token → α → Prop} {ts : List Token} {xs : List α}
    (h : Sequence Form ts xs) {P : α → Prop} (hform : ∀ ts x, Form ts x → (Fits ts ↔ P x)) :
    Fits ts ↔ ∀ x ∈ xs, P x := by
  induction h with
  | nil => simp [fits_nil]
  | cons hx _ ih => rw [fits_append, hform _ _ hx, ih, List.forall_mem_cons]

theorem Declaration.fits_iff {ts : List Token} {d : Decl} (h : Declaration ts d) :
    Fits ts ↔ ∀ e ∈ d.exprs, e.LiteralsFit := by
  cases h with
  | @function type name lparen rparen lbrace rbrace params ts b htype hname hl hparams hr hlb hrb hb =>
    rw [fits_function htype hname hl hparams hr hlb hrb]
    cases hb with
    | asm hkey hl ht hr hs =>
      rw [fits_cons_kind hkey rfl, fits_cons_kind hl rfl, fits_cons_kind ht rfl, fits_cons_kind hr rfl]
      rcases hs with rfl | ⟨s, hs, rfl⟩
      · simp [fits_nil, Decl.exprs, Decl.stmts]
      · rw [fits_cons_kind hs rfl]
        simp [fits_nil, Decl.exprs, Decl.stmts]
    | @stmts ts ss hss =>
      rw [hss.fits_iff fun _ _ => Statement.fits_iff]
      simp only [Decl.exprs, Decl.stmts, List.mem_filterMap]
      constructor
      · rintro h e ⟨s, hs, he⟩
        exact h s hs e he
      · exact fun h s hs e he => h e ⟨s, hs, he⟩

/-! ### Acceptance -/

/-- What a grammatical program needs in order to be accepted under a profile. -/
structure Accepted (p : Profile) (ds : List Decl) : Prop where
  literals : ∀ d ∈ ds, ∀ e ∈ d.exprs, e.LiteralsFit
  values : ∀ d ∈ ds, ∀ e ∈ d.exprs, ∃ v, e.fold = .ok v
  names : (ds.map (·.name)).Nodup
  labels : ∀ d ∈ ds, d.name ≠ p.entry → p.labelPrefix ++ d.name ≠ p.startLabel
  calls : ∀ d ∈ ds, ∀ c ∈ d.calls, c.callee ∈ ds.map (·.name) ∨ p.isExternal c.callee = true
  entry : p.entry ∈ ds.map (·.name)

theorem foldlM_checkIn {ds : List Decl} {t t' : DeclTable} :
    ds.foldlM checkIn t = .ok t' ↔ (∀ d ∈ ds, d.check = .ok ()) ∧ t.enter ds = .ok t' := by
  induction ds generalizing t with
  | nil => simp [DeclTable.enter]
  | cons d ds ih =>
    rw [DeclTable.enter, List.foldlM_cons, List.foldlM_cons, bind_eq_ok_iff, bind_eq_ok_iff,
      List.forall_mem_cons]
    constructor
    · rintro ⟨t₁, h₁, h₂⟩
      obtain ⟨_, hd, h₁⟩ := bind_eq_ok_iff.mp h₁
      obtain ⟨hds, h₂⟩ := ih.mp h₂
      exact ⟨⟨hd, hds⟩, t₁, h₁, h₂⟩
    · rintro ⟨⟨hd, hds⟩, t₁, h₁, h₂⟩
      exact ⟨t₁, bind_eq_ok_iff.mpr ⟨(), hd, h₁⟩, ih.mpr ⟨hds, h₂⟩⟩

/-- The tokens of a program without the one that ends it, none of which ends it. -/
theorem only_eof_last {body used rest : List Token} {last stop : Token}
    (hbody : ∀ t ∈ body, t.kind ≠ .eof) (h : body ++ [last] = used ++ rest)
    (hrest : (peek stop rest).kind = .eof) (hused : ∀ t ∈ used, t.kind ≠ .eof)
    (hlast : last.kind = .eof) : used = body ∧ rest = [last] := by
  rcases List.append_eq_append_iff.mp h with ⟨mid, rfl, hmid⟩ | ⟨mid, rfl, rfl⟩
  · cases mid with
    | nil => exact ⟨by simp, by simpa using hmid.symm⟩
    | cons t mid =>
      obtain ⟨rfl, -⟩ := List.cons.inj hmid
      exact absurd hlast (hused last (by simp))
  · cases mid with
    | nil => exact ⟨by simp, rfl⟩
    | cons t mid => exact absurd hrest (hbody t (by simp))

/-! ### The parser and the grammar -/

variable {p : Profile} {body : List Token} {last : Token} {ds ds' : List Decl} {prog : Program}

theorem ofTokens_sound {ts : List Token} (h : Program.ofTokens p ts = .ok prog) :
    ∃ used ds rest, ts = used ++ rest ∧ (peek (stopOf ts) rest).kind = .eof ∧
      Sequence Declaration used ds ∧ Fits used ∧ Accepted p ds ∧
      prog.decls = ds.map (Decl.bind (ds.map (·.name))) ∧
      ∃ called, prog.table = ⟨p, prog.decls, called⟩ := by
  obtain ⟨⟨table, last⟩, h₁, g₁⟩ := bind_eq_ok_iff.mp h
  obtain ⟨⟨decls, table'⟩, h₂, g₂⟩ := bind_eq_ok_iff.mp g₁
  obtain ⟨used, ds, rest, hts, hend, hseq, hfit, hfolds, henter⟩ :=
    declarations_sound _ ts _ _ _ (Nat.le_refl _) h₁
  obtain ⟨hnames, -, hlabels, rfl⟩ := DeclTable.enter_eq_ok_iff.mp henter
  obtain ⟨hcalls, rfl, called, rfl⟩ := resolveDecls_ok h₂
  dsimp only at g₂
  split at g₂
  · cases g₂
  · next hentry =>
    cases g₂
    refine ⟨used, ds, rest, hts, hend, hseq, hfit, ⟨?_, hfolds, hnames, hlabels, hcalls, ?_⟩, rfl,
      called, rfl⟩
    · exact (hseq.fits_iff fun _ _ => Declaration.fits_iff).mp hfit
    · exact DeclTable.not_isNone_lookup?.mp hentry

theorem Accepted.checkIn (h : Accepted p ds) :
    ds.foldlM checkIn (DeclTable.empty p) = .ok ⟨p, ds, []⟩ := by
  refine foldlM_checkIn.mpr ⟨fun d hd => Decl.check_of_folds (h.values d hd), ?_⟩
  refine DeclTable.enter_eq_ok_iff.mpr ⟨h.names, ?_, h.labels, rfl⟩
  simp [DeclTable.empty, DeclTable.names]

theorem ofTokens_complete (hseq : Sequence Declaration body ds) (hlast : last.kind = .eof)
    (h : Accepted p ds) : ∃ prog, Program.ofTokens p (body ++ [last]) = .ok prog := by
  have hfit : Fits body := (hseq.fits_iff fun _ _ => Declaration.fits_iff).mpr h.literals
  obtain ⟨decls, table, hres⟩ := resolveDecls_known (t := ⟨p, ds, []⟩) h.calls
  obtain ⟨-, rfl, called, rfl⟩ := resolveDecls_ok hres
  have hentry : ¬(DeclTable.lookup? ⟨p, ds, called⟩ p.entry).isNone = true :=
    DeclTable.not_isNone_lookup?.mpr h.entry
  refine ⟨_, bind_eq_ok_iff.mpr ⟨(⟨p, ds, []⟩, last), ?_,
    bind_eq_ok_iff.mpr ⟨_, hres, if_neg hentry⟩⟩⟩
  rw [hseq.readDeclarations hfit hlast, h.checkIn]
  rfl

/-- Tokens that are accepted derive one tree only: reading them does not depend on the derivation. -/
theorem tree_unique (hseq : Sequence Declaration body ds) (hseq' : Sequence Declaration body ds')
    (hlast : last.kind = .eof) (h : Accepted p ds) : ds' = ds := by
  have hfit : Fits body := (hseq.fits_iff fun _ _ => Declaration.fits_iff).mpr h.literals
  have hread : declarations last (.empty p) (body ++ [last]) = _ :=
    hseq.readDeclarations hfit hlast (.empty p)
  have hread' : declarations last (.empty p) (body ++ [last]) = _ :=
    hseq'.readDeclarations hfit hlast (.empty p)
  rw [h.checkIn] at hread
  rw [hread] at hread'
  cases hadmit' : ds'.foldlM checkIn (DeclTable.empty p) with
  | error fault =>
    rw [hadmit'] at hread'
    cases hread'
  | ok table =>
    rw [hadmit'] at hread'
    cases hread'
    obtain ⟨-, -, -, htable⟩ := DeclTable.enter_eq_ok_iff.mp (foldlM_checkIn.mp hadmit').2
    exact (congrArg DeclTable.decls htable).symm

theorem programOf_iff : ProgramOf (body ++ [last]) ds ↔ last.kind = .eof ∧ Sequence Declaration body ds := by
  constructor
  · intro h
    generalize hts : body ++ [last] = ts at h
    cases h with
    | program hstop hseq =>
      obtain ⟨rfl, hcons⟩ := List.append_inj' hts rfl
      cases hcons
      exact ⟨hstop, hseq⟩
  · rintro ⟨hlast, hseq⟩
    exact .program hlast hseq

/-- A list of tokens that ends in its only end token is accepted exactly if it derives from the grammar
and the tree meets the conditions on values, names, labels, calls and the entry. The functions of the
program are then the only tree the tokens derive, in source order and with the calls bound. -/
theorem ofTokens_accepts_grammar (p : Profile) (body : List Token) (last : Token)
    (hbody : ∀ t ∈ body, t.kind ≠ .eof) (hlast : last.kind = .eof) :
    ((∃ prog, Program.ofTokens p (body ++ [last]) = .ok prog) ↔
      ∃ ds, ProgramOf (body ++ [last]) ds ∧ Accepted p ds) ∧
    ∀ prog, Program.ofTokens p (body ++ [last]) = .ok prog →
      ∃ ds, ProgramOf (body ++ [last]) ds ∧ (∀ ds', ProgramOf (body ++ [last]) ds' → ds' = ds) ∧
        prog.decls = ds.map (Decl.bind (ds.map (·.name))) := by
  -- The end token stands at the end only, so the parser has used up all others.
  have hsound : ∀ prog, Program.ofTokens p (body ++ [last]) = .ok prog →
      ∃ ds, Sequence Declaration body ds ∧ Accepted p ds ∧
        prog.decls = ds.map (Decl.bind (ds.map (·.name))) := by
    intro prog h
    obtain ⟨used, ds, rest, hts, hend, hseq, -, hacc, hdecls, -⟩ := ofTokens_sound h
    obtain ⟨rfl, -⟩ := only_eof_last hbody hts hend hseq.no_eof hlast
    exact ⟨ds, hseq, hacc, hdecls⟩
  refine ⟨⟨?_, ?_⟩, ?_⟩
  · rintro ⟨prog, h⟩
    obtain ⟨ds, hseq, hacc, -⟩ := hsound prog h
    exact ⟨ds, programOf_iff.mpr ⟨hlast, hseq⟩, hacc⟩
  · rintro ⟨ds, hds, hacc⟩
    exact ofTokens_complete (programOf_iff.mp hds).2 hlast hacc
  · intro prog h
    obtain ⟨ds, hseq, hacc, hdecls⟩ := hsound prog h
    refine ⟨ds, programOf_iff.mpr ⟨hlast, hseq⟩, ?_, hdecls⟩
    intro ds' hds'
    exact tree_unique hseq (programOf_iff.mp hds').2 hlast hacc

/-- The tokens of `void main(void) { main(-7 * 2); }` up to the end. -/
def selfCall : List Token :=
  [⟨.void, "void", ⟨1, 1⟩⟩, ⟨.identifier, "main", ⟨1, 6⟩⟩, ⟨.leftParen, "(", ⟨1, 10⟩⟩,
   ⟨.void, "void", ⟨1, 11⟩⟩, ⟨.rightParen, ")", ⟨1, 15⟩⟩, ⟨.leftBrace, "\x7b", ⟨1, 17⟩⟩,
   ⟨.identifier, "main", ⟨1, 19⟩⟩, ⟨.leftParen, "(", ⟨1, 23⟩⟩, ⟨.minus, "-", ⟨1, 24⟩⟩,
   ⟨.integer, "7", ⟨1, 25⟩⟩, ⟨.star, "*", ⟨1, 27⟩⟩, ⟨.integer, "2", ⟨1, 29⟩⟩,
   ⟨.rightParen, ")", ⟨1, 30⟩⟩, ⟨.semicolon, ";", ⟨1, 31⟩⟩, ⟨.rightBrace, "\x7d", ⟨1, 33⟩⟩]

/-- The argument of the call: the sign belongs to the first factor. -/
def selfCallArgument : Expr :=
  .binary .star (.unary .minus (.literal 7 "7" ⟨1, 25⟩) ⟨1, 24⟩) (.literal 2 "2" ⟨1, 29⟩) ⟨1, 27⟩

/-- The function that calls itself. -/
def selfCallDecl : Decl :=
  ⟨"main", "void", .stmts [.call ⟨"main", some selfCallArgument, -14, .unresolved, ⟨1, 19⟩⟩], ⟨1, 6⟩⟩

theorem ofTokens_accepts_selfCall :
    (∀ t ∈ selfCall, t.kind ≠ .eof) ∧
      ∃ prog, Program.ofTokens .standard (selfCall ++ [⟨.eof, [], ⟨1, 34⟩⟩]) = .ok prog := by
  have hbody : ∀ t ∈ selfCall, t.kind ≠ .eof := by decide
  refine ⟨hbody, (ofTokens_accepts_grammar .standard selfCall _ hbody rfl).1.mpr
    ⟨[selfCallDecl], .program rfl ?_, ?_⟩⟩
  · have harg : Expression .bitwiseOr ((selfCall.drop 8).take 4) selfCallArgument :=
      .tighter rfl (.tighter rfl (.tighter rfl (.tighter rfl (.tighter rfl
        (@Expression.join _ _ ((selfCall.drop 8).take 2) _ _ _ _ rfl (by decide)
          (.tighter rfl (.sign (by decide) (.tighter rfl (.literal rfl))))
          (.tighter rfl (.literal rfl)))))))
    have hstmt : Statement ((selfCall.drop 6).take 8) _ := .callWith rfl rfl rfl rfl harg
    have hbody : FunctionBody ((selfCall.drop 6).take 8) _ := .stmts (.cons hstmt .nil)
    have hdecl : Declaration selfCall selfCallDecl :=
      .function (by decide) rfl rfl (Or.inr ⟨_, rfl, rfl⟩) rfl rfl rfl hbody
    exact @Sequence.cons _ _ selfCall [] _ _ hdecl .nil
  · refine ⟨by decide, ?_, by decide, by decide, by decide, by decide⟩
    intro d hd e he
    obtain rfl : d = selfCallDecl := by simpa using hd
    obtain rfl : e = selfCallArgument := by simpa [selfCallDecl, Decl.exprs, Decl.stmts, Stmt.expr?] using he
    exact ⟨-14, rfl⟩

end Grammar

end Pocket

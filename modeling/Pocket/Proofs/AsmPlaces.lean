import Mathlib
import Pocket.Proofs.Grammatical
import Pocket.Proofs.WholeBlocks

/-!
# Where raw blocks stand

A raw block may stand in one place only: at the beginning of the body of a function, right behind the
brace that opens it. The tokens of a source come in groups, so the parser finds every block complete;
wherever else a block stands, the program is refused.
-/

namespace Pocket

namespace Grammar

open Pocket.Parser

/-- Tokens of a function up to the brace that opens its body. -/
inductive Heading : List Token → Prop where
  | function {type name lparen rparen lbrace : Token} {params : List Token}
      (htype : type.kind ∈ [.void, .int, .char]) (hname : name.kind = .identifier)
      (hl : lparen.kind = .leftParen)
      (hparams : params = [] ∨ ∃ v, v.kind = .void ∧ params = [v])
      (hr : rparen.kind = .rightParen) (hlb : lbrace.kind = .leftBrace) :
      Heading (type :: name :: lparen :: params ++ [rparen, lbrace])

/-- Tokens behind which the body of a function begins: whole functions and the heading of one more. -/
def OpensBody (front : List Token) : Prop :=
  ∃ before ds heading, front = before ++ heading ∧ Sequence Declaration before ds ∧ Heading heading

variable {l : Level} {ts front back : List Token} {key : Token}

theorem OpensBody.last (h : OpensBody front) : ∃ lbrace ∈ front.getLast?, lbrace.kind = .leftBrace := by
  obtain ⟨before, ds, heading, rfl, -, hheading⟩ := h
  cases hheading with
  | @function type name lparen rparen lbrace params _ _ _ _ _ hlb =>
    refine ⟨lbrace, ?_, hlb⟩
    have hsplit : before ++ (type :: name :: lparen :: params ++ [rparen, lbrace]) =
        before ++ (type :: name :: lparen :: params ++ [rparen]) ++ [lbrace] := by simp
    rw [hsplit, List.getLast?_concat]
    rfl

/-! ### The keyword in derivations -/

theorem Expression.no_asm {e : Expr} (h : Expression l ts e) : ∀ t ∈ ts, t.kind ≠ .asm := by
  induction h with
  | tighter _ _ ih => exact ih
  | @join l _ _ _ op _ _ _ hop _ _ iha ihb =>
    have hasm : .asm ∉ operatorLevels.flatten := by decide
    have hne : op.kind ≠ .asm := fun heq => hasm (heq ▸ Level.operators_subset l hop)
    exact List.forall_mem_append.mpr ⟨iha, List.forall_mem_cons.mpr ⟨hne, ihb⟩⟩
  | @sign op _ _ hop _ ih =>
    have hasm : .asm ∉ signs := by decide
    exact List.forall_mem_cons.mpr ⟨fun heq => hasm (heq ▸ hop), ih⟩
  | literal ht => simp [ht]
  | parens hl hr _ ih =>
    refine List.forall_mem_append.mpr ⟨List.forall_mem_cons.mpr ⟨by simp [hl], ih⟩, ?_⟩
    simp [hr]

theorem Statement.no_asm {s : Stmt} (h : Statement ts s) : ∀ t ∈ ts, t.kind ≠ .asm := by
  cases h with
  | call hname hl hr hs => simp [hname, hl, hr, hs]
  | callWith hname hl hr hs he => simpa [hname, hl, hr, hs, or_imp, forall_and] using he.no_asm
  | expr hs he =>
    refine List.forall_mem_append.mpr ⟨he.no_asm, ?_⟩
    simp [hs]

theorem Sequence.no_asm {ss : List Stmt} (h : Sequence Statement ts ss) : ∀ t ∈ ts, t.kind ≠ .asm := by
  induction h with
  | nil => simp
  | cons hs _ ih => exact List.forall_mem_append.mpr ⟨hs.no_asm, ih⟩

theorem Heading.no_asm (h : Heading ts) : ∀ t ∈ ts, t.kind ≠ .asm := by
  cases h with
  | @function type _ _ _ _ _ htype hname hl hparams hr hlb =>
    have hne : type.kind ≠ .asm := by
      intro heq
      simp [heq] at htype
    rcases hparams with rfl | ⟨v, hv, rfl⟩
    · simp [hne, hname, hl, hr, hlb]
    · simp [hne, hname, hl, hr, hlb, hv]

/-- In the body of a function and the brace that closes it, the keyword can only come first. -/
theorem FunctionBody.asm_first {b : Body} {rbrace : Token} (h : FunctionBody ts b)
    (hrb : rbrace.kind = .rightBrace) (hts : ts ++ [rbrace] = front ++ key :: back)
    (hkey : key.kind = .asm) : front = [] := by
  cases front with
  | nil => rfl
  | cons first front =>
    have hmem : ∀ {us : List Token}, us = front ++ key :: back → (∀ t ∈ us, t.kind ≠ .asm) → False := by
      rintro us rfl hne
      exact hne key (by simp) hkey
    cases h with
    | asm _ hl ht hr hs =>
      obtain ⟨-, hts⟩ := List.cons.inj hts
      refine (hmem hts ?_).elim
      rcases hs with rfl | ⟨s, hs, rfl⟩
      · simp [hl, ht, hr, hrb]
      · simp [hl, ht, hr, hrb, hs]
    | stmts hss =>
      have hne : ∀ t ∈ ts ++ [rbrace], t.kind ≠ .asm :=
        List.forall_mem_append.mpr ⟨hss.no_asm, by simp [hrb]⟩
      rw [hts] at hne
      exact absurd hkey (hne key (by simp))

theorem Declaration.heading {d : Decl} (h : Declaration ts d) : ∃ heading body rbrace,
    ts = heading ++ (body ++ [rbrace]) ∧ Heading heading ∧ FunctionBody body d.body ∧
      rbrace.kind = .rightBrace := by
  cases h with
  | @function type name lparen rparen lbrace rbrace params ts b htype hname hl hparams hr hlb hrb hb =>
    exact ⟨type :: name :: lparen :: params ++ [rparen, lbrace], ts, rbrace, by simp,
      .function htype hname hl hparams hr hlb, hb, hrb⟩

theorem Declaration.asm_behind_heading {d : Decl} (h : Declaration ts d) (hts : ts = front ++ key :: back)
    (hkey : key.kind = .asm) : Heading front := by
  obtain ⟨heading, body, rbrace, rfl, hheading, hbody, hrb⟩ := h.heading
  rcases List.append_eq_append_iff.mp hts with ⟨mid, rfl, hmid⟩ | ⟨mid, rfl, hmid⟩
  · rw [hbody.asm_first hrb hmid hkey, List.append_nil]
    exact hheading
  · cases mid with
    | nil => simpa using hheading
    | cons first mid =>
      obtain ⟨rfl, -⟩ := List.cons.inj hmid
      exact absurd hkey (hheading.no_asm key (by simp))

theorem OpensBody.behind {d : Decl} (h : OpensBody front) (hd : Declaration ts d) : OpensBody (ts ++ front) := by
  obtain ⟨before, ds, heading, rfl, hbefore, hheading⟩ := h
  exact ⟨ts ++ before, d :: ds, heading, by simp, .cons hd hbefore, hheading⟩

/-- Among functions, the keyword stands only where the body of one begins. -/
theorem Sequence.asm_opens {ds : List Decl} (h : Sequence Declaration ts ds)
    (hts : ts = front ++ key :: back) (hkey : key.kind = .asm) : OpensBody front := by
  induction h generalizing front with
  | nil => simp at hts
  | @cons ts us d ds hd _ ih =>
    rcases List.append_eq_append_iff.mp hts with ⟨mid, rfl, hmid⟩ | ⟨mid, hsplit, hmid⟩
    · exact (ih hmid).behind hd
    · cases mid with
      | nil =>
        have hopens : OpensBody [] := ih hmid.symm
        simpa [hsplit] using hopens.behind hd
      | cons first mid =>
        obtain ⟨rfl, -⟩ := List.cons.inj hmid
        exact ⟨[], [], front, rfl, .nil, hd.asm_behind_heading hsplit hkey⟩

/-- An accepted program has raw blocks only where the body of a function begins. -/
theorem opensBody_of_accepted {p : Profile} {prog : Program} (hgroups : Token.InGroups ts)
    (h : Program.ofTokens p ts = .ok prog) (hts : ts = front ++ key :: back) (hkey : key.kind = .asm) :
    OpensBody front := by
  obtain ⟨body, last, hbody, hlast, hne⟩ := hgroups.stop
  obtain ⟨used, ds, rest, hused, hend, hseq, -⟩ := ofTokens_sound h
  rw [hbody] at hused
  obtain ⟨rfl, -⟩ := only_eof_last hne hused hend hseq.no_eof hlast
  rw [hbody] at hts
  rcases List.eq_nil_or_concat back with rfl | ⟨init, u, rfl⟩
  · obtain ⟨-, heq⟩ := List.append_inj' hts rfl
    cases heq
    simp [hlast] at hkey
  · rw [List.concat_eq_append, ← List.cons_append, ← List.append_assoc] at hts
    obtain ⟨hinit, -⟩ := List.append_inj' hts rfl
    exact hseq.asm_opens hinit hkey

end Grammar

open Grammar Pocket.Parser

/-- The tokens of a source that can be read to its end come in groups: behind the keyword `asm` stand an
opening brace, a raw text without closing brace and a closing brace, raw texts stand nowhere else, and the
end token stands at the end only. So whatever the profile is, the parser never misses a part of a block,
and it never takes the end token: if it accepts the tokens, it takes all others; if it refuses them because
of a token, it stops before that one. It refuses every program with a raw block in another place than where
the body of a function begins. -/
theorem raw_blocks_whole (source : Text) (ts : List Token) (h : source.lex = .ok ts) :
    Token.InGroups ts ∧ ∀ p : Profile,
      (∀ what ∈ [Wanted.asmLeftBrace, .asmText, .asmRightBrace], ∀ pos got,
        Program.ofTokens p ts ≠ .error (.parse pos (.expected what got))) ∧
      (Tracked.run p ts).1 = Program.ofTokens p ts ∧
      (∃ taken, ts = taken ++ (Tracked.run p ts).2 ∧ ∀ t ∈ taken, t.kind ≠ .eof) ∧
      (∀ prog, Program.ofTokens p ts = .ok prog → ∃ last, (Tracked.run p ts).2 = [last] ∧ last.kind = .eof) ∧
      (∀ fault, Program.ofTokens p ts = .error fault →
        ∀ got ∈ fault.met?, (Tracked.run p ts).2.head? = some got) ∧
      ∀ front key back, ts = front ++ key :: back → key.kind = .asm → ¬OpensBody front →
        ∃ fault, Program.ofTokens p ts = .error fault := by
  have hgrouped := grouped_of_lex h
  refine ⟨hgrouped.inGroups, fun p => ?_⟩
  rw [← Tracked.fst_run p ts]
  obtain ⟨⟨⟨taken, htaken⟩, hleft⟩, hstops⟩ := Tracked.run_keeps p hgrouped
  refine ⟨fun what hwhat pos got hfault => (hstops _ hfault).outside hwhat, rfl,
    ⟨taken, htaken.symm, hgrouped.taken htaken.symm hleft.ne_nil⟩,
    fun prog hprog => Tracked.run_accepts hgrouped hprog, fun fault hfault => (hstops fault hfault).met,
    fun front key back hts hkey hplace => ?_⟩
  cases hprog : (Tracked.run p ts).1 with
  | error fault => exact ⟨fault, rfl⟩
  | ok prog =>
    rw [Tracked.fst_run] at hprog
    exact absurd (opensBody_of_accepted hgrouped.inGroups hprog hts hkey) hplace

/-- A function with a raw body and a block behind it. -/
def strayBlock : Text :=
  "void f()\x7basm\x7b\x7d\x7dasm\x7b\x7d"

/-- The tokens of the function. -/
def strayFront : List Token :=
  [⟨.void, "void", ⟨1, 1⟩⟩, ⟨.identifier, "f", ⟨1, 6⟩⟩, ⟨.leftParen, "(", ⟨1, 7⟩⟩,
   ⟨.rightParen, ")", ⟨1, 8⟩⟩, ⟨.leftBrace, "\x7b", ⟨1, 9⟩⟩, ⟨.asm, "asm", ⟨1, 10⟩⟩,
   ⟨.leftBrace, "\x7b", ⟨1, 13⟩⟩, ⟨.rawText, [], ⟨1, 14⟩⟩, ⟨.rightBrace, "\x7d", ⟨1, 14⟩⟩,
   ⟨.rightBrace, "\x7d", ⟨1, 15⟩⟩]

/-- The tokens from the second keyword on. -/
def strayBack : List Token :=
  [⟨.asm, "asm", ⟨1, 16⟩⟩, ⟨.leftBrace, "\x7b", ⟨1, 19⟩⟩, ⟨.rawText, [], ⟨1, 20⟩⟩,
   ⟨.rightBrace, "\x7d", ⟨1, 20⟩⟩, ⟨.eof, [], ⟨1, 21⟩⟩]

theorem raw_blocks_whole_stray : strayBlock.lex = .ok (strayFront ++ strayBack) ∧
    Token.InGroups (strayFront ++ strayBack) ∧
    ∃ fault, Program.ofTokens .standard (strayFront ++ strayBack) = .error fault := by
  have hlex : strayBlock.lex = .ok (strayFront ++ strayBack) := by cbv
  obtain ⟨hgroups, hparser⟩ := raw_blocks_whole strayBlock _ hlex
  refine ⟨hlex, hgroups, (hparser .standard).2.2.2.2.2 strayFront _ _ rfl rfl ?_⟩
  intro hopens
  obtain ⟨lbrace, hlast, hkind⟩ := hopens.last
  cases hlast
  cases hkind

end Pocket

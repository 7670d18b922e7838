import Mathlib
import Pocket.Proofs.Compiled
import Pocket.Proofs.Unplaced

/-!
# Layout does not matter

Two sources whose tokens agree in kind and lexeme compile alike. The blanks and comments between the
tokens move positions about, and positions show in the messages of faults and in the table, but never
in the listing.
-/

namespace Pocket

open Asm

/-! ### The code of unplaced functions -/

theorem Expr.render_unplaced (e : Expr) : e.unplaced.render = e.render := by
  induction e with
  | literal value text pos => rfl
  | unary op right pos ih => simp only [Expr.unplaced, Expr.render, ih]
  | binary op left right pos ihl ihr => simp only [Expr.unplaced, Expr.render, ihl, ihr]

theorem Expr.renderBare_unplaced (e : Expr) : e.unplaced.renderBare = e.renderBare := by
  rw [Expr.renderBare, Expr.renderBare, Expr.render_unplaced]

theorem Stmt.render_unplaced (s : Stmt) : s.unplaced.render = s.render := by
  cases s with
  | call c =>
    cases harg : c.arg with
    | none => simp [Stmt.unplaced, Stmt.render, Call.render, Call.unplaced, harg]
    | some e =>
      simp [Stmt.unplaced, Stmt.render, Call.render, Call.unplaced, harg, Expr.renderBare_unplaced]
  | expr e value pos => exact e.renderBare_unplaced

variable {p : Profile}

theorem Stmt.code_unplaced (s : Stmt) : s.unplaced.code p = s.code p := by
  have hrender := s.render_unplaced
  cases s with
  | call c =>
    have harg : c.unplaced.arg.isSome = c.arg.isSome := Option.isSome_map
    have hcall : p.callItem c.unplaced = p.callItem c := rfl
    have hload : p.loadItem c.unplaced.value = p.loadItem c.value := rfl
    simp only [Stmt.unplaced] at hrender ⊢
    simp only [Stmt.code, hrender, harg, hload, hcall]
  | expr e value pos =>
    simp only [Stmt.unplaced] at hrender
    simp [Stmt.code, Stmt.unplaced, hrender]

theorem Decl.code_unplaced (d : Decl) : d.unplaced.code p = d.code p := by
  unfold Decl.code Decl.bodyCode
  cases hb : d.body with
  | stmts ss =>
    have hss : (ss.map Stmt.unplaced).flatMap (Stmt.code p) = ss.flatMap (Stmt.code p) := by
      rw [List.flatMap_map]
      exact congrArg ss.flatMap (funext Stmt.code_unplaced)
    simp [Decl.unplaced, hb, Body.unplaced, hss]
  | asm text pos => simp [Decl.unplaced, hb, Body.unplaced]

theorem Decl.mentions_unplaced (d : Decl) : d.unplaced.mentions = d.mentions := by
  cases hb : d.body with
  | stmts ss =>
    simp only [Decl.mentions, Decl.calls, Decl.unplaced, hb, Body.unplaced, List.filterMap_map,
      List.map_filterMap]
    congr 1
    funext s
    cases s <;> rfl
  | asm text pos => simp [Decl.mentions, Decl.unplaced, hb, Body.unplaced]

theorem mentionsIn_unplaced (ds : List Decl) :
    mentionsIn (ds.map Decl.unplaced) = mentionsIn ds := by
  funext name
  have hfind : (ds.map Decl.unplaced).find? (·.name = name) =
      (ds.find? (·.name = name)).map Decl.unplaced := by
    rw [List.find?_map]
    rfl
  rw [mentionsIn, mentionsIn, hfind]
  cases ds.find? (·.name = name) with
  | none => rfl
  | some d => exact d.mentions_unplaced

theorem reachableDecls_unplaced (ds : List Decl) (entry : Text) :
    reachableDecls (ds.map Decl.unplaced) entry = (reachableDecls ds entry).map Decl.unplaced := by
  have hnames : (ds.map Decl.unplaced).map (·.name) = ds.map (·.name) := by
    rw [List.map_map]
    rfl
  have heq : ∀ ds : List Decl, reachableDecls ds entry = ds.filter fun d =>
      (Reachable.closure (ds.map (·.name)) (mentionsIn ds) [entry] []).contains d.name :=
    fun _ => rfl
  rw [heq, heq, hnames, mentionsIn_unplaced, List.filter_map]
  rfl

namespace Program

theorem others_unplaced (prog : Program) :
    prog.unplaced.others p = (prog.others p).map Decl.unplaced := by
  unfold others
  have hdecls : (if p.stripUnused then reachableDecls prog.unplaced.decls p.entry
        else prog.unplaced.decls) =
      (if p.stripUnused then reachableDecls prog.decls p.entry else prog.decls).map Decl.unplaced := by
    split
    · exact reachableDecls_unplaced prog.decls p.entry
    · rfl
  dsimp only
  rw [hdecls, List.filter_map]
  rfl

/-- The listing of a program does not depend on the positions in it. -/
theorem listing_unplaced (prog : Program) : prog.unplaced.listing p = prog.listing p := by
  have hlookup : prog.unplaced.table.lookup? p.entry =
      (prog.table.lookup? p.entry).map Decl.unplaced := DeclTable.lookup?_unplaced _ _
  unfold listing
  rw [hlookup]
  cases prog.table.lookup? p.entry with
  | none => rfl
  | some entry =>
    have hothers : (prog.unplaced.others p).flatMap (fun d => .blank :: d.code p) =
        (prog.others p).flatMap fun d => .blank :: d.code p := by
      rw [others_unplaced, List.flatMap_map]
      exact congrArg (prog.others p).flatMap (funext fun d => by rw [Decl.code_unplaced])
    simp only [Option.map_some, Decl.code_unplaced, hothers]

end Program

/-! ### Sources with the same tokens -/

/-- The tokens of a source include an end exactly if no fault cuts them short. -/
theorem Lexer.tokens_complete_iff (l : Lexer) :
    l.tokens.2 = none ↔ ∃ t ∈ l.tokens.1, t.kind = .eof := by
  fun_induction Lexer.tokens l with
  | case1 => simp
  | case2 l t l' _ ht => simp [ht]
  | case3 l t l' hnext ht ts e htokens ih =>
    rw [htokens] at ih
    simp [ih, ht]

/-- What two tokens have in common when only their places differ. -/
def Token.word (t : Token) : Token.Kind × Text :=
  (t.kind, t.lexeme)

theorem unplacedAll_eq_of_words {ts us : List Token} (h : ts.map Token.word = us.map Token.word) :
    unplacedAll ts = unplacedAll us := by
  have hmap : ∀ vs : List Token, unplacedAll vs =
      (vs.map Token.word).map fun w => ⟨w.1, w.2, .start⟩ := by
    intro vs
    rw [List.map_map]
    rfl
  rw [hmap ts, hmap us, h]

theorem lex_eq_ok_iff_tokens {source : Text} {ts : List Token} :
    source.lex = .ok ts ↔ source.tokens.1 = ts ∧ source.tokens.2 = none := by
  unfold Text.lex
  cases source.tokens with
  | mk us fault => cases fault <;> simp

/-- A source with the tokens of one that can be read to its end can be read to its end. -/
theorem exists_lex_of_words {s₁ s₂ : Text} {ts₁ : List Token}
    (h : s₁.tokens.1.map Token.word = s₂.tokens.1.map Token.word) (hlex : s₁.lex = .ok ts₁) :
    ∃ ts₂, s₂.lex = .ok ts₂ ∧ unplacedAll ts₁ = unplacedAll ts₂ := by
  obtain ⟨rfl, hnone⟩ := lex_eq_ok_iff_tokens.mp hlex
  obtain ⟨t, ht, hkind⟩ := (Lexer.tokens_complete_iff _).mp hnone
  have hmem : t.word ∈ s₂.tokens.1.map Token.word := h ▸ List.mem_map_of_mem ht
  obtain ⟨u, hu, hword⟩ := List.mem_map.mp hmem
  have hstop : u.kind = .eof := (congrArg Prod.fst hword).trans hkind
  have hnone₂ : s₂.tokens.2 = none := (Lexer.tokens_complete_iff _).mpr ⟨u, hu, hstop⟩
  exact ⟨s₂.tokens.1, lex_eq_ok_iff_tokens.mpr ⟨rfl, hnone₂⟩, unplacedAll_eq_of_words h⟩

/-- A refusal without the positions in it. -/
def Refusal.unplaced : Refusal → Refusal
  | .profile flaw => .profile flaw
  | .source fault => .source fault.unplaced

/-- Tokens that differ in their places only form programs that do, or fail for the same cause. -/
theorem ofTokens_cases {ts₁ ts₂ : List Token} (h : unplacedAll ts₁ = unplacedAll ts₂) :
    (∃ prog₁ prog₂, Program.ofTokens p ts₁ = .ok prog₁ ∧ Program.ofTokens p ts₂ = .ok prog₂ ∧
      prog₁.unplaced = prog₂.unplaced) ∨
    ∃ fault₁ fault₂, Program.ofTokens p ts₁ = .error fault₁ ∧
      Program.ofTokens p ts₂ = .error fault₂ ∧ fault₁.unplaced = fault₂.unplaced := by
  have hsame : outcomeBy Program.unplaced (Program.ofTokens p ts₁) =
      outcomeBy Program.unplaced (Program.ofTokens p ts₂) := by
    rw [← Program.ofTokens_unplaced, ← Program.ofTokens_unplaced, h]
  cases h₁ : Program.ofTokens p ts₁ with
  | ok prog₁ =>
    cases h₂ : Program.ofTokens p ts₂ with
    | ok prog₂ =>
      rw [h₁, h₂] at hsame
      exact .inl ⟨prog₁, prog₂, rfl, rfl, Except.ok.inj hsame⟩
    -- The one cannot succeed where the other fails, since the outcomes without places are the same.
    | error fault₂ =>
      rw [h₁, h₂] at hsame
      cases hsame
  | error fault₁ =>
    cases h₂ : Program.ofTokens p ts₂ with
    | ok prog₂ =>
      rw [h₁, h₂] at hsame
      cases hsame
    | error fault₂ =>
      rw [h₁, h₂] at hsame
      exact .inr ⟨fault₁, fault₂, rfl, rfl, Except.error.inj hsame⟩

section Compile

variable {s₁ s₂ source : Text} {ts ts₁ ts₂ : List Token}

theorem compile_flawed {flaw : Profile.Flaw} (h : p.flaw? = some flaw) :
    compile p source = .error (.profile flaw) := by
  rw [compile, h]

theorem compile_eq_error {fault : Fault} (hflaw : p.flaw? = none) (hlex : source.lex = .ok ts)
    (h : Program.ofTokens p ts = .error fault) : compile p source = .error (.source fault) := by
  rw [compile, hflaw]
  dsimp only
  rw [hlex]
  change ((Program.ofTokens p ts).mapError Refusal.source >>= _) = _
  rw [h]
  rfl

theorem exists_compile_of_words (h : s₁.tokens.1.map Token.word = s₂.tokens.1.map Token.word)
    {o₁ : Output} (ho : compile p s₁ = .ok o₁) : ∃ o₂, compile p s₂ = .ok o₂ := by
  obtain ⟨hflaw, ts₁, hlex₁, hprog₁, -, -⟩ := compile_eq_ok_iff.mp ho
  obtain ⟨ts₂, hlex₂, hts⟩ := exists_lex_of_words h hlex₁
  rcases ofTokens_cases (p := p) hts with ⟨-, prog₂, -, hprog₂, -⟩ | ⟨fault₁, -, hfault₁, -, -⟩
  · obtain ⟨o₂, ho₂, -⟩ := exists_compile_eq_ok hflaw hlex₂ hprog₂
    exact ⟨o₂, ho₂⟩
  · rw [hprog₁] at hfault₁
    cases hfault₁

/-- Outputs of sources with the same tokens have one listing. -/
theorem output_of_words (h : s₁.tokens.1.map Token.word = s₂.tokens.1.map Token.word)
    {o₁ o₂ : Output} (ho₁ : compile p s₁ = .ok o₁) (ho₂ : compile p s₂ = .ok o₂) :
    o₁.listing = o₂.listing ∧ o₁.emission = o₂.emission ∧
      o₁.program.unplaced = o₂.program.unplaced := by
  obtain ⟨-, ts₁, hlex₁, hprog₁, hl₁, he₁⟩ := compile_eq_ok_iff.mp ho₁
  obtain ⟨-, ts₂, hlex₂, hprog₂, hl₂, he₂⟩ := compile_eq_ok_iff.mp ho₂
  obtain ⟨ts₂', hlex₂', hts⟩ := exists_lex_of_words h hlex₁
  rw [hlex₂] at hlex₂'
  cases hlex₂'
  have hprog : o₁.program.unplaced = o₂.program.unplaced := by
    rcases ofTokens_cases (p := p) hts with
      ⟨prog₁, prog₂, h₁, h₂, hprog⟩ | ⟨fault₁, -, hfault₁, -, -⟩
    · rw [hprog₁] at h₁
      rw [hprog₂] at h₂
      cases h₁
      cases h₂
      exact hprog
    · rw [hprog₁] at hfault₁
      cases hfault₁
  have hlisting : o₁.listing = o₂.listing := by
    rw [← Program.listing_unplaced, hprog, Program.listing_unplaced, hl₂] at hl₁
    exact (Except.ok.inj hl₁).symm
  exact ⟨hlisting, by rw [he₁, he₂, hlisting], hprog⟩

theorem refusal_of_words (h : s₁.tokens.1.map Token.word = s₂.tokens.1.map Token.word)
    (hlex₁ : s₁.lex = .ok ts₁) {r₁ r₂ : Refusal} (hr₁ : compile p s₁ = .error r₁)
    (hr₂ : compile p s₂ = .error r₂) : r₁.unplaced = r₂.unplaced := by
  obtain ⟨ts₂, hlex₂, hts⟩ := exists_lex_of_words h hlex₁
  cases hflaw : p.flaw? with
  | some flaw =>
    rw [compile_flawed hflaw] at hr₁ hr₂
    cases hr₁
    cases hr₂
    rfl
  | none =>
    rcases ofTokens_cases (p := p) hts with ⟨prog₁, -, h₁, -, -⟩ | ⟨fault₁, fault₂, h₁, h₂, hfault⟩
    · obtain ⟨o₁, ho₁, -⟩ := exists_compile_eq_ok hflaw hlex₁ h₁
      rw [ho₁] at hr₁
      cases hr₁
    · rw [compile_eq_error hflaw hlex₁ h₁] at hr₁
      rw [compile_eq_error hflaw hlex₂ h₂] at hr₂
      cases hr₁
      cases hr₂
      exact congrArg Refusal.source hfault

/-- Sources whose tokens agree in kind and lexeme compile alike: both or neither, to the same text with
the same raw blocks and to programs that differ in positions only. If they can be read to their ends and
are refused, it is for the same cause. -/
theorem compile_ignores_layout (p : Profile) (s₁ s₂ : Text)
    (h : s₁.tokens.1.map (fun t => (t.kind, t.lexeme)) =
      s₂.tokens.1.map fun t => (t.kind, t.lexeme)) :
    ((∃ o₁, compile p s₁ = .ok o₁) ↔ ∃ o₂, compile p s₂ = .ok o₂) ∧
    (∀ o₁ o₂, compile p s₁ = .ok o₁ → compile p s₂ = .ok o₂ →
      o₁.text = o₂.text ∧ (∀ name, o₁.block? name = o₂.block? name) ∧
        o₁.program.unplaced = o₂.program.unplaced) ∧
    ∀ ts₁ r₁ r₂, s₁.lex = .ok ts₁ → compile p s₁ = .error r₁ → compile p s₂ = .error r₂ →
      r₁.unplaced = r₂.unplaced := by
  refine ⟨⟨?_, ?_⟩, ?_, ?_⟩
  · rintro ⟨o₁, ho₁⟩
    exact exists_compile_of_words h ho₁
  · rintro ⟨o₂, ho₂⟩
    exact exists_compile_of_words h.symm ho₂
  · intro o₁ o₂ ho₁ ho₂
    obtain ⟨-, hemission, hprog⟩ := output_of_words h ho₁ ho₂
    have htext : o₁.text = o₂.text := by rw [Output.text, hemission]; rfl
    refine ⟨htext, fun name => ?_, hprog⟩
    rw [Output.block?, Output.block?, hemission, htext]
  · intro ts₁ r₁ r₂ hlex₁ hr₁ hr₂
    exact refusal_of_words h hlex₁ hr₁ hr₂

/-- The sample with a comment, line breaks and blanks between its tokens. -/
def sampleSpread : Text :=
  "void main()// f\n\x7b f (7) ;_B();\n\x7d\tvoid f()\x7basm /**/ \x7b inc hl\x7d\x7d\n" ++
    "void g()\x7b\n\x7d\n"

theorem compile_ignores_layout_sample : ∃ o₁ o₂, compile sampleProfile sampleSource = .ok o₁ ∧
    compile sampleProfile sampleSpread = .ok o₂ ∧ sampleSource ≠ sampleSpread ∧ o₁.text = o₂.text := by
  have hwords : sampleSource.tokens.1.map (fun t => (t.kind, t.lexeme)) =
      sampleSpread.tokens.1.map fun t => (t.kind, t.lexeme) := by
    cbv
  obtain ⟨ts, prog, hlex, hprog⟩ := sample_read
  obtain ⟨o₁, ho₁, -⟩ := exists_compile_eq_ok sampleProfile_flaw hlex hprog
  obtain ⟨hiff, hsame, -⟩ := compile_ignores_layout sampleProfile sampleSource sampleSpread hwords
  obtain ⟨o₂, ho₂⟩ := hiff.mp ⟨o₁, ho₁⟩
  exact ⟨o₁, o₂, ho₁, ho₂, by decide, (hsame o₁ o₂ ho₁ ho₂).1⟩

end Compile

end Pocket

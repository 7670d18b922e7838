import Mathlib
import Pocket.Proofs.Joined

/-!
# The order of declarations does not matter

A program is put together from texts that hold one declaration each. In whatever order they stand, the
program is accepted or not, and a function has the same code: its calls are bound by the set of declared
names, and what is reachable depends on that set and on what each function mentions. Only the blocks of
the functions behind the entry change places; they stand in source order.
-/

namespace Pocket

open Asm Grammar

/-! ### Permuted declarations -/

section Permuted

variable {p : Profile} {ds ds' : List Decl} {d : Decl}

theorem names_perm (h : ds.Perm ds') : (ds.map (·.name)).Perm (ds'.map (·.name)) :=
  h.map _

theorem Grammar.Accepted.perm (h : Accepted p ds) (hperm : ds.Perm ds') : Accepted p ds' := by
  have hnames := names_perm hperm
  refine ⟨?_, ?_, hnames.nodup_iff.mp h.names, ?_, ?_, hnames.mem_iff.mp h.entry⟩
  · exact fun d hd => h.literals d (hperm.mem_iff.mpr hd)
  · exact fun d hd => h.values d (hperm.mem_iff.mpr hd)
  · exact fun d hd => h.labels d (hperm.mem_iff.mpr hd)
  · intro d hd c hc
    rw [← hnames.mem_iff]
    exact h.calls d (hperm.mem_iff.mpr hd) c hc

/-- Calls are bound by the set of declared names. -/
theorem bind_perm {names names' : List Text} (h : names.Perm names') :
    Decl.bind names = Decl.bind names' := by
  have hcall : Call.bind names = Call.bind names' := by
    funext c
    simp only [Call.bind, h.mem_iff]
  have hstmt : Stmt.bind names = Stmt.bind names' := by
    funext s
    cases s with
    | call c => rw [Stmt.bind, Stmt.bind, hcall]
    | expr => rfl
  funext d
  rw [Decl.bind, Decl.bind, hstmt]

theorem find?_perm (hperm : ds.Perm ds') (hnames : (ds.map (·.name)).Nodup) (name : Text) :
    ds.find? (·.name = name) = ds'.find? (·.name = name) := by
  have hnames' := (names_perm hperm).nodup_iff.mp hnames
  cases h : ds.find? (·.name = name) with
  | some d =>
    have hname : d.name = name := by simpa using List.find?_some h
    rw [← hname, find?_name hnames' (hperm.mem_iff.mp (List.mem_of_find?_eq_some h))]
  | none =>
    symm
    rw [List.find?_eq_none] at h ⊢
    exact fun d hd => h d (hperm.mem_iff.mpr hd)

theorem mentionsIn_perm (hperm : ds.Perm ds') (hnames : (ds.map (·.name)).Nodup) :
    mentionsIn ds = mentionsIn ds' := by
  funext name
  rw [mentionsIn, mentionsIn, find?_perm hperm hnames]

theorem reached_of_subset {known known' roots : List Text} {mentions : Text → List Text} {name : Text}
    (hsub : known ⊆ known') (h : Reachable.Reached known mentions roots name) :
    Reachable.Reached known' mentions roots name := by
  induction h with
  | root hroot hknown => exact .root hroot (hsub hknown)
  | mention _ hname hknown ih => exact .mention ih hname (hsub hknown)

theorem mem_reachableDecls_perm (hperm : ds.Perm ds') (hnames : (ds.map (·.name)).Nodup) {entry : Text}
    (h : d ∈ reachableDecls ds entry) : d ∈ reachableDecls ds' entry := by
  obtain ⟨hd, hreached⟩ := mem_reachableDecls_iff.mp h
  rw [mentionsIn_perm hperm hnames] at hreached
  exact mem_reachableDecls_iff.mpr
    ⟨hperm.mem_iff.mp hd, reached_of_subset (names_perm hperm).subset hreached⟩

end Permuted

namespace Program

variable {p : Profile} {prog prog' : Program}

theorem Checked.others_nodup (h : prog.Checked p) : (prog.others p).Nodup :=
  (h.names.of_map _).sublist (prog.others_sublist p)

/-- Programs with the same functions in another order emit the same functions. -/
theorem Checked.others_perm (h : prog.Checked p) (h' : prog'.Checked p)
    (hperm : prog.decls.Perm prog'.decls) : (prog.others p).Perm (prog'.others p) := by
  rw [List.perm_ext_iff_of_nodup h.others_nodup h'.others_nodup]
  intro d
  rw [mem_others_iff, mem_others_iff, hperm.mem_iff]
  have hreach : d ∈ reachableDecls prog.decls p.entry ↔ d ∈ reachableDecls prog'.decls p.entry :=
    ⟨mem_reachableDecls_perm hperm h.names, mem_reachableDecls_perm hperm.symm h'.names⟩
  rw [hreach]

theorem Checked.lookup_perm (h : prog.Checked p) (h' : prog'.Checked p)
    (hperm : prog.decls.Perm prog'.decls) :
    prog.table.lookup? p.entry = prog'.table.lookup? p.entry := by
  rw [DeclTable.lookup?, DeclTable.lookup?, h.table, h'.table]
  exact find?_perm hperm h.names p.entry

end Program

/-! ### Listings -/

/-- A listing in its parts: the header, the code of the entry, the code of the other functions and the
footer. The other functions stand in the order of the declarations, and with pruning only those stand
there that can be reached. -/
structure Laid (p : Profile) (ds : List Decl) (entry : Decl) (others : List Decl) (l : Listing) : Prop where
  parts : l = p.header.map .directive ++ .blank :: entry.code p ++
    others.flatMap (fun d => .blank :: d.code p) ++ Program.trailer p
  entry : entry ∈ ds ∧ entry.name = p.entry
  order : others.Sublist ds
  others : ∀ d ∈ ds, d ∈ others ↔
    d.name ≠ p.entry ∧ (p.stripUnused = true → d ∈ reachableDecls ds p.entry)

theorem Program.laid_of_listing {p : Profile} {prog : Program} {entry : Decl} (hmem : entry ∈ prog.decls)
    (hentry : prog.table.lookup? p.entry = some entry) {l : Listing} (hl : prog.listing p = .ok l) :
    Laid p prog.decls entry (prog.others p) l := by
  refine ⟨?_, ⟨hmem, by simpa using List.find?_some hentry⟩, prog.others_sublist p, ?_⟩
  · rw [Program.listing, hentry] at hl
    rw [← Except.ok.inj hl, Program.trailer]
    simp
  · intro d hd
    rw [Program.mem_others_iff, and_iff_right hd]

/-! ### Joined declarations -/

/-- A text that is one declaration, with nothing before or behind it but blanks and comments. -/
def Text.Declares (t : Text) (d : Decl) : Prop :=
  ∃ body last, t.lex = .ok (body ++ [last]) ∧ last.kind = .eof ∧ Declaration body d

/-- The declarations of texts that stand in one program, with their calls bound. -/
def boundDecls (declOf : Text → Decl) (texts : List Text) : List Decl :=
  (texts.map declOf).map (Decl.bind ((texts.map declOf).map (·.name)))

section Joined

variable {p : Profile} {texts : List Text} {declOf : Text → Decl}

theorem sequence_texts (h : ∀ t ∈ texts, t.Declares (declOf t)) :
    Sequence Declaration (texts.flatMap Text.bodyTokens) (texts.map declOf) := by
  induction texts with
  | nil => exact .nil
  | cons t texts ih =>
    obtain ⟨⟨body, last, hlex, -, hbody⟩, htexts⟩ := List.forall_mem_cons.mp h
    rw [List.flatMap_cons, Text.bodyTokens_eq hlex]
    exact .cons hbody (ih htexts)

theorem lex_declarations (h : ∀ t ∈ texts, t.Declares (declOf t)) :
    ∃ ts body last, (Text.join "\n" texts).lex = .ok ts ∧ last.kind = .eof ∧
      unplacedAll ts = unplacedAll (body ++ [last]) ∧ Sequence Declaration body (texts.map declOf) := by
  have hlex : ∀ t ∈ texts, ∃ ts, t.lex = .ok ts := by
    intro t ht
    obtain ⟨body, last, hlex, -, -⟩ := h t ht
    exact ⟨_, hlex⟩
  obtain ⟨ts, last, hts, hlast, heq⟩ := lex_join hlex
  exact ⟨ts, _, last, hts, hlast, heq, sequence_texts h⟩

theorem compile_accepted (h : ∀ t ∈ texts, t.Declares (declOf t)) (hflaw : p.flaw? = none)
    (hacc : Accepted p (texts.map declOf)) : ∃ o, compile p (Text.join "\n" texts) = .ok o := by
  obtain ⟨ts, body, last, hts, hlast, heq, hseq⟩ := lex_declarations h
  obtain ⟨prog, hprog⟩ := ofTokens_complete hseq hlast hacc
  rcases ofTokens_cases (p := p) heq with ⟨prog₁, -, hprog₁, -, -⟩ | ⟨-, fault, -, hfault, -⟩
  · obtain ⟨o, ho, -⟩ := exists_compile_eq_ok hflaw hts hprog₁
    exact ⟨o, ho⟩
  · rw [hprog] at hfault
    cases hfault

/-- An output comes from the declarations of the texts, as each text has its own. -/
theorem accepted_of_compile (h : ∀ t ∈ texts, t.Declares (declOf t)) {o : Output}
    (ho : compile p (Text.join "\n" texts) = .ok o) : Accepted p (texts.map declOf) ∧
      ∃ prog : Program, prog.Checked p ∧ prog.listing p = .ok o.listing ∧
        prog.decls = boundDecls declOf texts := by
  obtain ⟨ts, body, last, hts, hlast, heq, hseq⟩ := lex_declarations h
  obtain ⟨-, ts', hts', hprog, hl, -⟩ := compile_eq_ok_iff.mp ho
  obtain rfl : ts = ts' := Except.ok.inj (hts.symm.trans hts')
  -- The tokens stand elsewhere in the joined text, so the two programs agree up to positions.
  rcases ofTokens_cases (p := p) heq with ⟨prog₁, prog₂, h₁, h₂, hsame⟩ | ⟨fault, -, hfault, -, -⟩
  · obtain rfl : prog₁ = o.program := Except.ok.inj (h₁.symm.trans hprog)
    obtain ⟨used, ds, rest, hsplit, hend, hused, -, hacc, hdecls, -⟩ := ofTokens_sound h₂
    obtain ⟨rfl, -⟩ := only_eof_last hseq.no_eof hsplit hend hused.no_eof hlast
    obtain rfl : texts.map declOf = ds := tree_unique hused hseq hlast hacc
    refine ⟨hacc, prog₂, Program.checked_of_ofTokens h₂, ?_, hdecls⟩
    rw [← Program.listing_unplaced, ← hsame, Program.listing_unplaced, hl]
  · rw [hprog] at hfault
    cases hfault

/-- Joined declarations compile under a valid profile that accepts them. -/
theorem compile_joined_iff (h : ∀ t ∈ texts, t.Declares (declOf t)) :
    (∃ o, compile p (Text.join "\n" texts) = .ok o) ↔
      p.flaw? = none ∧ Accepted p (texts.map declOf) := by
  constructor
  · rintro ⟨o, ho⟩
    exact ⟨(compile_eq_ok_iff.mp ho).1, (accepted_of_compile h ho).1⟩
  · rintro ⟨hflaw, hacc⟩
    exact compile_accepted h hflaw hacc

theorem boundDecls_perm {texts' : List Text} (h : texts.Perm texts') :
    (boundDecls declOf texts).Perm (boundDecls declOf texts') := by
  have hds := h.map declOf
  rw [boundDecls, boundDecls, bind_perm (names_perm hds)]
  exact hds.map _

/-- Texts with one declaration each, joined in two orders: both programs compile, if the profile accepts
the declarations, or neither does. Their listings have the same header, footer and entry, and the same
functions with the same labels and bodies, each time in the order of the texts. -/
theorem compile_ignores_order (p : Profile) (texts₁ texts₂ : List Text) (hperm : texts₁.Perm texts₂)
    (declOf : Text → Decl) (h : ∀ t ∈ texts₁, t.Declares (declOf t)) :
    ((∃ o₁, compile p (Text.join "\n" texts₁) = .ok o₁) ↔
      p.flaw? = none ∧ Accepted p (texts₁.map declOf)) ∧
    ((∃ o₁, compile p (Text.join "\n" texts₁) = .ok o₁) ↔
      ∃ o₂, compile p (Text.join "\n" texts₂) = .ok o₂) ∧
    ∀ o₁ o₂, compile p (Text.join "\n" texts₁) = .ok o₁ → compile p (Text.join "\n" texts₂) = .ok o₂ →
      ∃ entry others₁ others₂, Laid p (boundDecls declOf texts₁) entry others₁ o₁.listing ∧
        Laid p (boundDecls declOf texts₂) entry others₂ o₂.listing ∧ others₁.Perm others₂ := by
  have h₂ : ∀ t ∈ texts₂, t.Declares (declOf t) := fun t ht => h t (hperm.mem_iff.mpr ht)
  have hds : (texts₁.map declOf).Perm (texts₂.map declOf) := hperm.map declOf
  have hacc : Accepted p (texts₁.map declOf) ↔ Accepted p (texts₂.map declOf) :=
    ⟨fun hacc => hacc.perm hds, fun hacc => hacc.perm hds.symm⟩
  refine ⟨compile_joined_iff h, by rw [compile_joined_iff h, compile_joined_iff h₂, hacc], ?_⟩
  intro o₁ o₂ ho₁ ho₂
  obtain ⟨-, prog₁, hchecked₁, hl₁, hdecls₁⟩ := accepted_of_compile h ho₁
  obtain ⟨-, prog₂, hchecked₂, hl₂, hdecls₂⟩ := accepted_of_compile h₂ ho₂
  have hdecls : prog₁.decls.Perm prog₂.decls := by
    rw [hdecls₁, hdecls₂]
    exact boundDecls_perm hperm
  -- Names are distinct, so the entry is the same function in both orders.
  obtain ⟨entry, hmem, -, hentry⟩ := hchecked₁.entry_found
  have hentry₂ := (hchecked₁.lookup_perm hchecked₂ hdecls).symm.trans hentry
  rw [← hdecls₁, ← hdecls₂]
  exact ⟨entry, _, _, Program.laid_of_listing hmem hentry hl₁,
    Program.laid_of_listing (hdecls.mem_iff.mp hmem) hentry₂ hl₂, hchecked₁.others_perm hchecked₂ hdecls⟩

end Joined

/-! ### A sample -/

/-- The entry, which calls the function of the other text. -/
def entryText : Text := "void main() \x7b put(7); \x7d"

/-- A raw function, with a comment at the end of the text. -/
def calledText : Text := "void put() \x7b asm \x7b out \x7d \x7d // out"

def entryTokens : List Token :=
  [⟨.void, "void", ⟨1, 1⟩⟩, ⟨.identifier, "main", ⟨1, 6⟩⟩, ⟨.leftParen, "(", ⟨1, 10⟩⟩,
   ⟨.rightParen, ")", ⟨1, 11⟩⟩, ⟨.leftBrace, "\x7b", ⟨1, 13⟩⟩, ⟨.identifier, "put", ⟨1, 15⟩⟩,
   ⟨.leftParen, "(", ⟨1, 18⟩⟩, ⟨.integer, "7", ⟨1, 19⟩⟩, ⟨.rightParen, ")", ⟨1, 20⟩⟩,
   ⟨.semicolon, ";", ⟨1, 21⟩⟩, ⟨.rightBrace, "\x7d", ⟨1, 23⟩⟩]

def calledTokens : List Token :=
  [⟨.void, "void", ⟨1, 1⟩⟩, ⟨.identifier, "put", ⟨1, 6⟩⟩, ⟨.leftParen, "(", ⟨1, 9⟩⟩,
   ⟨.rightParen, ")", ⟨1, 10⟩⟩, ⟨.leftBrace, "\x7b", ⟨1, 12⟩⟩, ⟨.asm, "asm", ⟨1, 14⟩⟩,
   ⟨.leftBrace, "\x7b", ⟨1, 18⟩⟩, ⟨.rawText, " out ", ⟨1, 19⟩⟩, ⟨.rightBrace, "\x7d", ⟨1, 24⟩⟩,
   ⟨.rightBrace, "\x7d", ⟨1, 26⟩⟩]

def entryDecl : Decl :=
  ⟨"main", "void", .stmts [.call ⟨"put", some (.literal 7 "7" ⟨1, 19⟩), 7, .unresolved, ⟨1, 15⟩⟩], ⟨1, 6⟩⟩

def calledDecl : Decl :=
  ⟨"put", "void", .asm " out " ⟨1, 19⟩, ⟨1, 6⟩⟩

theorem entryText_declares : entryText.Declares entryDecl := by
  refine ⟨entryTokens, ⟨.eof, [], ⟨1, 24⟩⟩, by cbv, rfl, ?_⟩
  have harg : Expression .bitwiseOr ((entryTokens.drop 7).take 1) (.literal 7 "7" ⟨1, 19⟩) :=
    .tighter rfl (.tighter rfl (.tighter rfl (.tighter rfl (.tighter rfl
      (.tighter rfl (.tighter rfl (.literal rfl)))))))
  have hstmt : Statement ((entryTokens.drop 5).take 5) _ := .callWith rfl rfl rfl rfl harg
  have hbody : FunctionBody ((entryTokens.drop 5).take 5) _ := .stmts (.cons hstmt .nil)
  exact .function (by decide) rfl rfl (Or.inl rfl) rfl rfl rfl hbody

theorem calledText_declares : calledText.Declares calledDecl := by
  refine ⟨calledTokens, ⟨.eof, [], ⟨1, 34⟩⟩, by cbv, rfl, ?_⟩
  have hbody : FunctionBody ((calledTokens.drop 5).take 4) _ := .asm rfl rfl rfl rfl (Or.inl rfl)
  exact .function (by decide) rfl rfl (Or.inl rfl) rfl rfl rfl hbody

def pairDecl (t : Text) : Decl :=
  if t = entryText then entryDecl else calledDecl

theorem pairDecl_entry : pairDecl entryText = entryDecl := if_pos rfl

theorem pairDecl_called : pairDecl calledText = calledDecl := if_neg (by decide)

theorem pair_declares : ∀ t ∈ [entryText, calledText], t.Declares (pairDecl t) := by
  intro t ht
  simp only [List.mem_cons, List.not_mem_nil, or_false] at ht
  rcases ht with rfl | rfl
  · rw [pairDecl_entry]
    exact entryText_declares
  · rw [pairDecl_called]
    exact calledText_declares

theorem pair_accepted : Accepted sampleProfile ([entryText, calledText].map pairDecl) := by
  simp only [List.map_cons, List.map_nil, pairDecl_entry, pairDecl_called]
  refine ⟨by decide, ?_, by decide, by decide, by decide, by decide⟩
  intro d hd e he
  simp only [List.mem_cons, List.not_mem_nil, or_false] at hd
  rcases hd with rfl | rfl
  · obtain rfl : e = .literal 7 "7" ⟨1, 19⟩ := by
      simpa [entryDecl, Decl.exprs, Decl.stmts, Stmt.expr?] using he
    exact ⟨7, rfl⟩
  · simp [calledDecl, Decl.exprs, Decl.stmts] at he

theorem compile_ignores_order_pair : ∃ o₁ o₂,
    compile sampleProfile (Text.join "\n" [entryText, calledText]) = .ok o₁ ∧
    compile sampleProfile (Text.join "\n" [calledText, entryText]) = .ok o₂ ∧
    ∃ entry others₁ others₂,
      Laid sampleProfile (boundDecls pairDecl [entryText, calledText]) entry others₁ o₁.listing ∧
      Laid sampleProfile (boundDecls pairDecl [calledText, entryText]) entry others₂ o₂.listing ∧
      others₁.Perm others₂ := by
  obtain ⟨haccepted, hboth, hsame⟩ := compile_ignores_order sampleProfile [entryText, calledText]
    [calledText, entryText] (.swap _ _ _) pairDecl pair_declares
  obtain ⟨o₁, ho₁⟩ := haccepted.mpr ⟨sampleProfile_flaw, pair_accepted⟩
  obtain ⟨o₂, ho₂⟩ := hboth.mp ⟨o₁, ho₁⟩
  exact ⟨o₁, o₂, ho₁, ho₂, hsame o₁ o₂ ho₁ ho₂⟩

end Pocket

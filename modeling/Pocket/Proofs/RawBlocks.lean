import Pocket.Proofs.Compiled
import Pocket.Proofs.Emission
import Pocket.Proofs.Glyphs
import Pocket.Proofs.LexerExact

/-!
# Raw blocks

The text of a raw block is the same from the source to the output: the lexer cuts it out between the
braces, the parser keeps it as the body of a function, and it is written right behind the label.
-/

namespace Pocket

open Asm Lexical Grammar

/-- The text of a raw body. -/
def Decl.raw? (d : Decl) : Option Text :=
  match d.body with
  | .stmts _ => none
  | .asm text _ => some text

theorem Decl.raw?_of_normal {d : Decl} (h : d.convention = .normal) : d.raw? = none := by
  cases hb : d.body <;> simp_all [Decl.raw?, Decl.convention]

theorem Decl.isSome_raw? (d : Decl) : d.raw?.isSome = (d.convention == .raw) := by
  cases hb : d.body <;> simp [Decl.raw?, Decl.convention, hb]

@[simp] theorem Decl.raw?_bind (names : List Text) (d : Decl) : (d.bind names).raw? = d.raw? := by
  cases hb : d.body <;> simp [Decl.bind, Decl.raw?, hb]

/-- The raw texts among some tokens. -/
def rawTexts (ts : List Token) : List Text :=
  (ts.filter (·.kind == .rawText)).map (·.lexeme)

/-! ### From the tokens to the functions -/

variable {ts us : List Token}

theorem rawTexts_append : rawTexts (ts ++ us) = rawTexts ts ++ rawTexts us := by
  simp [rawTexts]

theorem rawTexts_cons_of_ne {t : Token} (h : t.kind ≠ .rawText) : rawTexts (t :: ts) = rawTexts ts := by
  simp [rawTexts, h]

theorem rawTexts_plain (h : Plain ts) : rawTexts ts = [] := by
  simpa [rawTexts] using fun t ht => (h t ht).2

theorem Grammar.Declaration.rawTexts_eq {d : Decl} (h : Declaration ts d) :
    rawTexts ts = d.raw?.toList := by
  obtain ⟨before, body, rbrace, rfl, hbefore, hrbrace, hbody⟩ := h.plain_around
  rw [rawTexts_append, rawTexts_append, rawTexts_plain hbefore, rawTexts_plain hrbrace,
    List.nil_append, List.append_nil]
  unfold Decl.raw?
  cases hb : d.body with
  | stmts ss =>
    rw [hb] at hbody
    cases hbody with
    | stmts hss => exact rawTexts_plain hss.plain
  | asm text pos =>
    rw [hb] at hbody
    cases hbody with
    | asm hkey hl ht hr hs =>
      rcases hs with rfl | ⟨s, hs, rfl⟩
      · simp [rawTexts, hkey, hl, ht, hr]
      · simp [rawTexts, hkey, hl, ht, hr, hs]

theorem Grammar.Sequence.rawTexts_eq {ds : List Decl} (h : Sequence Declaration ts ds) :
    rawTexts ts = ds.filterMap Decl.raw? := by
  induction h with
  | nil => rfl
  | @cons ts us d ds hd _ ih =>
    rw [rawTexts_append, hd.rawTexts_eq, ih, List.filterMap_cons]
    cases d.raw? <;> rfl

/-! ### From the source to the tokens -/

/-- The end of the source is the last token and no other. -/
theorem Lexical.Layout.ends {pos : Position} {gs : List Glyph} (h : Layout pos gs ts) :
    ∃ body last, ts = body ++ [last] ∧ (∀ t ∈ body, t.kind ≠ .eof) ∧ last.kind = .eof := by
  induction h with
  | stop hgap => exact ⟨[], _, rfl, by simp, rfl⟩
  | token hgap htok hkind _ ih =>
    obtain ⟨body, last, rfl, hbody, hlast⟩ := ih
    exact ⟨_ :: body, last, rfl, List.forall_mem_cons.mpr ⟨htok.kind_class.1, hbody⟩, hlast⟩
  | asm hgap hkey hspace hinside _ ih =>
    obtain ⟨body, last, rfl, hbody, hlast⟩ := ih
    refine ⟨_ :: _ :: _ :: _ :: body, last, rfl, ?_, hlast⟩
    simpa using hbody

/-- A text in which the given bodies stand one after the other, each behind the word `asm` and an opening
brace and up to the first closing brace. -/
inductive Enclosed : Text → List Text → Prop where
  | none (code : Text) : Enclosed code []
  | block (code space : Text) {body rest : Text} {bodies : List Text} (hbody : '\x7d'.toUInt8 ∉ body) :
      Enclosed rest bodies →
      Enclosed (code ++ ("asm" ++ (space ++ ("\x7b" ++ (body ++ ("\x7d" ++ rest)))))) (body :: bodies)

theorem Enclosed.behind {t : Text} {bodies : List Text} (h : Enclosed t bodies) (code : Text) :
    Enclosed (code ++ t) bodies := by
  cases h with
  | none t => exact .none (code ++ t)
  | block before space hbody hrest =>
    rw [← List.append_assoc]
    exact .block (code ++ before) space hbody hrest

/-- The keyword `asm` is spelled so. -/
theorem Lexical.Lexeme.asm_spelled {tok rest : List Glyph} {lexeme : Text}
    (h : Lexeme tok rest .asm lexeme) : Text.ofGlyphs tok = "asm" := by
  generalize hkind : Token.Kind.asm = kind at h
  cases h with
  | word hg hrun => exact (wordKind_class _).2.2 hkind.symm
  | integer => cases hkind
  | string => cases hkind
  | single hg => exact absurd hkind.symm (punctuation?_class hg).2.2.2.1
  | double ha hb => exact absurd hkind.symm (doubled?_class ha).2.2.2.2.1

/-- The raw texts among the tokens of a source are what stands in braces behind the word `asm`. -/
theorem Lexical.Layout.enclosed {pos : Position} {gs : List Glyph} (h : Layout pos gs ts)
    (hspelled : ∀ g ∈ gs, g.Spelled) : Enclosed (.ofGlyphs gs) (rawTexts ts) := by
  induction h with
  | stop hgap => exact .none _
  | token hgap htok hkind _ ih =>
    rw [rawTexts_cons_of_ne htok.kind_class.2, Text.ofGlyphs_append, Text.ofGlyphs_append]
    exact ((ih fun g hg => hspelled g (by simp [hg])).behind _).behind _
  | @asm pos gap key space body rest lexeme ts hgap hkey hspace hbody _ ih =>
    have hclose : '\x7d'.toUInt8 ∉ Text.ofGlyphs body := by
      rw [Text.ofGlyphs, List.mem_flatMap]
      rintro ⟨g, hg, hmem⟩
      exact (hspelled g (by simp [hg])).not_mem_bytes (by decide) (hbody g hg) hmem
    have hrest := ih fun g hg => hspelled g (by simp [hg])
    simp only [Text.ofGlyphs_append, Text.ofGlyphs_cons, hkey.asm_spelled]
    exact .block _ _ hclose hrest

/-- The functions of a program have the raw texts of its source as bodies, in source order. -/
theorem raw_decls {p : Profile} {prog : Program} {pos : Position} {gs : List Glyph}
    (hlayout : Layout pos gs ts) (h : Program.ofTokens p ts = .ok prog) :
    prog.decls.filterMap Decl.raw? = rawTexts ts := by
  obtain ⟨used, ds, rest, hts, hend, hseq, -, -, hdecls, -⟩ := ofTokens_sound h
  obtain ⟨body, last, rfl, hbody, hlast⟩ := hlayout.ends
  obtain ⟨rfl, -⟩ := only_eof_last hbody hts hend hseq.no_eof hlast
  have hlast' : rawTexts [last] = [] := by simp [rawTexts, hlast]
  have hbind : Decl.raw? ∘ Decl.bind (ds.map (·.name)) = Decl.raw? :=
    funext fun d => Decl.raw?_bind _ d
  rw [hdecls, List.filterMap_map, hbind, rawTexts_append, hlast', List.append_nil, hseq.rawTexts_eq]

/-! ### From the functions to the listing -/

section Listing

variable {p : Profile} {prog : Program} {l : Listing} {d : Decl} {it : Item} {text : Text}

theorem Decl.bodyCode_raw (h : d.raw? = some text) :
    ∃ exit, d.bodyCode p = .raw d.name text :: exit ∧ ∀ it ∈ exit, it.kind = .instr := by
  cases hb : d.body with
  | stmts ss => simp [Decl.raw?, hb] at h
  | asm body pos =>
    obtain rfl : body = text := by simpa [Decl.raw?, hb] using h
    refine ⟨if p.leaves body then [] else p.exitCode d.name, by simp [Decl.bodyCode, hb], ?_⟩
    intro it hit
    split at hit
    · cases hit
    · exact Program.kind_of_mem_exitCode hit

/-- A raw item in the code of a function is its raw body. -/
theorem Decl.raw_of_mem_code (hit : it ∈ d.code p) (hraw : it.kind = .raw) :
    it.owner = d.name ∧ d.raw? = some it.text := by
  rcases List.mem_cons.mp hit with rfl | hit
  · cases hraw
  cases hb : d.raw? with
  | some text =>
    obtain ⟨exit, hcode, hexit⟩ := Decl.bodyCode_raw (p := p) hb
    rw [hcode] at hit
    rcases List.mem_cons.mp hit with rfl | hit
    · exact ⟨rfl, rfl⟩
    · simp [hexit it hit] at hraw
  | none =>
    unfold Decl.raw? at hb
    unfold Decl.bodyCode at hit
    split at hb
    · next ss hss =>
      rw [hss] at hit
      rcases List.mem_append.mp hit with hit | hit
      · obtain ⟨s, -, hit⟩ := List.mem_flatMap.mp hit
        rcases Program.kind_of_mem_stmtCode hit with hkind | hkind <;> simp [hkind] at hraw
      · simp [Program.kind_of_mem_exitCode hit] at hraw
    · cases hb

theorem raw_of_mem_blocks {ds : List Decl} (hit : it ∈ ds.flatMap fun d => .blank :: d.code p)
    (hraw : it.kind = .raw) : ∃ d ∈ ds, it.owner = d.name ∧ d.raw? = some it.text := by
  obtain ⟨d, hd, hit⟩ := List.mem_flatMap.mp hit
  rcases List.mem_cons.mp hit with rfl | hit
  · cases hraw
  · exact ⟨d, hd, Decl.raw_of_mem_code hit hraw⟩

theorem not_raw_of_mem_directives {ts : List Text} (hit : it ∈ ts.map Item.directive) : it.kind ≠ .raw := by
  obtain ⟨t, -, rfl⟩ := List.mem_map.mp hit
  exact nofun

theorem not_raw_of_mem_trailer (hit : it ∈ Program.trailer p) : it.kind ≠ .raw := by
  rcases List.mem_append.mp hit with hit | hit
  · split at hit
    · cases hit
    · obtain rfl := List.mem_singleton.mp hit
      exact nofun
  · exact not_raw_of_mem_directives hit

/-- Every raw item of a listing is the body of an emitted function. -/
theorem Program.Checked.raw_of_mem_listing (h : prog.Checked p) (hl : prog.listing p = .ok l)
    (hit : it ∈ l) (hraw : it.kind = .raw) :
    ∃ d ∈ prog.emitted p, it.owner = d.name ∧ d.raw? = some it.text := by
  rw [h.listing_eq] at hl
  cases hl
  rcases List.mem_append.mp hit with hit | hit
  · rcases List.mem_append.mp hit with hit | hit
    · exact absurd hraw (not_raw_of_mem_directives hit)
    · exact raw_of_mem_blocks hit hraw
  · exact absurd hraw (not_raw_of_mem_trailer hit)

/-- The raw body of an emitted function stands right behind its label, and no raw item behind it has the
same owner. -/
theorem Program.Checked.raw_in_listing (h : prog.Checked p) (hl : prog.listing p = .ok l)
    (hd : d ∈ prog.emitted p) (hraw : d.raw? = some text) :
    ∃ front back, l = front ++ .blank :: .label (p.label d.name) :: .raw d.name text :: back ∧
      ∀ it ∈ back, it.kind = .raw → it.owner ≠ d.name := by
  obtain ⟨exit, hcode, hexit⟩ := Decl.bodyCode_raw (p := p) hraw
  obtain ⟨before, after, hsplit⟩ := List.append_of_mem hd
  have hnames := h.names_emitted_nodup
  rw [h.listing_eq] at hl
  cases hl
  refine ⟨p.header.map .directive ++ before.flatMap (fun d => .blank :: d.code p),
    exit ++ (after.flatMap (fun d => .blank :: d.code p) ++ trailer p), ?_, ?_⟩
  · simp [blocks, hsplit, Decl.code, hcode]
  · intro it hit hkind
    rcases List.mem_append.mp hit with hit | hit
    · simp [hexit it hit] at hkind
    rcases List.mem_append.mp hit with hit | hit
    · obtain ⟨e, he, howner, -⟩ := raw_of_mem_blocks hit hkind
      rw [hsplit, List.map_append, List.nodup_append, List.map_cons, List.nodup_cons] at hnames
      rw [howner]
      intro hname
      exact hnames.2.1.1 (hname ▸ List.mem_map_of_mem he)
    · exact absurd hkind (not_raw_of_mem_trailer hit)

end Listing

/-! ### From the source to the output -/

theorem map_raw_decls {ds : List Decl} {f : Decl → Option Text} (h : ∀ d ∈ ds, f d = d.raw?) :
    (ds.filter (·.convention == .raw)).map f = (ds.filterMap Decl.raw?).map some := by
  induction ds with
  | nil => rfl
  | cons d ds ih =>
    have hrest := ih fun e he => h e (List.mem_cons_of_mem d he)
    have hd := h d List.mem_cons_self
    rw [List.filter_cons, List.filterMap_cons, ← Decl.isSome_raw?]
    cases hraw : d.raw? with
    | none => simpa using hrest
    | some text => simpa [hd, hraw] using hrest

/-- What becomes of the raw blocks of a source, given as their texts in source order. -/
structure RawKept (p : Profile) (source : Text) (o : Output) (bodies : List Text) : Prop where
  enclosed : Enclosed source bodies
  declared : o.program.decls.filterMap Decl.raw? = bodies
  emitted : ∀ d ∈ o.program.decls, d ∈ o.program.emitted p ↔
    (p.stripUnused = true → d ∈ reachableDecls o.program.decls p.entry)
  kept : ∀ d ∈ o.program.emitted p, o.block? d.name = d.raw?
  listed : p.stripUnused = false →
    (o.program.decls.filter (·.convention == .raw)).map (fun d => o.block? d.name) = bodies.map some
  behindLabel : ∀ d ∈ o.program.emitted p, ∀ text, d.raw? = some text →
    ∃ before after, o.text = before ++ ("\n" ++ (p.label d.name ++ (":\n" ++ (text ++ after))))
  normal : ∀ d ∈ o.program.decls, d.convention = .normal → o.block? d.name = none
  pruned : ∀ d ∈ o.program.decls, d ∉ o.program.emitted p → o.block? d.name = none
  undeclared : ∀ name, name ∉ o.program.names → o.block? name = none

section Output

variable {p : Profile} {source : Text} {o : Output} {d : Decl}

theorem block?_emitted (h : o.program.Checked p) (hl : o.program.listing p = .ok o.listing)
    (ho : o.emission = o.listing.emit .unlimited) (hd : d ∈ o.program.emitted p) :
    o.block? d.name = d.raw? := by
  cases hraw : d.raw? with
  | some text =>
    obtain ⟨front, back, hlisting, hback⟩ := h.raw_in_listing hl hd hraw
    have hsplit : o.listing =
        (front ++ [.blank, .label (p.label d.name)]) ++ .raw d.name text :: back := by simp [hlisting]
    exact Output.block?_raw ho hsplit hback
  | none =>
    refine Output.block?_none ho fun it hit hkind howner => ?_
    obtain ⟨e, he, hname, htext⟩ := h.raw_of_mem_listing hl hit hkind
    obtain rfl := h.eq_of_name (h.emitted_subset hd) (h.emitted_subset he) (howner.symm.trans hname)
    rw [hraw] at htext
    cases htext

theorem block?_not_emitted (h : o.program.Checked p) (hl : o.program.listing p = .ok o.listing)
    (ho : o.emission = o.listing.emit .unlimited) {name : Text}
    (hname : ∀ d ∈ o.program.emitted p, d.name ≠ name) : o.block? name = none := by
  refine Output.block?_none ho fun it hit hkind howner => ?_
  obtain ⟨d, hd, hd', -⟩ := h.raw_of_mem_listing hl hit hkind
  exact hname d hd (hd'.symm.trans howner)

/-- The raw body of an emitted function is written right behind the line of its label. -/
theorem text_behind_label (h : o.program.Checked p) (hl : o.program.listing p = .ok o.listing)
    (ho : o.emission = o.listing.emit .unlimited) (hd : d ∈ o.program.emitted p) {text : Text}
    (hraw : d.raw? = some text) :
    ∃ before after, o.text = before ++ ("\n" ++ (p.label d.name ++ (":\n" ++ (text ++ after)))) := by
  obtain ⟨front, back, hlisting, -⟩ := h.raw_in_listing hl hd hraw
  obtain ⟨rest, hline⟩ := Item.line_raw d.name text
  refine ⟨front.flatMap Item.line, rest ++ back.flatMap Item.line, ?_⟩
  have hlabel : (Item.label (p.label d.name)).line = p.label d.name ++ ":\n" := by
    simp [Item.line, Item.render, Item.label]
    rfl
  have hblank : Item.blank.line = "\n" := rfl
  rw [Output.text, ho, Listing.emit_written, hlisting, List.flatMap_append, List.flatMap_cons,
    List.flatMap_cons, List.flatMap_cons, hblank, hlabel, hline]
  simp only [List.append_assoc]

/-- A compilation carries the raw blocks of its source to the output byte for byte. -/
theorem compile_keeps_raw (h : compile p source = .ok o) :
    ∃ ts, (∀ ts', Layout .start source.glyphs ts' ↔ ts' = ts) ∧ RawKept p source o (rawTexts ts) := by
  obtain ⟨-, ts, hlex, hprog, hl, ho⟩ := compile_eq_ok_iff.mp h
  have hlayout := lex_eq_ok_iff.mp hlex
  have hchecked := Program.checked_of_ofTokens hprog
  have hdecls := raw_decls hlayout hprog
  have hemitted : ∀ d ∈ o.program.decls, d ∈ o.program.emitted p ↔
      (p.stripUnused = true → d ∈ reachableDecls o.program.decls p.entry) := by
    intro d hd
    rw [hchecked.mem_emitted_iff]
    exact ⟨And.right, fun hkept => ⟨hd, hkept⟩⟩
  -- Names are distinct, so a function that is left out has no block under the name of another one.
  have hpruned : ∀ d ∈ o.program.decls, d ∉ o.program.emitted p → o.block? d.name = none := by
    intro d hd hnot
    refine block?_not_emitted hchecked hl ho fun e he hname => hnot ?_
    exact hchecked.eq_of_name (hchecked.emitted_subset he) hd hname ▸ he
  refine ⟨ts, fun ts' => ?_, ?_⟩
  · rw [← lex_eq_ok_iff, hlex, Except.ok.injEq, eq_comm]
  · refine ⟨?_, hdecls, hemitted, fun d hd => block?_emitted hchecked hl ho hd, ?_,
      fun d hd text => text_behind_label hchecked hl ho hd, ?_, hpruned, ?_⟩
    · simpa using hlayout.enclosed Glyph.spelled_glyphs
    · intro hall
      rw [← hdecls]
      refine map_raw_decls fun d hd => block?_emitted hchecked hl ho ?_
      exact (hemitted d hd).mpr (by simp [hall])
    · intro d hd hnormal
      by_cases hd' : d ∈ o.program.emitted p
      · rw [block?_emitted hchecked hl ho hd', Decl.raw?_of_normal hnormal]
      · exact hpruned d hd hd'
    · intro name hname
      refine block?_not_emitted hchecked hl ho fun d hd hd' => hname ?_
      exact List.mem_map.mpr ⟨d, hchecked.emitted_subset hd, hd'⟩

theorem compile_keeps_sample : ∃ o, compile sampleProfile sampleSource = .ok o ∧
    ∃ ts, (∀ ts', Layout .start sampleSource.glyphs ts' ↔ ts' = ts) ∧
      RawKept sampleProfile sampleSource o (rawTexts ts) := by
  obtain ⟨ts, prog, hlex, hprog⟩ := sample_read
  obtain ⟨o, ho, -⟩ := exists_compile_eq_ok sampleProfile_flaw hlex hprog
  exact ⟨o, ho, compile_keeps_raw ho⟩

end Output

end Pocket

import Pocket.Proofs.Labels

/-!
# What pruning keeps

A raw body refers to a function by the label of that function, while the search for the functions to
keep follows names. The two agree where a label is the name. Elsewhere a label that a raw body refers
to is defined exactly if its function is the entry or some emitted function mentions it by name.
-/

namespace Pocket

open Asm

/-- The operands of the lines of a raw body; a body of statements has none. -/
def Decl.rawOperands (d : Decl) : List Text :=
  match d.body with
  | .stmts _ => []
  | .asm text _ => (readText text).flatMap (·.operands)

theorem Decl.rawOperands_subset_mentions {d : Decl} {op : Text} (h : op ∈ d.rawOperands) :
    op ∈ d.mentions := by
  unfold Decl.rawOperands at h
  unfold Decl.mentions
  cases hb : d.body with
  | stmts ss =>
    rw [hb] at h
    cases h
  | asm text pos =>
    rw [hb] at h
    exact h

variable {p : Profile} {prog : Program} {l : Listing} {d e : Decl}

/-- With an empty prefix the label of a function other than the entry is its name. -/
theorem label_eq_name {name : Text} (hbare : p.labelPrefix = []) (hname : name ≠ p.entry) :
    p.label name = name := by
  rw [Profile.label, if_neg hname, hbare]
  rfl

namespace Program.Checked

/-- The label of a declared function is one of the listing exactly if the function is emitted. -/
theorem label_mem_iff (h : prog.Checked p) (hl : prog.listing p = .ok l) (he : e ∈ prog.decls) :
    p.label e.name ∈ l.labels ↔ e ∈ prog.emitted p := by
  constructor
  · intro hmem
    rw [h.labels_listing hl] at hmem
    obtain ⟨other, hother, hlabel⟩ := List.mem_map.mp hmem
    have heq : other = e := h.eq_of_label (h.emitted_subset hother) he hlabel
    exact heq ▸ hother
  · exact h.label_mem hl

/-- Pruning keeps the entry and what the kept functions mention by name. -/
theorem mem_emitted_iff_mentioned (h : prog.Checked p) (hstrip : p.stripUnused = true)
    (he : e ∈ prog.decls) :
    e ∈ prog.emitted p ↔ e.name = p.entry ∨ ∃ caller ∈ prog.emitted p, e.name ∈ caller.mentions := by
  have hkept : ∀ {d : Decl}, d ∈ prog.emitted p ↔ d ∈ reachableDecls prog.decls p.entry := by
    intro d
    rw [h.mem_emitted_iff]
    constructor
    · exact fun hd => hd.2 hstrip
    · exact fun hd => ⟨(mem_reachableDecls_iff.mp hd).1, fun _ => hd⟩
  constructor
  · intro hemitted
    obtain ⟨-, hreached⟩ := mem_reachableDecls_iff.mp (hkept.mp hemitted)
    -- The last step of the search that reached the function.
    cases hreached with
    | root hroot _ => exact .inl (List.mem_singleton.mp hroot)
    | @mention callerName _ hcaller hname _ =>
      have hknown : callerName ∈ prog.decls.map (·.name) := by
        cases hcaller with
        | root _ hknown => exact hknown
        | mention _ _ hknown => exact hknown
      obtain ⟨caller, hmem, rfl⟩ := List.mem_map.mp hknown
      rw [mentionsIn, find?_name h.names hmem] at hname
      exact .inr ⟨caller, hkept.mpr (mem_reachableDecls_iff.mpr ⟨hmem, hcaller⟩), hname⟩
  · rintro (hentry | ⟨caller, hcaller, hname⟩)
    · exact hkept.mpr (entry_mem_reachableDecls he hentry)
    · exact hkept.mpr (mentioned_mem_reachableDecls h.names (hkept.mp hcaller) he hname)

end Program.Checked

/-! ### References of raw bodies -/

/-- The label that an emitted raw body refers to is defined in the pruned listing exactly if its function
is the entry or some emitted function mentions it by name. With an empty prefix it always is. -/
theorem raw_reference_defined_iff {source : Text} {o : Output} (h : compile p source = .ok o)
    (hstrip : p.stripUnused = true) (hd : d ∈ o.program.emitted p) (he : e ∈ o.program.decls)
    (href : p.label e.name ∈ d.rawOperands) :
    (p.label e.name ∈ o.listing.labels ↔
      e.name = p.entry ∨ ∃ caller ∈ o.program.emitted p, e.name ∈ caller.mentions) ∧
    (p.labelPrefix = [] → p.label e.name ∈ o.listing.labels) := by
  obtain ⟨-, ts, -, hprog, hl, -⟩ := compile_eq_ok_iff.mp h
  have hchecked := Program.checked_of_ofTokens hprog
  have hiff : p.label e.name ∈ o.listing.labels ↔
      e.name = p.entry ∨ ∃ caller ∈ o.program.emitted p, e.name ∈ caller.mentions := by
    rw [hchecked.label_mem_iff hl he, hchecked.mem_emitted_iff_mentioned hstrip he]
  refine ⟨hiff, fun hbare => hiff.mpr ?_⟩
  by_cases hentry : e.name = p.entry
  · exact .inl hentry
  · rw [label_eq_name hbare hentry] at href
    exact .inr ⟨d, hd, Decl.rawOperands_subset_mentions href⟩

/-! ### A function that only a raw body refers to -/

/-- `void main(){f();}void g(){}void f(){asm{ call g}}`, with any operand in the raw body. -/
def referringSource (operand : Text) : Text :=
  "void main()\x7bf();\x7dvoid g()\x7b\x7dvoid f()\x7basm\x7b call " ++ operand ++ "\x7d\x7d"

def callingDecl : Decl :=
  ⟨"main", "void", .stmts [.call ⟨"f", none, 0, .declared, ⟨1, 13⟩⟩], ⟨1, 6⟩⟩

def referredDecl : Decl :=
  ⟨"g", "void", .stmts [], ⟨1, 23⟩⟩

def referringDecl (operand : Text) : Decl :=
  ⟨"f", "void", .asm (" call " ++ operand) ⟨1, 41⟩, ⟨1, 33⟩⟩

/-- A profile that prunes, with a given prefix of labels. -/
def pruningProfile (labelPrefix : Text) : Profile :=
  { Profile.standard with labelPrefix, stripUnused := true }

/-- A source that is read to some functions compiles to a program of these functions. -/
theorem exists_compile_of_read {source : Text} {ds : List Decl} (hflaw : p.flaw? = none)
    (h : (source.lex.toOption.any fun ts =>
      (Program.ofTokens p ts).toOption.any fun prog => decide (prog.decls = ds)) = true) :
    ∃ o, compile p source = .ok o ∧ o.program.Checked p ∧ o.program.decls = ds := by
  obtain ⟨ts, hlex, h⟩ := (Option.any_eq_true _ _).mp h
  obtain ⟨prog, hprog, h⟩ := (Option.any_eq_true _ _).mp h
  have hprog := eq_ok_of_toOption hprog
  obtain ⟨o, ho, rfl⟩ := exists_compile_eq_ok hflaw (eq_ok_of_toOption hlex) hprog
  exact ⟨o, ho, Program.checked_of_ofTokens hprog, of_decide_eq_true h⟩

/-- The function with the raw body is emitted, because the entry calls it. -/
theorem referringDecl_emitted {operand : Text} (h : prog.Checked p) (hstrip : p.stripUnused = true)
    (hentry : p.entry = "main")
    (hds : prog.decls = [callingDecl, referredDecl, referringDecl operand]) :
    referringDecl operand ∈ prog.emitted p := by
  have hcalling : callingDecl ∈ prog.emitted p := by
    rw [h.mem_emitted_iff_mentioned hstrip (by simp [hds])]
    exact .inl hentry.symm
  rw [h.mem_emitted_iff_mentioned hstrip (by simp [hds])]
  exact .inr ⟨callingDecl, hcalling, List.mem_singleton.mpr rfl⟩

theorem raw_reference_defined_bare : ∃ o,
    compile (pruningProfile []) (referringSource "g") = .ok o ∧
      referringDecl "g" ∈ o.program.emitted (pruningProfile []) ∧
      referredDecl ∈ o.program.decls ∧
      (pruningProfile []).label referredDecl.name ∈ (referringDecl "g").rawOperands ∧
      (pruningProfile []).label referredDecl.name ∈ o.listing.labels := by
  have hread : ∃ o, compile (pruningProfile []) (referringSource "g") = .ok o ∧
      o.program.Checked (pruningProfile []) ∧
      o.program.decls = [callingDecl, referredDecl, referringDecl "g"] :=
    exists_compile_of_read (by cbv) (by cbv)
  obtain ⟨o, ho, hchecked, hds⟩ := hread
  have hd := referringDecl_emitted hchecked rfl rfl hds
  have he : referredDecl ∈ o.program.decls := by simp [hds]
  have href : (pruningProfile []).label referredDecl.name ∈ (referringDecl "g").rawOperands := by
    decide
  exact ⟨o, ho, hd, he, href, (raw_reference_defined_iff ho rfl hd he href).2 rfl⟩

/-- With a prefix the function is left out, and the emitted raw body refers to a label that is nowhere
defined. -/
theorem raw_reference_dangling : ∃ o,
    compile (pruningProfile "fn_") (referringSource "fn_g") = .ok o ∧
      referringDecl "fn_g" ∈ o.program.emitted (pruningProfile "fn_") ∧
      referredDecl ∈ o.program.decls ∧
      (pruningProfile "fn_").label referredDecl.name ∈ (referringDecl "fn_g").rawOperands ∧
      (pruningProfile "fn_").label referredDecl.name ∉ o.listing.labels := by
  have hread : ∃ o, compile (pruningProfile "fn_") (referringSource "fn_g") = .ok o ∧
      o.program.Checked (pruningProfile "fn_") ∧
      o.program.decls = [callingDecl, referredDecl, referringDecl "fn_g"] :=
    exists_compile_of_read (by cbv) (by cbv)
  obtain ⟨o, ho, hchecked, hds⟩ := hread
  have he : referredDecl ∈ o.program.decls := by simp [hds]
  refine ⟨o, ho, referringDecl_emitted hchecked rfl rfl hds, he, by decide, ?_⟩
  obtain ⟨-, ts, -, -, hl, -⟩ := compile_eq_ok_iff.mp ho
  rw [hchecked.label_mem_iff hl he, hchecked.mem_emitted_iff_mentioned rfl he]
  rintro (hentry | ⟨caller, hcaller, hname⟩)
  · exact absurd hentry (by decide)
  · have hmem := hchecked.emitted_subset hcaller
    have hunnamed : ∀ d ∈ [callingDecl, referredDecl, referringDecl "fn_g"],
        referredDecl.name ∉ d.mentions := by decide
    exact hunnamed caller (hds ▸ hmem) hname

end Pocket

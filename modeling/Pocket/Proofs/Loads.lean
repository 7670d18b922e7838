import Mathlib
import Pocket.Proofs.Labels
import Pocket.Proofs.Machine
import Pocket.Proofs.RawBlocks

/-!
# Loads and calls

Every statement of an emitted function has its own items: a load of the value of its expression, if it has
one, and a call, if it is one. The items of a function are those of its statements one after the other,
between its label and its exit. A remark above each statement is all that comments add.
-/

namespace Pocket

open Asm Grammar

/-! ### Decimal numerals -/

/-- The number that a decimal numeral with or without a minus sign stands for. -/
def Text.decimal? (t : Text) : Option Int :=
  match t with
  | [] => none
  | b :: digits =>
    if b = '-'.toUInt8 then (numeral? 10 digits).map fun n => -(n : Int)
    else (numeral? 10 t).map fun n => (n : Int)

theorem Text.decimal?_ofInt (n : Int) : (Text.ofInt n).decimal? = some n := by
  cases n with
  | ofNat n =>
    have hn := numeral?_ofNat n
    change Text.decimal? (Text.ofNat n) = _
    cases hdigits : Text.ofNat n with
    | nil => simp [Text.ofNat, Nat.toDigits_ne_nil] at hdigits
    | cons b digits =>
      have hb : b ≠ '-'.toUInt8 := by
        have hmem : b ∈ Text.ofNat n := by simp [hdigits]
        obtain ⟨c, hc, rfl⟩ := List.mem_map.mp hmem
        exact (digitValue?_toUInt8 (Nat.isDigit_of_mem_toDigits (by decide) (by decide) hc)).2.2
      rw [hdigits] at hn
      simp [decimal?, hb, hn]
  | negSucc n =>
    rw [ofInt, decimal?, if_pos rfl, numeral?_ofNat]
    rfl

/-! ### The items of a statement -/

/-- An item that loads the value of an expression, a number of sixteen bits with a sign. -/
def LoadedBy (p : Profile) (e : Expr) (instr : Item) : Prop :=
  ∃ (v : Word) (numeral : Text), e.fold = .ok v ∧ -32768 ≤ v.toInt ∧ v.toInt ≤ 32767 ∧
    numeral = .ofInt v.toInt ∧ numeral.decimal? = some v.toInt ∧
    instr = .instr false p.load [p.accumulator, numeral]

/-- The items of a statement: the load of its value, if it has one, and directly behind it the call, if
it is one. -/
inductive Lowers (p : Profile) (prog : Program) (l : Listing) : Stmt → Listing → Prop where
  | value {e : Expr} {v : Word} {pos : Position} {load : Item} (hload : LoadedBy p e load) :
      Lowers p prog l (.expr e v pos) [load]
  | callWith {c : Call} {e : Expr} {load call : Item} (harg : c.arg = some e) (hload : LoadedBy p e load)
      (hcall : CalledBy p prog l c call) : Lowers p prog l (.call c) [load, call]
  | callBare {c : Call} {call : Item} (harg : c.arg = none) (hcall : CalledBy p prog l c call) :
      Lowers p prog l (.call c) [call]

/-- The items of a function whose statements have some given items. -/
def Decl.codeBy (p : Profile) (items : Stmt → Listing) (d : Decl) : Listing :=
  .label (p.label d.name) :: match d.body with
    | .stmts ss => ss.flatMap items ++ p.exitCode d.name
    | .asm text _ => .raw d.name text :: if p.leaves text then [] else p.exitCode d.name

/-- The listing of a program whose statements have some given items. -/
def Program.listingBy (p : Profile) (items : Stmt → Listing) (prog : Program) : Listing :=
  p.header.map .directive ++ (prog.emitted p).flatMap (fun d => .blank :: d.codeBy p items) ++ trailer p

/-- The same profile with comments turned on or off. -/
def Profile.remarking (p : Profile) (on : Bool) : Profile :=
  { p with comments := on }

/-- The items of a statement without its comment. -/
def Stmt.items (p : Profile) : Stmt → Listing
  | .call c => (if c.arg.isSome then [p.loadItem c.value] else []) ++ [p.callItem c]
  | .expr _ value _ => [p.loadItem value]

/-- The items of a statement, with its comment or without it. -/
def Stmt.remarked (p : Profile) (on : Bool) (s : Stmt) : Listing :=
  if on then .comment s.render :: s.items p else s.items p

section Items

variable {p : Profile} {prog : Program} {l : Listing} {d : Decl} {s : Stmt}

theorem Stmt.code_remarking (p : Profile) (on : Bool) : Stmt.code (p.remarking on) = Stmt.remarked p on := by
  funext s
  cases on <;> cases s <;> rfl

theorem Decl.code_remarking (p : Profile) (on : Bool) (d : Decl) :
    d.code (p.remarking on) = d.codeBy p (Stmt.remarked p on) := by
  rw [Decl.code, Decl.codeBy, Decl.bodyCode, Stmt.code_remarking]
  cases d.body <;> rfl

theorem loadedBy_loadItem {e : Expr} {v : Word} (h : e.fold = .ok v) : LoadedBy p e (p.loadItem v) :=
  ⟨v, v.render, h, BitVec.le_toInt v, Int.le_of_lt_add_one (BitVec.toInt_lt (x := v)), rfl,
    Text.decimal?_ofInt v.toInt, rfl⟩

/-- A statement that carries the value of its expression is lowered to its items. -/
theorem Stmt.lowers_items (hvalue : ∀ e, s.expr? = some e → e.fold = .ok s.value)
    (hcall : ∀ c, s.call? = some c → CalledBy p prog l c (p.callItem c)) :
    Lowers p prog l s (s.items p) := by
  cases s with
  | expr e v pos => exact .value (loadedBy_loadItem (hvalue e rfl))
  | call c =>
    cases harg : c.arg with
    | none =>
      rw [Stmt.items, harg]
      exact .callBare harg (hcall c rfl)
    | some e =>
      rw [Stmt.items, harg]
      exact .callWith harg (loadedBy_loadItem (hvalue e harg)) (hcall c rfl)

theorem CalledBy.kind {c : Call} {instr : Item} (h : CalledBy p prog l c instr) : instr.kind = .instr := by
  rcases h with ⟨-, rfl, -⟩ | ⟨-, rfl⟩ <;> rfl

theorem LoadedBy.kind {e : Expr} {instr : Item} (h : LoadedBy p e instr) : instr.kind = .instr := by
  obtain ⟨v, numeral, -, -, -, -, -, rfl⟩ := h
  rfl

/-- Comments aside, a statement has its items. -/
theorem Lowers.without_comments (on : Bool) (h : Lowers p prog l s (s.items p)) :
    (s.remarked p on).filter (·.kind ≠ .comment) = s.items p := by
  have hitems : (s.items p).filter (·.kind ≠ .comment) = s.items p := by
    generalize s.items p = items at h
    cases h with
    | value hload => simp [hload.kind]
    | callWith _ hload hcall => simp [hload.kind, hcall.kind]
    | callBare _ hcall => simp [hcall.kind]
  cases on with
  | true => exact hitems
  | false => exact hitems

theorem filter_flatMap_remarked (on : Bool) {ss : List Stmt}
    (h : ∀ s ∈ ss, Lowers p prog l s (s.items p)) :
    (ss.flatMap (Stmt.remarked p on)).filter (·.kind ≠ .comment) = ss.flatMap (Stmt.items p) := by
  rw [List.filter_flatMap]
  exact List.flatMap_congr fun s hs => (h s hs).without_comments on

end Items

/-! ### Programs with and without comments -/

section Remarking

variable {p : Profile} {prog prog' : Program} {l : Listing} {d : Decl}

theorem Grammar.Accepted.remarking {ds : List Decl} (h : Accepted p ds) (on : Bool) :
    Accepted (p.remarking on) ds :=
  ⟨h.literals, h.values, h.names, h.labels, h.calls, h.entry⟩

/-- What is read does not depend on comments. -/
theorem ofTokens_remarking {body : List Token} {last : Token} (hbody : ∀ t ∈ body, t.kind ≠ .eof)
    (hlast : last.kind = .eof) (h : Program.ofTokens p (body ++ [last]) = .ok prog) (on : Bool) :
    ∃ prog', Program.ofTokens (p.remarking on) (body ++ [last]) = .ok prog' ∧ prog'.decls = prog.decls := by
  obtain ⟨used, ds, rest, hts, hend, hseq, -, hacc, hdecls, -⟩ := ofTokens_sound h
  obtain ⟨rfl, -⟩ := only_eof_last hbody hts hend hseq.no_eof hlast
  obtain ⟨prog', h'⟩ := ofTokens_complete hseq hlast (hacc.remarking on)
  obtain ⟨used', ds', rest', hts', hend', hseq', -, -, hdecls', -⟩ := ofTokens_sound h'
  obtain ⟨rfl, -⟩ := only_eof_last hbody hts' hend' hseq'.no_eof hlast
  obtain rfl : ds' = ds := tree_unique hseq hseq' hlast hacc
  exact ⟨prog', h', hdecls'.trans hdecls.symm⟩

theorem emitted_remarking (on : Bool) (h : prog.Checked p) (h' : prog'.Checked (p.remarking on))
    (hdecls : prog'.decls = prog.decls) : prog'.emitted (p.remarking on) = prog.emitted p := by
  have hothers : prog'.others (p.remarking on) = prog.others p := by
    rw [Program.others, Program.others, hdecls]
    rfl
  rw [Program.emitted, Program.emitted, hothers, DeclTable.lookup?, DeclTable.lookup?, h'.table, h.table,
    hdecls]
  rfl

theorem listing_remarking (on : Bool) (h : prog.Checked p) (h' : prog'.Checked (p.remarking on))
    (hdecls : prog'.decls = prog.decls) :
    prog'.listing (p.remarking on) = .ok (prog.listingBy p (Stmt.remarked p on)) := by
  rw [h'.listing_eq, Program.blocks, emitted_remarking on h h' hdecls, Program.listingBy]
  simp only [Decl.code_remarking]
  rfl

theorem Program.Checked.lowers_items (h : prog.Checked p) (hl : prog.listing p = .ok l)
    (hd : d ∈ prog.emitted p) {s : Stmt} (hs : s ∈ d.stmts) : Lowers p prog l s (s.items p) := by
  refine Stmt.lowers_items (h.values d (h.emitted_subset hd) s hs) fun c hc => ?_
  refine h.calledBy_callItem hl hd ?_
  rw [Decl.calls_eq_filterMap]
  exact List.mem_filterMap.mpr ⟨s, hs, hc⟩

/-- Behind the items of a function stands the blank line before the next one or before the footer. -/
theorem codeBy_mem_listingBy (items : Stmt → Listing) (hd : d ∈ prog.emitted p) :
    ∃ front back, prog.listingBy p items = front ++ d.codeBy p items ++ back ∧
      (back = [] ∨ ∃ rest, back = .blank :: rest) := by
  obtain ⟨before, after, hsplit⟩ := List.append_of_mem hd
  refine ⟨p.header.map .directive ++ before.flatMap (fun d => .blank :: d.codeBy p items) ++ [.blank],
    after.flatMap (fun d => .blank :: d.codeBy p items) ++ Program.trailer p, ?_, ?_⟩
  · simp [Program.listingBy, hsplit]
  · cases after with
    | cons e after => exact .inr ⟨_, rfl⟩
    | nil =>
      rw [List.flatMap_nil, List.nil_append, Program.trailer]
      cases p.footer with
      | nil => exact .inl rfl
      | cons t footer => exact .inr ⟨_, rfl⟩

end Remarking

/-- What becomes of the statements of a source, given the items of each. The functions of the program are
read off the source, and every statement of an emitted function is lowered to its items; comments aside,
these are the items of the function between its label and its exit. With comments turned on or off the
source compiles to the same listing but for a comment directly before the items of every statement. -/
structure Lowered (p : Profile) (source : Text) (o : Output) (items : Stmt → Listing) : Prop where
  parsed : ∃ body last ds, source.lex = .ok (body ++ [last]) ∧ last.kind = .eof ∧
    Sequence Declaration body ds ∧ o.program.decls = ds.map (Decl.bind (ds.map (·.name)))
  lowers : ∀ d ∈ o.program.emitted p, ∀ s ∈ d.stmts, Lowers p o.program o.listing s (items s)
  functions : ∀ d ∈ o.program.emitted p, ∀ ss, d.body = .stmts ss → ∃ front code back,
    o.listing = front ++ .label (p.label d.name) :: (code ++ p.exitCode d.name) ++ back ∧
    (back = [] ∨ ∃ rest, back = .blank :: rest) ∧ code.filter (·.kind ≠ .comment) = ss.flatMap items
  remarks : ∀ on : Bool, ∃ o', compile { p with comments := on } source = .ok o' ∧
    o'.program.decls = o.program.decls ∧
    o'.listing = o.program.listingBy p (if on then fun s => .comment s.render :: items s else items)

/-- Loads and calls correspond one to one to statements. -/
theorem statements_lowered (p : Profile) (source : Text) (o : Output) (h : compile p source = .ok o) :
    ∃ items, Lowered p source o items := by
  obtain ⟨hflaw, ts, hlex, hprog, hl, -⟩ := compile_eq_ok_iff.mp h
  obtain ⟨body, last, rfl, hbody, hlast⟩ := (lex_eq_ok_iff.mp hlex).ends
  obtain ⟨used, ds, rest, hts, hend, hseq, -, -, hdecls, -⟩ := ofTokens_sound hprog
  obtain ⟨rfl, -⟩ := only_eof_last hbody hts hend hseq.no_eof hlast
  have hchecked := Program.checked_of_ofTokens hprog
  have hlowers : ∀ d ∈ o.program.emitted p, ∀ s ∈ d.stmts, Lowers p o.program o.listing s (s.items p) :=
    fun d hd s hs => hchecked.lowers_items hl hd hs
  refine ⟨Stmt.items p, ⟨used, last, ds, hlex, hlast, hseq, hdecls⟩, hlowers, ?_, ?_⟩
  · intro d hd ss hss
    -- The listing is made of lines with remarks; without them the items of the statements are left.
    have hlisting : o.listing = o.program.listingBy p (Stmt.remarked p p.comments) := by
      have hsame := listing_remarking p.comments hchecked hchecked rfl
      exact Except.ok.inj (hl.symm.trans hsame)
    obtain ⟨front, back, hcode, hback⟩ := codeBy_mem_listingBy (Stmt.remarked p p.comments) hd
    refine ⟨front, ss.flatMap (Stmt.remarked p p.comments), back, ?_, hback, ?_⟩
    · rw [hlisting, hcode, Decl.codeBy, hss]
    · refine filter_flatMap_remarked p.comments fun s hs => hlowers d hd s ?_
      rw [Decl.stmts, hss]
      exact hs
  -- With or without remarks the source compiles, and to the same functions.
  · intro on
    obtain ⟨prog', hprog', hdecls'⟩ := ofTokens_remarking hbody hlast hprog on
    have hchecked' := Program.checked_of_ofTokens hprog'
    obtain ⟨o', ho', rfl⟩ := exists_compile_eq_ok (p := p.remarking on) hflaw hlex hprog'
    obtain ⟨-, -, -, -, hl', -⟩ := compile_eq_ok_iff.mp ho'
    refine ⟨o', ho', hdecls', ?_⟩
    rw [listing_remarking on hchecked hchecked' hdecls'] at hl'
    rw [← Except.ok.inj hl']
    cases on <;> rfl

theorem statements_lowered_sample : ∃ o, compile sampleProfile sampleSource = .ok o ∧
    ∃ items, Lowered sampleProfile sampleSource o items := by
  obtain ⟨ts, prog, hlex, hprog⟩ := sample_read
  obtain ⟨o, ho, -⟩ := exists_compile_eq_ok sampleProfile_flaw hlex hprog
  exact ⟨o, ho, statements_lowered _ _ o ho⟩

end Pocket

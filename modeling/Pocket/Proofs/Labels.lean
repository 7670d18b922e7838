import Pocket.Command.Run
import Pocket.Proofs.Compiled

/-!
# Labels

Every emitted function stands under a label of its own, the entry under the start label and first.
Every call of a function leads to one of these labels, and the table of symbols shows them.
-/

namespace Pocket

open Asm

namespace Asm.Listing

/-- The names of the labels of a listing, in order. -/
def labels (l : Listing) : List Text :=
  (l.filter (·.kind == .label)).map (·.text)

variable {l : Listing} {it : Item}

theorem labels_append (l m : Listing) : (l ++ m).labels = l.labels ++ m.labels := by
  simp [labels]

theorem labels_cons_label (name : Text) (l : Listing) :
    labels (.label name :: l) = name :: l.labels := rfl

theorem labels_cons_of_ne (h : it.kind ≠ .label) : labels (it :: l) = l.labels := by
  simp [labels, h]

theorem labels_eq_nil (h : ∀ it ∈ l, it.kind ≠ .label) : l.labels = [] := by
  simpa [labels] using h

theorem labels_flatMap {α : Type} (xs : List α) (f : α → Listing) :
    labels (xs.flatMap f) = xs.flatMap fun x => (f x).labels := by
  induction xs with
  | nil => rfl
  | cons x xs ih => rw [List.flatMap_cons, List.flatMap_cons, labels_append, ih]

end Asm.Listing

/-! ### Labels of the generated code -/

variable {p : Profile} {prog : Program} {l : Listing}

theorem labels_exitCode (name : Text) : (p.exitCode name).labels = [] :=
  Listing.labels_eq_nil fun it hit => by simp [Program.kind_of_mem_exitCode hit]

theorem labels_stmtCode (s : Stmt) : (s.code p).labels = [] := by
  refine Listing.labels_eq_nil fun it hit => ?_
  rcases Program.kind_of_mem_stmtCode hit with hkind | hkind <;> simp [hkind]

/-- A function has one label, its own. -/
theorem labels_code (d : Decl) : (d.code p).labels = [p.label d.name] := by
  rw [Decl.code, Listing.labels_cons_label]
  unfold Decl.bodyCode
  split
  · simp [Listing.labels_append, Listing.labels_flatMap, labels_stmtCode, labels_exitCode]
  · rw [Listing.labels_cons_of_ne (by simp [Item.raw])]
    split
    · rfl
    · rw [labels_exitCode]

theorem labels_directives (ts : List Text) : Listing.labels (ts.map .directive) = [] :=
  Listing.labels_eq_nil (by simp [Item.directive])

namespace Program.Checked

theorem labels_listing (h : prog.Checked p) (hl : prog.listing p = .ok l) :
    l.labels = (prog.emitted p).map fun d => p.label d.name := by
  rw [h.listing_eq] at hl
  cases hl
  have htrailer : (trailer p).labels = [] := by
    unfold trailer
    rw [Listing.labels_append, labels_directives]
    split <;> rfl
  have hblock : ∀ d : Decl, Listing.labels (.blank :: d.code p) = [p.label d.name] := by
    intro d
    rw [Listing.labels_cons_of_ne (by simp [Item.blank]), labels_code]
  rw [Listing.labels_append, Listing.labels_append, labels_directives, htrailer, blocks,
    Listing.labels_flatMap]
  simp [hblock, List.map_eq_flatMap]

/-- Functions with the same label are the same function. -/
theorem eq_of_label (h : prog.Checked p) {d e : Decl} (hd : d ∈ prog.decls) (he : e ∈ prog.decls)
    (hlabel : p.label d.name = p.label e.name) : d = e := by
  refine h.eq_of_name hd he ?_
  unfold Profile.label at hlabel
  split at hlabel <;> split at hlabel
  · next hd' he' => exact hd'.trans he'.symm
  · next he' => exact absurd hlabel.symm (h.labels e he he')
  · next hd' _ => exact absurd hlabel (h.labels d hd hd')
  · exact List.append_cancel_left hlabel

theorem labels_nodup (h : prog.Checked p) (hl : prog.listing p = .ok l) : l.labels.Nodup := by
  rw [h.labels_listing hl]
  refine List.Nodup.map_on ?_ (List.Nodup.of_map _ h.names_emitted_nodup)
  intro d hd e he
  exact h.eq_of_label (h.emitted_subset hd) (h.emitted_subset he)

theorem label_mem (h : prog.Checked p) (hl : prog.listing p = .ok l) {d : Decl}
    (hd : d ∈ prog.emitted p) : p.label d.name ∈ l.labels := by
  rw [h.labels_listing hl]
  exact List.mem_map_of_mem hd

end Program.Checked

/-! ### Closed listings -/

/-- The instruction of a call: a bound function is called by its label, which is one of the listing,
and a routine by its name. -/
def CalledBy (p : Profile) (prog : Program) (l : Listing) (c : Call) (instr : Item) : Prop :=
  (c.target = .declared ∧ instr = .instr false p.call [p.label c.callee] ∧
      p.label c.callee ∈ l.labels ∧ ∃ callee ∈ prog.emitted p, callee.name = c.callee) ∨
    (c.target = .external ∧ instr = .instr true p.osCall [c.callee])

/-- A listing that is closed and unambiguous: what its labels are, where the code of each function
stands, where each call of it leads, and what the table of symbols says about it. -/
structure Closed (p : Profile) (prog : Program) (l : Listing) : Prop where
  distinct : l.labels.Nodup
  onePerFunction : l.labels = (prog.emitted p).map fun d => p.label d.name
  start : ∃ entry others front back, prog.emitted p = entry :: others ∧ entry.name = p.entry ∧
    l = front ++ .label p.startLabel :: entry.bodyCode p ++ back ∧ front.labels = []
  emitted : ∀ d, d ∈ prog.emitted p ↔
    d ∈ prog.decls ∧ (p.stripUnused = true → d ∈ reachableDecls prog.decls p.entry)
  calls : ∀ d ∈ prog.emitted p, ∀ before c after, d.body = .stmts (before ++ .call c :: after) →
    ∃ front setup instr back,
      l = front ++ .label (p.label d.name) :: before.flatMap (Stmt.code p) ++ setup ++ instr :: back ∧
      setup ++ [instr] = Stmt.code p (.call c) ∧ CalledBy p prog l c instr
  symbols : ∀ d ∈ prog.emitted p, ∃ (i : Nat) (label : Text) (front back : Listing),
    prog.decls[i]? = some d ∧
    (Command.symbolGrid p prog).rows[i]? =
      some [d.name, d.convention.name, label, d.returns, d.pos.render] ∧
    l = front ++ .label label :: d.bodyCode p ++ back

namespace Program.Checked

variable {d : Decl}

theorem calledBy_callItem (h : prog.Checked p) (hl : prog.listing p = .ok l)
    (hd : d ∈ prog.emitted p) {c : Call} (hc : c ∈ d.calls) :
    CalledBy p prog l c (p.callItem c) := by
  rcases h.calls d (h.emitted_subset hd) c hc with ⟨htarget, hcallee⟩ | ⟨htarget, -⟩
  · obtain ⟨callee, hmem, hname⟩ := h.callee_emitted hd hc hcallee
    refine .inl ⟨htarget, by simp [Profile.callItem, htarget], ?_, callee, hmem, hname⟩
    rw [← hname]
    exact h.label_mem hl hmem
  · exact .inr ⟨htarget, by simp [Profile.callItem, htarget]⟩

theorem symbols_row (hd : d ∈ prog.decls) : ∃ i : Nat, prog.decls[i]? = some d ∧
    (Command.symbolGrid p prog).rows[i]? =
      some [d.name, d.convention.name, p.label d.name, d.returns, d.pos.render] := by
  obtain ⟨i, hi, hget⟩ := List.mem_iff_getElem.mp hd
  refine ⟨i, by simp [hi, hget], ?_⟩
  simp [Command.symbolGrid, List.getElem?_append_left, hi, hget]

end Program.Checked

/-- The listing of a program that was read and is generated under one profile is closed and
unambiguous. -/
theorem listing_closed (p : Profile) (ts : List Token) (prog : Program)
    (h : Program.ofTokens p ts = .ok prog) : ∃ l, prog.listing p = .ok l ∧ Closed p prog l := by
  have hprog : prog.Checked p := Program.checked_of_ofTokens h
  have hl := hprog.listing_eq
  have hlabels := hprog.labels_listing hl
  refine ⟨_, hl, hprog.labels_nodup hl, hlabels, ?_, fun d => hprog.mem_emitted_iff, ?_, ?_⟩
  -- The entry is emitted first, so that its label is the first one of the listing.
  · obtain ⟨entry, -, hname, hemitted⟩ := hprog.emitted_eq
    have hlabel : p.label entry.name = p.startLabel := if_pos hname
    refine ⟨entry, prog.others p, p.header.map .directive ++ [.blank],
      (prog.others p).flatMap (fun d => .blank :: d.code p) ++ Program.trailer p, hemitted, hname,
      ?_, ?_⟩
    · simp [Program.blocks, hemitted, Decl.code, hlabel]
    · rw [Listing.labels_append, labels_directives]
      rfl
  · intro d hd before c after hbody
    obtain ⟨front, back, hcode⟩ := hprog.code_mem_listing hl hd
    have hc : c ∈ d.calls := by simp [Decl.calls, hbody]
    refine ⟨front, _, p.callItem c, after.flatMap (Stmt.code p) ++ p.exitCode d.name ++ back, ?_, rfl,
      hprog.calledBy_callItem hl hd hc⟩
    rw [hcode]
    simp [Decl.code, Decl.bodyCode, hbody, Stmt.code]
  · intro d hd
    obtain ⟨front, back, hcode⟩ := hprog.code_mem_listing hl hd
    obtain ⟨i, hi, hrow⟩ := Program.Checked.symbols_row (p := p) (hprog.emitted_subset hd)
    exact ⟨i, p.label d.name, front, back, hi, hrow, hcode⟩

/-- The sample: one function is left out, one is raw, and a routine is called. -/
theorem listing_closed_sample : ∃ ts prog l, sampleSource.lex = .ok ts ∧
    Program.ofTokens sampleProfile ts = .ok prog ∧ prog.listing sampleProfile = .ok l ∧
    Closed sampleProfile prog l := by
  obtain ⟨ts, prog, hlex, hprog⟩ := sample_read
  obtain ⟨l, hl, hclosed⟩ := listing_closed sampleProfile ts prog hprog
  exact ⟨ts, prog, l, hlex, hprog, hl, hclosed⟩

end Pocket

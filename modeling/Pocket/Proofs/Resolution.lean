import Pocket.Proofs.Readers
import Pocket.Proofs.Trees

/-!
# Entering and resolving

What the two passes over the declarations of a program do. The first enters every function into the
table; it succeeds exactly if names and labels do not collide. The second resolves the calls one after
the other; it succeeds exactly if every called name is known, and changes nothing but the targets of the
calls.
-/

namespace Pocket

open Pocket.Parser

/-- The label of a function is not the one that is reserved for the entry. -/
def Decl.LabelFree (p : Profile) (d : Decl) : Prop :=
  d.name ≠ p.entry → p.labelPrefix ++ d.name ≠ p.startLabel

namespace DeclTable

variable {t t' : DeclTable}

/-- The names of the declared functions. -/
def names (t : DeclTable) : List Text :=
  t.decls.map (·.name)

theorem isSome_lookup? {name : Text} : (t.lookup? name).isSome = true ↔ name ∈ t.names := by
  simp [lookup?, names]

theorem not_isNone_lookup? {name : Text} : ¬(t.lookup? name).isNone = true ↔ name ∈ t.names := by
  rw [← isSome_lookup?]
  cases t.lookup? name <;> simp

/-! ### Entering functions -/

/-- Enters functions one after the other. -/
def enter (t : DeclTable) (ds : List Decl) : Except Fault DeclTable :=
  ds.foldlM declare t

theorem declare_eq_ok_iff {d : Decl} :
    t.declare d = .ok t' ↔
      d.name ∉ t.names ∧ d.LabelFree t.profile ∧ t' = { t with decls := t.decls ++ [d] } := by
  have hlabel : d.LabelFree t.profile ↔
      ¬(d.name ≠ t.profile.entry ∧ t.profile.label d.name = t.profile.startLabel) := by
    unfold Decl.LabelFree Profile.label
    by_cases he : d.name = t.profile.entry <;> simp [he]
  unfold declare
  cases hl : t.lookup? d.name with
  | some first =>
    have hn : d.name ∈ t.names := isSome_lookup?.mp (by rw [hl]; rfl)
    simp [hn]
  | none =>
    have hn : d.name ∉ t.names := fun hn => by
      have := isSome_lookup?.mpr hn
      rw [hl] at this
      cases this
    rw [hlabel]
    dsimp only
    split
    · next h => simp [h]
    · next h =>
      constructor
      · exact fun he => ⟨hn, h, (Except.ok.inj he).symm⟩
      · rintro ⟨_, _, he⟩
        rw [he]

theorem enter_eq_ok_iff {ds : List Decl} :
    t.enter ds = .ok t' ↔
      (ds.map (·.name)).Nodup ∧ (∀ d ∈ ds, d.name ∉ t.names) ∧
        (∀ d ∈ ds, d.LabelFree t.profile) ∧ t' = { t with decls := t.decls ++ ds } := by
  induction ds generalizing t with
  | nil => simp [enter, pure, Except.pure, eq_comm]
  | cons d ds ih =>
    rw [enter, List.foldlM_cons, bind_eq_ok_iff]
    constructor
    · rintro ⟨t₁, h₁, h₂⟩
      obtain ⟨hname, hlabel, rfl⟩ := declare_eq_ok_iff.mp h₁
      obtain ⟨hnodup, hnames, hlabels, rfl⟩ := ih.mp h₂
      -- The names that come later are compared with the one that has just been entered, too.
      have hnew : ∀ d' ∈ ds, d'.name ∉ t.names ∧ d'.name ≠ d.name := by
        intro d' hd'
        have := hnames d' hd'
        simpa [names] using this
      refine ⟨?_, ?_, ?_, by simp⟩
      · rw [List.map_cons, List.nodup_cons]
        refine ⟨?_, hnodup⟩
        intro hd
        obtain ⟨d', hd', heq⟩ := List.mem_map.mp hd
        exact (hnew d' hd').2 heq
      · intro d' hd'
        rcases List.mem_cons.mp hd' with rfl | hd'
        · exact hname
        · exact (hnew d' hd').1
      · intro d' hd'
        rcases List.mem_cons.mp hd' with rfl | hd'
        · exact hlabel
        · exact hlabels d' hd'
    · rintro ⟨hnodup, hnames, hlabels, rfl⟩
      rw [List.map_cons, List.nodup_cons] at hnodup
      refine ⟨{ t with decls := t.decls ++ [d] }, declare_eq_ok_iff.mpr
        ⟨hnames d List.mem_cons_self, hlabels d List.mem_cons_self, rfl⟩,
        ih.mpr ⟨hnodup.2, ?_, ?_, by simp⟩⟩
      · intro d' hd' hmem
        rw [names, List.map_append, List.mem_append] at hmem
        rcases hmem with hmem | hmem
        · exact hnames d' (List.mem_cons_of_mem _ hd') hmem
        · have : d'.name = d.name := by simpa using hmem
          exact hnodup.1 (List.mem_map.mpr ⟨d', hd', this⟩)
      · exact fun d' hd' => hlabels d' (List.mem_cons_of_mem _ hd')

/-! ### Resolving names -/

/-- A name stands for something: a declared function or a routine of the system. -/
def Known (t : DeclTable) (name : Text) : Prop :=
  name ∈ t.names ∨ t.profile.isExternal name = true

theorem resolve_ok {name : Text} {pos : Position} {b : Binding}
    (h : t.resolve name pos = .ok (b, t')) :
    t.Known name ∧ b = (if name ∈ t.names then .declared else .external) ∧
      ∃ called, t' = { t with externals := called } := by
  unfold resolve at h
  split at h
  · next hl =>
    cases h
    have hn := isSome_lookup?.mp hl
    exact ⟨Or.inl hn, (if_pos hn).symm, t.externals, rfl⟩
  · next hl =>
    have hn : name ∉ t.names := fun hn => hl (isSome_lookup?.mpr hn)
    split at h
    · next he =>
      cases h
      refine ⟨Or.inr he, (if_neg hn).symm, ?_⟩
      split
      · exact ⟨t.externals, rfl⟩
      · exact ⟨_, rfl⟩
    · cases h

theorem resolve_known {name : Text} (pos : Position) (h : t.Known name) :
    ∃ b t', t.resolve name pos = .ok (b, t') := by
  unfold resolve
  split
  · exact ⟨_, _, rfl⟩
  · next hl =>
    rcases h with hn | he
    · exact absurd (isSome_lookup?.mpr hn) hl
    · rw [if_pos he]
      exact ⟨_, _, rfl⟩

/-! ### Resolving calls one after the other -/

section ResolveAll

variable {c : Call} {b : Binding} {calls more : List Call}

/-- Resolves calls one after the other. -/
def resolveAll (t : DeclTable) : List Call → Except Fault DeclTable
  | [] => .ok t
  | c :: calls => do
    let (_, t) ← t.resolve c.callee c.pos
    t.resolveAll calls

theorem resolveAll_cons (h : t.resolve c.callee c.pos = .ok (b, t')) :
    t.resolveAll (c :: calls) = t'.resolveAll calls := by
  rw [resolveAll, h]
  rfl

theorem resolveAll_cons_error {fault : Fault} (h : t.resolve c.callee c.pos = .error fault) :
    t.resolveAll (c :: calls) = .error fault := by
  rw [resolveAll, h]
  rfl

theorem resolveAll_append :
    t.resolveAll (calls ++ more) = t.resolveAll calls >>= (·.resolveAll more) := by
  induction calls generalizing t with
  | nil => rfl
  | cons c calls ih =>
    rw [List.cons_append]
    cases h : t.resolve c.callee c.pos with
    | error fault =>
      rw [resolveAll_cons_error h, resolveAll_cons_error h]
      rfl
    | ok r => rw [resolveAll_cons h, resolveAll_cons h, ih]

/-- Resolving calls only adds to the routines that were called. -/
theorem resolveAll_ok (h : t.resolveAll calls = .ok t') :
    (∀ c ∈ calls, t.Known c.callee) ∧ ∃ called, t' = { t with externals := called } := by
  induction calls generalizing t with
  | nil =>
    cases h
    exact ⟨by simp, _, rfl⟩
  | cons c calls ih =>
    obtain ⟨⟨b, t₁⟩, h₁, h⟩ := bind_eq_ok_iff.mp h
    obtain ⟨hknown, -, called, rfl⟩ := resolve_ok h₁
    obtain ⟨hcalls, called', rfl⟩ := ih h
    exact ⟨List.forall_mem_cons.mpr ⟨hknown, hcalls⟩, called', rfl⟩

theorem resolveAll_known (h : ∀ c ∈ calls, t.Known c.callee) : ∃ t', t.resolveAll calls = .ok t' := by
  induction calls generalizing t with
  | nil => exact ⟨t, rfl⟩
  | cons c calls ih =>
    obtain ⟨hc, hcalls⟩ := List.forall_mem_cons.mp h
    obtain ⟨b, t₁, h₁⟩ := resolve_known c.pos hc
    obtain ⟨-, -, called, rfl⟩ := resolve_ok h₁
    rw [resolveAll_cons h₁]
    exact ih hcalls

end ResolveAll

end DeclTable

/-- Resolving statements resolves their calls, and binds them. -/
theorem resolveStmts_eq (t : DeclTable) (ss : List Stmt) :
    resolveStmts t ss =
      (t.resolveAll (ss.filterMap Stmt.call?)).map fun t' => (ss.map (Stmt.bind t.names), t') := by
  induction ss generalizing t with
  | nil => rfl
  | cons s ss ih =>
    cases s with
    | call c =>
      change _ = (t.resolveAll (c :: ss.filterMap Stmt.call?)).map _
      cases h : t.resolve c.callee c.pos with
      | error fault =>
        rw [resolveStmts, DeclTable.resolveAll_cons_error h, h]
        rfl
      | ok r =>
        obtain ⟨b, t₁⟩ := r
        rw [resolveStmts, DeclTable.resolveAll_cons h, h]
        obtain ⟨-, rfl, called, rfl⟩ := DeclTable.resolve_ok h
        change (resolveStmts _ ss >>= _) = _
        rw [ih]
        cases DeclTable.resolveAll _ (ss.filterMap Stmt.call?) <;> rfl
    | expr e v pos =>
      change (resolveStmts t ss >>= _) = (t.resolveAll (ss.filterMap Stmt.call?)).map _
      rw [ih]
      cases DeclTable.resolveAll _ (ss.filterMap Stmt.call?) <;> rfl

/-- Resolving functions resolves their calls in source order, and binds them. -/
theorem resolveDecls_eq (t : DeclTable) (ds : List Decl) :
    resolveDecls t ds =
      (t.resolveAll (ds.flatMap Decl.calls)).map fun t' => (ds.map (Decl.bind t.names), t') := by
  induction ds generalizing t with
  | nil => rfl
  | cons d ds ih =>
    rw [resolveDecls, List.flatMap_cons, DeclTable.resolveAll_append]
    cases hb : d.body with
    | stmts ss =>
      have hcalls : d.calls = ss.filterMap Stmt.call? := by
        rw [Decl.calls_eq_filterMap, Decl.stmts, hb]
      dsimp only
      rw [hcalls, resolveStmts_eq]
      cases h : t.resolveAll (ss.filterMap Stmt.call?) with
      | error fault => rfl
      | ok t₁ =>
        obtain ⟨-, called, rfl⟩ := DeclTable.resolveAll_ok h
        change (resolveDecls _ ds >>= _) = (DeclTable.resolveAll _ (ds.flatMap Decl.calls)).map _
        rw [ih, List.map_cons, Decl.bind, hb]
        cases DeclTable.resolveAll _ (ds.flatMap Decl.calls) <;> rfl
    | asm text pos =>
      have hcalls : d.calls = [] := by
        rw [Decl.calls, hb]
      dsimp only
      rw [hcalls, ih, List.map_cons, Decl.bind, hb]
      change _ = (t.resolveAll (ds.flatMap Decl.calls)).map _
      cases t.resolveAll (ds.flatMap Decl.calls) <;> rfl

theorem resolveDecls_ok {ds ds' : List Decl} {t t' : DeclTable}
    (h : resolveDecls t ds = .ok (ds', t')) :
    (∀ d ∈ ds, ∀ c ∈ d.calls, t.Known c.callee) ∧ ds' = ds.map (Decl.bind t.names) ∧
      ∃ called, t' = { t with externals := called } := by
  rw [resolveDecls_eq] at h
  cases hall : t.resolveAll (ds.flatMap Decl.calls) with
  | error fault =>
    rw [hall] at h
    cases h
  | ok t₁ =>
    rw [hall] at h
    cases h
    obtain ⟨hknown, hcalled⟩ := DeclTable.resolveAll_ok hall
    exact ⟨fun d hd c hc => hknown c (List.mem_flatMap.mpr ⟨d, hd, hc⟩), rfl, hcalled⟩

theorem resolveDecls_known {ds : List Decl} {t : DeclTable}
    (h : ∀ d ∈ ds, ∀ c ∈ d.calls, t.Known c.callee) :
    ∃ ds' t', resolveDecls t ds = .ok (ds', t') := by
  have hknown : ∀ c ∈ ds.flatMap Decl.calls, t.Known c.callee := by
    intro c hc
    obtain ⟨d, hd, hc⟩ := List.mem_flatMap.mp hc
    exact h d hd c hc
  obtain ⟨t', hall⟩ := DeclTable.resolveAll_known hknown
  rw [resolveDecls_eq, hall]
  exact ⟨_, t', rfl⟩

end Pocket

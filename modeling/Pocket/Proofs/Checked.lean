import Pocket.Proofs.Grammatical

/-!
# Programs that were read

What every later stage may rely on once a program has been read under a profile.
-/

namespace Pocket

namespace Grammar

theorem Sequence.forall_mem {α : Type} {Form : List Token → α → Prop} {ts : List Token} {xs : List α}
    (h : Sequence Form ts xs) : ∀ x ∈ xs, ∃ us, us ⊆ ts ∧ Form us x := by
  induction h with
  | nil => simp
  | @cons ts us x xs hx _ ih =>
    intro y hy
    rcases List.mem_cons.mp hy with rfl | hy
    · exact ⟨ts, List.subset_append_left ts us, hx⟩
    · obtain ⟨vs, hvs, hform⟩ := ih y hy
      exact ⟨vs, List.subset_append_of_subset_right ts hvs, hform⟩

/-- The statements of a function come from its tokens. -/
theorem Declaration.forall_mem_stmts {ts : List Token} {d : Decl} (h : Declaration ts d) :
    ∀ s ∈ d.stmts, ∃ us, us ⊆ ts ∧ Statement us s := by
  cases h with
  | @function type name lparen rparen lbrace rbrace params ts b _ _ _ _ _ _ _ hbody =>
    cases hbody with
    | asm => exact fun s hs => by cases hs
    | stmts hss =>
      intro s hs
      obtain ⟨us, hus, hform⟩ := hss.forall_mem s hs
      refine ⟨us, fun t ht => ?_, hform⟩
      simp [hus ht]

theorem Statement.value_eq {ts : List Token} {s : Stmt} (h : Statement ts s) {e : Expr}
    (he : s.expr? = some e) : s.value = e.value := by
  cases h <;> cases he
  · rfl
  · rfl

theorem Declaration.value_eq {ts : List Token} {d : Decl} (h : Declaration ts d) {s : Stmt}
    (hs : s ∈ d.stmts) {e : Expr} (he : s.expr? = some e) : s.value = e.value := by
  obtain ⟨us, -, hform⟩ := h.forall_mem_stmts s hs
  exact hform.value_eq he

end Grammar

namespace Program

variable {p : Profile} {prog : Program}

/-- The names of the functions of a program. -/
def names (prog : Program) : List Text :=
  prog.decls.map (·.name)

/-- What holds of a program that was read under a profile: the table has its functions, these have
names and labels of their own, there is an entry, every call is bound to a function or a routine, and
every statement carries the value of its expression. -/
structure Checked (p : Profile) (prog : Program) : Prop where
  table : prog.table.decls = prog.decls
  names : prog.names.Nodup
  labels : ∀ d ∈ prog.decls, d.name ≠ p.entry → p.labelPrefix ++ d.name ≠ p.startLabel
  entry : p.entry ∈ prog.names
  calls : ∀ d ∈ prog.decls, ∀ c ∈ d.calls,
    (c.target = .declared ∧ c.callee ∈ prog.names) ∨ (c.target = .external ∧ c.callee ∉ prog.names)
  values : ∀ d ∈ prog.decls, ∀ s ∈ d.stmts, ∀ e, s.expr? = some e → e.fold = .ok s.value

theorem checked_of_ofTokens {ts : List Token} (h : Program.ofTokens p ts = .ok prog) :
    prog.Checked p := by
  obtain ⟨used, ds, rest, -, -, hseq, -, hacc, hdecls, called, htable⟩ := Grammar.ofTokens_sound h
  have hnames : prog.names = ds.map (·.name) := by
    rw [names, hdecls, List.map_map]
    exact List.map_congr_left fun d _ => Decl.name_bind _ d
  refine ⟨by rw [htable], hnames ▸ hacc.names, ?_, hnames ▸ hacc.entry, ?_, ?_⟩
  · rw [hdecls, List.forall_mem_map]
    intro d hd
    rw [Decl.name_bind]
    exact hacc.labels d hd
  · rw [hdecls, List.forall_mem_map]
    intro d hd
    rw [Decl.calls_bind, List.forall_mem_map]
    intro c hc
    rw [hnames]
    by_cases hmem : c.callee ∈ ds.map (·.name)
    · exact .inl ⟨if_pos hmem, hmem⟩
    · exact .inr ⟨if_neg hmem, hmem⟩
  -- The value of a statement was folded from its expression, and binding its calls does not change it.
  · rw [hdecls, List.forall_mem_map]
    intro d hd
    rw [Decl.stmts_bind, List.forall_mem_map]
    intro s hs e he
    rw [Stmt.expr?_bind] at he
    obtain ⟨v, hv⟩ := hacc.values d hd e (List.mem_filterMap.mpr ⟨s, hs, he⟩)
    obtain ⟨us, -, hform⟩ := hseq.forall_mem d hd
    rw [Stmt.value_bind, hform.value_eq hs he, Expr.value_of_fold hv, hv]

end Program

end Pocket

import Mathlib
import Pocket.Proofs.Grammatical

/-!
# What calls are bound to

Once the declarations are entered, the calls are resolved one after the other in source order. The
first one that names neither a declared function nor a routine of the system is refused. If there is
none, every call is bound, a declared function coming before a routine, and the table holds the name
of every called routine together with the place of its first call.
-/

namespace Pocket

open Pocket.Parser

/-! ### The order of names -/

namespace Text

theorem before_iff_lt {a b : Text} : a.before b = true ↔ a < b := by
  induction a generalizing b with
  | nil => cases b <;> simp [before]
  | cons x a ih =>
    cases b with
    | nil => simp [before]
    | cons y b => simp [before, ih, List.cons_lt_cons_iff]

theorem sorted_sort (ts : List Text) : (sort ts).Pairwise (· ≤ ·) := by
  have hle : ∀ a b : Text, (!before b a) = true ↔ a ≤ b := by
    intro a b
    rw [Bool.not_eq_true', ← Bool.not_eq_true, before_iff_lt, List.not_lt]
  refine (List.pairwise_mergeSort (fun a b c => ?_) (fun a b => ?_) ts).imp (hle _ _).mp
  · rw [hle, hle, hle]
    exact List.le_trans
  · rw [Bool.or_eq_true, hle, hle]
    exact List.le_total a b

theorem mem_sort {t : Text} {ts : List Text} : t ∈ sort ts ↔ t ∈ ts :=
  (List.mergeSort_perm _ _).mem_iff

theorem sort_eq_nil_iff {ts : List Text} : sort ts = [] ↔ ts = [] := by
  rw [← List.length_eq_zero_iff, ← List.length_eq_zero_iff, sort, List.length_mergeSort]

/-- Distinct texts in order are in strict order. -/
theorem sort_ascending {ts : List Text} (h : ts.Nodup) : (sort ts).Pairwise (before · · = true) := by
  have hdistinct : (sort ts).Nodup := (List.mergeSort_perm _ _).nodup_iff.mpr h
  refine (sorted_sort ts).imp₂ (fun a b hle hne => ?_) hdistinct
  rw [before_iff_lt, ← List.not_le]
  intro hge
  exact hne (List.le_antisymm hle hge)

end Text

/-! ### The calls of a program, one after the other -/

namespace DeclTable

variable {t t' : DeclTable} {c : Call} {b : Binding} {before after calls : List Call}

/-- The routines called so far, after one more call. -/
theorem resolve_externals {name : Text} {pos : Position}
    (h : t.resolve name pos = .ok (b, t')) :
    t'.externals = if name ∈ t.names ∨ (t.externals.lookup name).isSome then t.externals
      else t.externals ++ [(name, pos)] := by
  unfold resolve at h
  split at h
  · next hname =>
    cases h
    rw [if_pos (.inl (isSome_lookup?.mp hname))]
  · next hname =>
    have hname : name ∉ t.names := fun hn => hname (isSome_lookup?.mpr hn)
    split at h
    · cases h
      split <;> simp_all
    · cases h

/-- The routines in a list are those that some calls reach, each once and with its first call. -/
structure Collects (names : List Text) (calls : List Call) (externals : List (Text × Position)) :
    Prop where
  distinct : (externals.map (·.1)).Nodup
  lookup : ∀ name, externals.lookup name =
    if name ∈ names then none else (calls.find? (·.callee = name)).map (·.pos)

section Collects

variable {names : List Text} {externals : List (Text × Position)} {name : Text}

theorem Collects.first (h : Collects names calls externals) (hname : name ∈ externals.map (·.1)) :
    name ∉ names ∧ ∃ c, calls.find? (·.callee = name) = some c ∧ externals.lookup name = some c.pos := by
  have hsome : externals.lookup name ≠ none := by
    obtain ⟨entry, hentry, rfl⟩ := List.mem_map.mp hname
    intro hnone
    simpa using List.lookup_eq_none_iff.mp hnone entry hentry
  have hlookup := h.lookup name
  split at hlookup
  · exact absurd hlookup hsome
  · next hnew =>
    cases hfirst : calls.find? (·.callee = name) with
    | none => exact absurd (by rw [hlookup, hfirst]; rfl) hsome
    | some c => exact ⟨hnew, c, rfl, by rw [hlookup, hfirst]; rfl⟩

theorem Collects.mem_iff (h : Collects names calls externals) :
    name ∈ externals.map (·.1) ↔ name ∉ names ∧ ∃ c ∈ calls, c.callee = name := by
  constructor
  · intro hname
    obtain ⟨hnew, c, hfirst, -⟩ := h.first hname
    exact ⟨hnew, c, List.mem_of_find?_eq_some hfirst, by simpa using List.find?_some hfirst⟩
  · rintro ⟨hnew, c, hc, rfl⟩
    refine Decidable.byContradiction fun hname => ?_
    have hnone : externals.lookup c.callee = none := by
      refine List.lookup_eq_none_iff.mpr fun entry hentry => ?_
      simpa using fun heq => hname (List.mem_map.mpr ⟨entry, hentry, heq.symm⟩)
    rw [h.lookup, if_neg hnew, Option.map_eq_none_iff, List.find?_eq_none] at hnone
    exact hnone c hc (by simp)

end Collects

theorem Collects.resolve {done : List Call} (h : Collects t.names done t.externals)
    (hc : t.resolve c.callee c.pos = .ok (b, t')) : Collects t.names (done ++ [c]) t'.externals := by
  rw [resolve_externals hc]
  split
  -- The name is declared or was called before, so the first call is still the same.
  · next hold =>
    refine ⟨h.distinct, fun name => ?_⟩
    rw [h.lookup name, List.find?_append]
    by_cases hname : c.callee = name
    · subst hname
      rw [h.lookup] at hold
      rcases hold with hdeclared | hcalled
      · rw [if_pos hdeclared, if_pos hdeclared]
      · cases hfirst : done.find? (·.callee = c.callee) <;> simp_all
    · simp [hname]
  -- The name is new, so this call is the first one of its routine.
  · next hnew =>
    obtain ⟨hdeclared, hcalled⟩ := not_or.mp hnew
    rw [Option.not_isSome_iff_eq_none] at hcalled
    refine ⟨?_, fun name => ?_⟩
    · rw [List.map_append, List.nodup_append]
      refine ⟨h.distinct, by simp, ?_⟩
      rintro name hname last hlast rfl
      obtain ⟨entry, hentry, rfl⟩ := List.mem_map.mp hname
      rw [List.lookup_eq_none_iff] at hcalled
      have hne := hcalled entry hentry
      simp_all
    · rw [List.lookup_append, h.lookup name, List.find?_append]
      by_cases hname : c.callee = name
      · subst hname
        rw [h.lookup, if_neg hdeclared, Option.map_eq_none_iff] at hcalled
        simp [hdeclared, hcalled]
      · have hlast : [(c.callee, c.pos)].lookup name = none := by
          simp [List.lookup_eq_none_iff, Ne.symm hname]
        simp [hname, hlast]

end DeclTable

/-! ### Where the calls stand -/

/-- A called name and its place. -/
def Call.site (c : Call) : Text × Position :=
  (c.callee, c.pos)

/-- The called names among tokens that stand behind a token of the kind `prev`: a name in front of an
opening parenthesis is called, unless a type stands before it. -/
def callSites (prev : Token.Kind) : List Token → List (Text × Position)
  | [] => []
  | t :: ts =>
    if t.kind = .identifier ∧ prev.isType = false ∧ ts.head?.map (·.kind) = some .leftParen then
      (t.lexeme, t.pos) :: callSites t.kind ts
    else callSites t.kind ts

namespace Grammar

variable {k : Token.Kind} {ts rest : List Token}

theorem callSites_cons {t : Token} (ht : t.kind ≠ .identifier) :
    callSites k (t :: ts) = callSites t.kind ts := by
  simp [callSites, ht]

/-- Nothing is called by tokens that are no names. -/
theorem callSites_skip {t : Token} (hts : ∀ u ∈ ts, u.kind ≠ .identifier) (ht : t.kind ≠ .identifier) :
    callSites k (ts ++ t :: rest) = callSites t.kind rest := by
  induction ts generalizing k with
  | nil => exact callSites_cons ht
  | cons u ts ih =>
    obtain ⟨hu, hts⟩ := List.forall_mem_cons.mp hts
    rw [List.cons_append, callSites_cons hu, ih hts]

theorem Expression.no_identifier {l : Level} {e : Expr} (h : Expression l ts e) :
    ∀ t ∈ ts, t.kind ≠ .identifier := by
  induction h with
  | tighter hm h ih => exact ih
  | @join l m left right op a b hm hop hleft hright ihl ihr =>
    have hkind : op.kind ≠ .identifier := by
      intro hkind
      rw [hkind] at hop
      cases l <;> simp [Level.operators] at hop
    simpa [or_imp, forall_and, hkind] using ⟨ihl, ihr⟩
  | @sign op ts e hop h ih =>
    have hkind : op.kind ≠ .identifier := by
      intro hkind
      simp [hkind, signs] at hop
    simpa [hkind] using ih
  | literal ht => simp [ht]
  | parens hl hr h ih => simpa [or_imp, forall_and, hl, hr] using ih

theorem Statement.callSites_eq {s : Stmt} (h : Statement ts s) (hk : k.isType = false) :
    callSites k (ts ++ rest) = (s.call?.map Call.site).toList ++ callSites .semicolon rest := by
  cases h with
  | call hname hl hr hs => simp [callSites, hname, hl, hr, hs, hk, Stmt.call?, Call.site]
  | @callWith name lparen rparen semi ts e hname hl hr hs he =>
    have hargument : callSites .leftParen (ts ++ rparen :: semi :: rest) = callSites .semicolon rest := by
      rw [callSites_skip he.no_identifier (by simp [hr]), callSites_cons (by simp [hs]), hs]
    simp [callSites, hname, hl, hk, hargument, Stmt.call?, Call.site]
  | @expr first semi ts e hs he =>
    rw [List.append_assoc, List.singleton_append, callSites_skip he.no_identifier (by simp [hs]), hs]
    rfl

theorem Sequence.callSites_statements {ss : List Stmt} (h : Sequence Statement ts ss) {t : Token}
    (ht : t.kind ≠ .identifier) (hk : k.isType = false) :
    callSites k (ts ++ t :: rest) = (ss.filterMap Stmt.call?).map Call.site ++ callSites t.kind rest := by
  induction h generalizing k with
  | nil => exact callSites_cons ht
  | @cons ts us s ss hs h ih =>
    rw [List.append_assoc, hs.callSites_eq hk, ih rfl]
    cases hc : s.call? <;> simp [hc]

theorem FunctionBody.callSites_eq {d : Decl} (h : FunctionBody ts d.body) {t : Token}
    (ht : t.kind ≠ .identifier) (hk : k.isType = false) :
    callSites k (ts ++ t :: rest) = d.calls.map Call.site ++ callSites t.kind rest := by
  rw [Decl.calls_eq_filterMap, Decl.stmts]
  generalize d.body = b at h
  cases h with
  | asm hkey hl htext hr hs =>
    refine callSites_skip (fun u hu => ?_) ht
    rcases hs with rfl | ⟨semi, hs, rfl⟩
    · simp only [List.mem_cons, List.not_mem_nil, or_false] at hu
      rcases hu with rfl | rfl | rfl | rfl <;> simp [hkey, hl, htext, hr]
    · simp only [List.mem_cons, List.not_mem_nil, or_false] at hu
      rcases hu with rfl | rfl | rfl | rfl | rfl <;> simp [hkey, hl, htext, hr, hs]
  | stmts hss => exact hss.callSites_statements ht hk

theorem Declaration.callSites_eq {d : Decl} (h : Declaration ts d) :
    callSites k (ts ++ rest) = d.calls.map Call.site ++ callSites .rightBrace rest := by
  cases h with
  | @function type name lparen rparen lbrace rbrace params ts b htype hname hl hparams hr hlb hrb hb =>
    have hbody : callSites .leftBrace (ts ++ rbrace :: rest) = _ :=
      FunctionBody.callSites_eq (d := ⟨name.lexeme, type.lexeme, b, name.pos⟩) hb (by simp [hrb]) rfl
    have htype' : type.kind ≠ .identifier ∧ type.kind.isType = true :=
      ⟨by rintro heq; simp [heq] at htype, isType_iff.mpr htype⟩
    rw [hrb] at hbody
    rw [← hbody]
    rcases hparams with rfl | ⟨v, hv, rfl⟩ <;>
      simp [callSites, *]

end Grammar

/-! ### Binding the calls of a program -/

/-- The calls of the declared functions in source order. -/
def DeclTable.calls (t : DeclTable) : List Call :=
  t.decls.flatMap Decl.calls

section

variable {p : Profile} {ts : List Token} {table : DeclTable} {last : Token} {prog : Program}

end

end Pocket

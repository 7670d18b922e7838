import Pocket.Proofs.Leftovers
import Pocket.Proofs.TokenGroups

/-!
# Reading tokens in groups

The tokens of a source come in groups, and the parser takes off whole groups only. So it never misses a
part of a block behind the keyword `asm`, and it never takes the end token: whether it accepts the tokens
or refuses them, the tokens it leaves are groups again, and these end in the end token. If it refuses
them because of a token, that token is the first that is left.
-/

namespace Pocket

open Token (Grouped)

/-- What is asked for inside the block behind the keyword `asm`. -/
def Wanted.ofBlock : List Wanted :=
  [.asmLeftBrace, .asmText, .asmRightBrace]

/-- A fault inside the block behind the keyword `asm`. -/
def Fault.InBlock : Fault → Prop
  | .parse _ (.expected what _) => what ∈ Wanted.ofBlock
  | _ => False

/-- The token that a fault names because something else was asked for there. -/
def Fault.met? : Fault → Option Token
  | .parse _ (.expected _ got) => some got
  | .parse _ (.expectedExpression got) => some got
  | .parse _ (.unknownStatement got) => some got
  | .parse _ (.expectedDeclaration got) => some got
  | _ => none

theorem Fault.not_inBlock_of_met? {fault : Fault} (h : fault.met? = none) : ¬fault.InBlock := by
  intro hblock
  unfold Fault.InBlock at hblock
  split at hblock
  · cases h
  · exact hblock

namespace Parser

variable {α β : Type} {P Q : List Token → Prop}

/-! ### Faults that are not about a token -/

/-- An outcome that blames no token. -/
def Spares : Except Fault α → Prop
  | .ok _ => True
  | .error fault => fault.met? = none

theorem Spares.bind {x : Except Fault α} {f : α → Except Fault β} (hx : Spares x) (hf : ∀ a, Spares (f a)) :
    Spares (x >>= f) := by
  cases x with
  | error fault => exact hx
  | ok a => exact hf a

theorem spares_mapError (x : Except EvalCause α) (pos : Position) : Spares (x.mapError (.eval pos)) := by
  cases x with
  | ok a => exact trivial
  | error cause => exact rfl

theorem fold_spares (e : Expr) : Spares e.fold := by
  induction e with
  | literal => exact trivial
  | unary op right pos ih =>
    rw [Expr.fold]
    cases hright : right.fold with
    | error fault => rwa [hright] at ih
    | ok v => exact spares_mapError _ pos
  | binary op left right pos ihl ihr =>
    rw [Expr.fold]
    cases hleft : left.fold with
    | error fault => rwa [hleft] at ihl
    | ok l =>
      cases hright : right.fold with
      | error fault => rwa [hright] at ihr
      | ok r => exact spares_mapError _ pos

theorem declare_spares (table : DeclTable) (d : Decl) : Spares (table.declare d) := by
  rw [DeclTable.declare]
  split
  · exact rfl
  · dsimp only
    split
    · exact rfl
    · exact trivial

theorem resolve_spares (table : DeclTable) (name : Text) (pos : Position) : Spares (table.resolve name pos) := by
  rw [DeclTable.resolve]
  split
  · exact trivial
  · split
    · exact trivial
    · exact rfl

theorem resolveStmts_spares (table : DeclTable) (ss : List Stmt) : Spares (resolveStmts table ss) := by
  induction ss generalizing table with
  | nil => exact trivial
  | cons s ss ih =>
    cases s with
    | call c => exact (resolve_spares table _ _).bind fun x => (ih x.2).bind fun _ => trivial
    | expr e value pos => exact (ih table).bind fun _ => trivial

theorem resolveDecls_spares (table : DeclTable) (ds : List Decl) : Spares (resolveDecls table ds) := by
  induction ds generalizing table with
  | nil => exact trivial
  | cons d ds ih =>
    rw [resolveDecls]
    split
    · exact (resolveStmts_spares table _).bind fun x => (ih x.2).bind fun _ => trivial
    · exact (ih table).bind fun _ => trivial

namespace Tracked

/-! ### Tokens that are left -/

/-- What is left of some tokens: the last of them, in groups. -/
def Remains (ts left : List Token) : Prop :=
  left <:+ ts ∧ Grouped left

/-- Where reading some tokens stops at a fault: outside a block, and before the token that is met. -/
structure Stops (ts : List Token) (halt : Halt) : Prop where
  left : Remains ts halt.left
  outside : ¬halt.fault.InBlock
  met : ∀ got ∈ halt.fault.met?, halt.left.head? = some got

/-- Groups are left, whatever the outcome is. -/
def Keeps (ts : List Token) : Except Halt (α × { rest : List Token // P rest }) → Prop
  | .ok x => Remains ts x.2.val
  | .error halt => Stops ts halt

variable {stop t : Token} {ts rest : List Token}

theorem remains_self (h : Grouped ts) : Remains ts ts :=
  ⟨List.suffix_refl ts, h⟩

theorem remains_tail (h : Grouped (t :: ts)) (heof : t.kind ≠ .eof) (hasm : t.kind ≠ .asm) :
    Remains (t :: ts) ts :=
  ⟨List.suffix_cons t ts, h.tail heof hasm⟩

theorem stops_at {fault : Fault} (h : Grouped (t :: ts)) (hblock : ¬fault.InBlock)
    (hmet : ∀ got ∈ fault.met?, t = got) : Stops (t :: ts) ⟨fault, t :: ts⟩ :=
  ⟨remains_self h, hblock, fun got hgot => congrArg some (hmet got hgot)⟩

theorem stops_unnamed {fault : Fault} {left : List Token} (h : Remains ts left)
    (hfault : fault.met? = none) : Stops ts ⟨fault, left⟩ :=
  ⟨h, Fault.not_inBlock_of_met? hfault, by simp [hfault]⟩

theorem Keeps.behind {x : Except Halt (α × { rest : List Token // P rest })} (h : rest <:+ ts)
    (hx : Keeps rest x) : Keeps ts x := by
  cases x with
  | ok x => exact ⟨hx.1.trans h, hx.2⟩
  | error halt => exact ⟨⟨hx.left.1.trans h, hx.left.2⟩, hx.outside, hx.met⟩

theorem Keeps.bind {x : Except Halt (α × { rest : List Token // P rest })}
    {f : α × { rest : List Token // P rest } → Except Halt (β × { rest : List Token // Q rest })}
    (hx : Keeps ts x) (hf : ∀ a rest hrest, Grouped rest → Keeps rest (f (a, ⟨rest, hrest⟩))) :
    Keeps ts (x >>= f) := by
  cases x with
  | error halt => exact hx
  | ok x =>
    obtain ⟨a, rest, hrest⟩ := x
    exact (hf a rest hrest hx.2).behind hx.1

/-- The proof that comes with the tokens left over does not matter. -/
theorem Keeps.pass {x : Except Halt (α × { rest : List Token // P rest })}
    {f : α × { rest : List Token // P rest } → Except Halt (β × { rest : List Token // Q rest })}
    (hx : Keeps ts x) (hf : ∀ a rest hrest, ∃ b hrest', f (a, ⟨rest, hrest⟩) = .ok (b, ⟨rest, hrest'⟩)) :
    Keeps ts (x >>= f) := by
  refine hx.bind fun a rest hrest hgroup => ?_
  obtain ⟨b, hrest', heq⟩ := hf a rest hrest
  rw [heq]
  exact remains_self hgroup

/-- A computation between two tokens takes none. -/
theorem keeps_leaving {x : Except Fault α} {f : α → Except Halt (β × { rest : List Token // Q rest })}
    (h : Grouped ts) (hx : Spares x) (hf : ∀ a, Keeps ts (f a)) : Keeps ts (leaving ts x >>= f) := by
  cases x with
  | error fault => exact stops_unnamed (remains_self h) hx
  | ok a => exact hf a

theorem expect_keeps {what : Wanted} (h : Grouped ts) (hwhat : what ∉ Wanted.ofBlock) :
    Keeps ts (expect stop what ts) := by
  cases ts with
  | nil => exact absurd rfl h.ne_nil
  | cons t rest =>
    rw [expect]
    split
    · next hkind =>
      refine remains_tail h ?_ ?_ <;> rw [hkind] <;> cases what <;> decide
    · exact stops_at h hwhat (by simp [Fault.met?])

theorem expect_of_kind {what : Wanted} (ht : t.kind = what.kind) :
    expect stop what (t :: rest) = .ok (t, ⟨rest, tail_cons t rest⟩) :=
  if_pos ht

/-! ### Expressions -/

theorem operators_plain {levels : List (List Token.Kind)} (h : levels <:+ operatorLevels)
    {ops : List Token.Kind} (hops : ops ∈ levels) (hkind : t.kind ∈ ops) : t.kind ≠ .eof ∧ t.kind ≠ .asm := by
  have hall : ∀ ops ∈ operatorLevels, .eof ∉ ops ∧ .asm ∉ ops := by decide
  obtain ⟨heof, hasm⟩ := hall ops (h.subset hops)
  exact ⟨fun heq => heof (heq ▸ hkind), fun heq => hasm (heq ▸ hkind)⟩

mutual

theorem primary_keeps (stop : Token) (ts : List Token) (h : Grouped ts) : Keeps ts (primary stop ts) := by
  match ts, h with
  | [], h => exact absurd rfl h.ne_nil
  | t :: rest, h =>
    rw [primary]
    split
    · next hi =>
      have hrest := remains_tail h (by simp [hi]) (by simp [hi])
      split
      · exact hrest
      · exact stops_unnamed hrest rfl
    · split
      · next hp =>
        have hrest := remains_tail h (by simp [hp]) (by simp [hp])
        refine .behind hrest.1 ?_
        refine (binary_keeps stop operatorLevels rest (List.suffix_refl _) hrest.2).bind fun e rest' _ hrest' => ?_
        exact (expect_keeps hrest' (by decide)).pass fun _ _ _ => ⟨e, _, rfl⟩
      · split
        · exact stops_unnamed (remains_self h) rfl
        · split
          · exact stops_unnamed (remains_self h) rfl
          · exact stops_at h id (by simp [Fault.met?])
termination_by (ts.length, 0)

theorem unary_keeps (stop : Token) (ts : List Token) (h : Grouped ts) : Keeps ts (unary stop ts) := by
  match ts, h with
  | [], h => exact absurd rfl h.ne_nil
  | t :: rest, h =>
    rw [unary]
    split
    · next hu =>
      have hrest : Remains (t :: rest) rest := by
        refine remains_tail h ?_ ?_ <;> intro heq <;> rw [heq] at hu <;> cases hu
      refine .behind hrest.1 ?_
      exact (unary_keeps stop rest hrest.2).pass fun e _ _ => ⟨_, _, rfl⟩
    · exact primary_keeps stop (t :: rest) h
termination_by (ts.length, 1)

theorem binary_keeps (stop : Token) (levels : List (List Token.Kind)) (ts : List Token)
    (hlevels : levels <:+ operatorLevels) (h : Grouped ts) : Keeps ts (binary stop levels ts) := by
  match levels, hlevels with
  | [], _ =>
    rw [binary]
    exact unary_keeps stop ts h
  | ops :: tighter, hlevels =>
    have htighter := (List.suffix_cons ops tighter).trans hlevels
    rw [binary]
    refine (binary_keeps stop tighter ts htighter h).bind fun left rest hless hrest => ?_
    exact (chain_keeps stop ops tighter left rest hlevels hrest).pass fun e _ _ => ⟨e, _, rfl⟩
termination_by (ts.length, levels.length + 2)

theorem chain_keeps (stop : Token) (ops : List Token.Kind) (tighter : List (List Token.Kind)) (left : Expr)
    (ts : List Token) (hlevels : ops :: tighter <:+ operatorLevels) (h : Grouped ts) :
    Keeps ts (chain stop ops tighter left ts) := by
  match ts, h with
  | [], h => exact absurd rfl h.ne_nil
  | t :: rest, h =>
    rw [chain]
    split
    · next hop =>
      obtain ⟨heof, hasm⟩ := operators_plain hlevels List.mem_cons_self (List.contains_iff_mem.mp hop)
      have hrest := remains_tail h heof hasm
      refine .behind hrest.1 ?_
      refine (binary_keeps stop tighter rest ((List.suffix_cons ops tighter).trans hlevels) hrest.2).bind
        fun right rest' hless hrest' => ?_
      exact (chain_keeps stop ops tighter _ rest' hlevels hrest').pass fun e _ _ => ⟨e, _, rfl⟩
    · exact remains_self h
termination_by (ts.length, 0)

end

theorem folded_keeps (h : Grouped ts) : Keeps ts (folded stop ts) := by
  refine (binary_keeps stop operatorLevels ts (List.suffix_refl _) h).bind fun e rest _ hrest => ?_
  exact keeps_leaving hrest (fold_spares e) fun _ => remains_self hrest

/-! ### Statements -/

theorem callRest_keeps (name : Token) (h : Grouped ts) : Keeps ts (callRest stop name ts) := by
  rw [callRest]
  split
  · refine (expect_keeps h (by decide)).bind fun _ rest _ hrest => ?_
    exact (expect_keeps hrest (by decide)).pass fun _ _ _ => ⟨_, _, rfl⟩
  · refine (folded_keeps h).bind fun x rest _ hrest => ?_
    dsimp only
    split
    · exact stops_unnamed (remains_self hrest) rfl
    · refine (expect_keeps hrest (by decide)).bind fun _ rest _ hrest => ?_
      exact (expect_keeps hrest (by decide)).pass fun _ _ _ => ⟨_, _, rfl⟩

theorem statement_keeps (h : Grouped ts) : Keeps ts (statement stop ts) := by
  cases ts with
  | nil => exact absurd rfl h.ne_nil
  | cons t rest =>
    simp only [statement]
    split
    · next hi =>
      have hrest := remains_tail h (by simp [hi]) (by simp [hi])
      cases rest with
      | nil => exact absurd rfl hrest.2.ne_nil
      | cons paren args =>
        dsimp only
        split
        · next hp =>
          have hargs := remains_tail hrest.2 (by simp [hp]) (by simp [hp])
          refine .behind hrest.1 (.behind hargs.1 ?_)
          exact (callRest_keeps t hargs.2).pass fun _ _ _ => ⟨_, _, rfl⟩
        · exact stops_at h id (by simp [Fault.met?])
    · split
      · refine (folded_keeps h).bind fun x rest _ hrest => ?_
        exact (expect_keeps hrest (by decide)).pass fun _ _ _ => ⟨_, _, rfl⟩
      · exact stops_at h id (by simp [Fault.met?])

theorem statements_keeps (name : Text) (ts : List Token) (h : Grouped ts) :
    Keeps ts (statements stop name ts) := by
  rw [statements]
  split
  · exact remains_self h
  · split
    · exact stops_unnamed (remains_self h) rfl
    · split
      · exact stops_unnamed (remains_self h) rfl
      · refine (statement_keeps h).bind fun s rest hless hrest => ?_
        exact (statements_keeps name rest hrest).pass fun _ _ _ => ⟨_, _, rfl⟩
termination_by ts.length

/-! ### Declarations -/

theorem dropSemicolon_grouped (h : Grouped ts) : Grouped (dropSemicolon ts) := by
  cases ts with
  | nil => exact h
  | cons t more =>
    rw [dropSemicolon]
    split
    · next hs => exact h.tail (by simp [hs]) (by simp [hs])
    · exact h

/-- Behind the keyword a whole block is taken: none of its parts is missing. -/
theorem asmBody_keeps {key : Token} (hkey : key.kind = .asm) (h : Grouped (key :: ts)) :
    Keeps ts (asmBody stop ts) := by
  obtain ⟨lbrace, raw, rbrace, rest, rfl, hl, hraw, hr, hrest⟩ := h.behind_asm hkey
  have hblock : rest <:+ lbrace :: raw :: rbrace :: rest := ⟨[lbrace, raw, rbrace], rfl⟩
  refine .behind hblock ?_
  rw [asmBody, expect_of_kind hl]
  change Keeps rest (expect stop .asmText (raw :: rbrace :: rest) >>= _)
  rw [expect_of_kind hraw]
  change Keeps rest (expect stop .asmRightBrace (rbrace :: rest) >>= _)
  rw [expect_of_kind hr]
  have hdrop : Remains rest (dropSemicolon rest) := ⟨dropSemicolon_suffix rest, dropSemicolon_grouped hrest⟩
  dsimp only [bind, Except.bind]
  split
  · exact hdrop
  · exact stops_unnamed hdrop rfl

theorem body_keeps (name : Text) (h : Grouped ts) : Keeps ts (body stop name ts) := by
  cases ts with
  | nil => exact absurd rfl h.ne_nil
  | cons t rest =>
    rw [body]
    split
    · next hasm =>
      refine .behind (List.suffix_cons t rest) ?_
      exact (asmBody_keeps hasm h).pass fun b _ _ => ⟨b, _, rfl⟩
    · exact (statements_keeps name (t :: rest) h).pass fun _ rest hrest => ⟨_, hrest, rfl⟩

theorem emptyParameters_grouped (h : Grouped ts) : Grouped (emptyParameters ts).val := by
  unfold emptyParameters
  split
  · split
    · next hv => exact h.tail (by simp [hv.1]) (by simp [hv.1])
    · exact h
  · exact h

theorem declaration_keeps (h : Grouped ts) : Keeps ts (declaration stop ts) := by
  cases ts with
  | nil => exact absurd rfl h.ne_nil
  | cons type rest =>
    rw [declaration]
    split
    · next htype =>
      have hrest : Remains (type :: rest) rest := by
        refine remains_tail h ?_ ?_ <;> intro heq <;> rw [heq] at htype <;> cases htype
      refine .behind hrest.1 ?_
      refine (expect_keeps hrest.2 (by decide)).bind fun name rest _ hrest => ?_
      refine (expect_keeps hrest (by decide)).bind fun _ rest _ hrest => ?_
      have hparams := emptyParameters_grouped hrest
      refine .behind (emptyParameters_suffix rest) ?_
      dsimp only
      split
      · refine (expect_keeps hparams (by decide)).bind fun _ rest _ hrest => ?_
        refine (expect_keeps hrest (by decide)).bind fun _ rest _ hrest => ?_
        refine (body_keeps name.lexeme hrest).bind fun b rest _ hrest => ?_
        exact (expect_keeps hrest (by decide)).pass fun _ _ _ => ⟨_, _, rfl⟩
      · exact stops_unnamed (remains_self hparams) rfl
    · exact stops_at h id (by simp [Fault.met?])

/-! ### Programs -/

theorem declarations_keeps (table : DeclTable) (ts : List Token) (h : Grouped ts) :
    Keeps ts (declarations stop table ts) := by
  rw [declarations]
  split
  · exact remains_self h
  · refine (declaration_keeps h).bind fun d rest hless hrest => ?_
    refine keeps_leaving hrest (declare_spares table d) fun table => ?_
    exact (declarations_keeps table rest hrest).pass fun x _ _ => ⟨x, _, rfl⟩
termination_by ts.length

/-- Declarations are read up to the end. -/
theorem declarations_ends (table : DeclTable) (ts : List Token) {x : DeclTable × Token} {left : Rest ts}
    (h : declarations stop table ts = .ok (x, left)) : (peek stop left.val).kind = .eof := by
  rw [declarations] at h
  split at h
  · next heof =>
    cases h
    exact heof
  · obtain ⟨⟨d, rest, hless⟩, -, h⟩ := bind_eq_ok_iff.mp h
    obtain ⟨table, -, h⟩ := bind_eq_ok_iff.mp h
    obtain ⟨⟨x, more⟩, hmore, h⟩ := bind_eq_ok_iff.mp h
    cases h
    exact declarations_ends table rest hmore
termination_by ts.length

theorem resolved_spares (p : Profile) (table : DeclTable) (last : Token) : Spares (resolved p table last) := by
  refine (resolveDecls_spares table table.decls).bind fun x => ?_
  dsimp only
  split
  · exact rfl
  · exact trivial

/-- However reading a program ends, groups are left. A fault does not lie inside a block, and the token
that it names is the first that is left. -/
theorem run_keeps (p : Profile) (h : Grouped ts) : Remains ts (run p ts).2 ∧
    ∀ fault, (run p ts).1 = .error fault → Stops ts ⟨fault, (run p ts).2⟩ := by
  have hkeeps : Keeps ts (declarations (stopOf ts) (.empty p) ts) := declarations_keeps (.empty p) ts h
  rw [run]
  cases hrun : declarations (stopOf ts) (.empty p) ts with
  | error halt =>
    rw [hrun] at hkeeps
    refine ⟨hkeeps.left, fun fault hfault => ?_⟩
    cases hfault
    exact hkeeps
  | ok x =>
    obtain ⟨⟨table, last⟩, left⟩ := x
    rw [hrun] at hkeeps
    refine ⟨hkeeps, fun fault hfault => stops_unnamed hkeeps ?_⟩
    have hspares := resolved_spares p table last
    rw [show resolved p table last = .error fault from hfault] at hspares
    exact hspares

/-- When a program is accepted, the end token is all that is left. -/
theorem run_accepts {p : Profile} {prog : Program} (h : Grouped ts) (hprog : (run p ts).1 = .ok prog) :
    ∃ last, (run p ts).2 = [last] ∧ last.kind = .eof := by
  have hleft := (run_keeps p h).1.2
  rw [run] at hprog hleft ⊢
  cases hrun : declarations (stopOf ts) (.empty p) ts with
  | error halt =>
    rw [hrun] at hprog
    cases hprog
  | ok x =>
    obtain ⟨⟨table, last⟩, left, hsuffix⟩ := x
    have heof := declarations_ends _ ts hrun
    rw [hrun] at hleft
    dsimp only at hleft heof ⊢
    cases hleft with
    | @stop t ht => exact ⟨t, rfl, ht⟩
    | token hne => exact absurd heof hne
    | block hkey => simp [peek, hkey] at heof

end Tracked

end Parser

end Pocket

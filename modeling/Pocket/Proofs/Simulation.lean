import Pocket.Proofs.Compiled
import Pocket.Proofs.Labels
import Pocket.Proofs.Machine

/-!
# Compilation preserves meaning

A compiled program and its listing do the same: the machine follows the run of every function at the
code that was emitted for it. By induction on how deep calls may nest, a run that returns takes the
machine from the label of the function to its return, and a run that is cut off takes it at least as
many steps as calls were nested.
-/

namespace Pocket

open Asm

/-- A profile that differs from the standard one at most in its name, the entry, the labels, the lines
around the code, the routines and the options. -/
def Profile.Variant (p : Profile) : Prop :=
  p = { Profile.standard with
    name := p.name, entry := p.entry, startLabel := p.startLabel, labelPrefix := p.labelPrefix,
    header := p.header, footer := p.footer, external := p.external, symbols := p.symbols,
    strict := p.strict, comments := p.comments, stripUnused := p.stripUnused }

namespace Execution

variable {w : World} {l : Listing} {pc : Nat} {stack : List Nat} {s : State} {p : Profile}
  {prog : Program}

/-! ### What the generated items mean -/

section Items

variable (hp : p.Variant)

include hp

theorem action_loadItem (value : Word) : action (p.loadItem value) = .load value := by
  have hitem : p.loadItem value = .instr false "ld" ["hl", value.render] := by
    rw [hp]
    rfl
  simp [hitem, action, Item.instr, Word.ofNumeral?_render]

theorem action_callItem_declared {c : Call} (h : c.target = .declared) :
    action (p.callItem c) = .call (p.label c.callee) := by
  rw [Profile.callItem, h]
  rw [hp]
  rfl

theorem action_callItem_external {c : Call} (h : c.target = .external) :
    action (p.callItem c) = .routine c.callee := by
  rw [Profile.callItem, h]
  rw [hp]
  rfl

theorem exitCode_eq (name : Text) : p.exitCode name = [.instr false "ret" []] := by
  rw [hp]
  unfold Profile.exitCode
  split
  · show Profile.standard.exit.map Profile.exitItem = _
    decide
  · rfl

theorem leaves_eq (text : Text) : p.leaves text = Profile.standard.leaves text := by
  rw [hp]
  rfl

end Items

/-! ### Code in a listing -/

/-- Some code stands in a listing from an index on. -/
def CodeAt (l : Listing) (pc : Nat) (code : Listing) : Prop :=
  code <+: l.drop pc

theorem CodeAt.head {it : Item} {code : Listing} (h : CodeAt l pc (it :: code)) :
    l[pc]? = some it := by
  obtain ⟨rest, hrest⟩ := h
  rw [← List.head?_drop, ← hrest]
  rfl

theorem CodeAt.tail {it : Item} {code : Listing} (h : CodeAt l pc (it :: code)) :
    CodeAt l (pc + 1) code := by
  obtain ⟨rest, hrest⟩ := h
  refine ⟨rest, ?_⟩
  rw [← List.tail_drop, ← hrest]
  rfl

theorem CodeAt.left {code more : Listing} (h : CodeAt l pc (code ++ more)) : CodeAt l pc code :=
  (List.prefix_append code more).trans h

theorem CodeAt.right {code more : Listing} (h : CodeAt l pc (code ++ more)) :
    CodeAt l (pc + code.length) more := by
  obtain ⟨rest, hrest⟩ := h
  refine ⟨rest, ?_⟩
  rw [← List.drop_drop, ← hrest]
  simp

/-- The label of an emitted function leads to its code. -/
theorem codeAt_label (h : prog.Checked p) (hl : prog.listing p = .ok l) {d : Decl}
    (hd : d ∈ prog.emitted p) :
    ∃ pc, labelIndex? l (p.label d.name) = some pc ∧ CodeAt l pc (d.code p) := by
  obtain ⟨front, back, hcode⟩ := h.code_mem_listing hl hd
  have hnodup := h.labels_nodup hl
  rw [hcode, Listing.labels_append, Listing.labels_append, labels_code] at hnodup
  have hfront : ∀ it ∈ front, (it == Item.label (p.label d.name)) = false := by
    intro it hit
    rw [beq_eq_false_iff_ne]
    rintro rfl
    have hmem : p.label d.name ∈ front.labels :=
      List.mem_map.mpr ⟨_, List.mem_filter.mpr ⟨hit, rfl⟩, rfl⟩
    exact (List.nodup_append.mp (List.nodup_append.mp hnodup).1).2.2 _ hmem _ (by simp) rfl
  refine ⟨front.length, ?_, ⟨back, ?_⟩⟩
  · rw [labelIndex?, hcode, List.append_assoc, List.findIdx?_append,
      List.findIdx?_eq_none_iff.mpr hfront]
    simp [Decl.code, List.findIdx?_cons]
  · simp [hcode]

/-! ### Following a run -/

/-- The machine follows a run: where the run returns, it comes to where it is to go on; where the run
is cut off, it comes as far, in no less than a given number of steps; and the run does not get
stuck. -/
def Follows (w : World) (l : Listing) (c : Config) (next : State → Config) (least : Nat) :
    Outcome → Prop
  | .done s => ∃ k, (step w l)^[k] c = next s
  | .cut s => ∃ k, least ≤ k ∧ ∃ pc stack, (step w l)^[k] c = .running pc stack s
  | .stuck _ => False

section Follows

variable {c c' : Config} {next next' : State → Config} {least : Nat} {o : Outcome}

theorem Follows.later {j : Nat} (h : Follows w l c' next least o) (hj : (step w l)^[j] c = c') :
    Follows w l c next (least + j) o := by
  cases o with
  | done s =>
    obtain ⟨k, hk⟩ := h
    exact ⟨k + j, by rw [Function.iterate_add_apply, hj, hk]⟩
  | cut s =>
    obtain ⟨k, hle, pc, stack, hk⟩ := h
    exact ⟨k + j, Nat.add_le_add_right hle j, pc, stack, by rw [Function.iterate_add_apply, hj, hk]⟩
  | stuck s => exact h

theorem Follows.after_step (h : Follows w l c' next least o) (hc : step w l c = c') :
    Follows w l c next (least + 1) o :=
  h.later (j := 1) hc

theorem Follows.weaken {more : Nat} (h : Follows w l c next more o) (hle : least ≤ more) :
    Follows w l c next least o := by
  cases o with
  | done s => exact h
  | cut s =>
    obtain ⟨k, hmore, hk⟩ := h
    exact ⟨k, Nat.le_trans hle hmore, hk⟩
  | stuck s => exact h

theorem Follows.andThen {f : State → Outcome} (h : Follows w l c next least o)
    (hf : ∀ s, Follows w l (next s) next' least (f s)) : Follows w l c next' least (o.andThen f) := by
  cases o with
  | done s =>
    obtain ⟨k, hk⟩ := h
    exact ((hf s).later hk).weaken (Nat.le_add_right least k)
  | cut s => exact h
  | stuck s => exact h

theorem Follows.goOn (h : Follows w l c next least o)
    (hnext : ∀ s, ∃ k, (step w l)^[k] (next s) = next' s) : Follows w l c next' least o := by
  cases o with
  | done s =>
    obtain ⟨j, hj⟩ := h
    obtain ⟨k, hk⟩ := hnext s
    exact ⟨k + j, by rw [Function.iterate_add_apply, hj, hk]⟩
  | cut s => exact h
  | stuck s => exact h

end Follows

/-! ### Statements -/

/-- The comment above the code of a statement. -/
def remark (p : Profile) (stmt : Stmt) : Listing :=
  if p.comments then [.comment stmt.render] else []

/-- The items that load the accumulator for a statement. -/
def loading (p : Profile) (stmt : Stmt) : Listing :=
  if stmt.expr?.isSome then [p.loadItem stmt.value] else []

/-- The items of a statement before its call. -/
def setup (p : Profile) (stmt : Stmt) : Listing :=
  remark p stmt ++ loading p stmt

theorem code_eq_setup (stmt : Stmt) :
    stmt.code p = setup p stmt ++ (stmt.call?.map p.callItem).toList := by
  cases stmt with
  | call c => rfl
  | expr e value pos => exact (List.append_nil _).symm

theorem remark_steps {stmt : Stmt} (h : CodeAt l pc (remark p stmt)) :
    ∃ k, (step w l)^[k] (.running pc stack s) =
      .running (pc + (remark p stmt).length) stack s := by
  unfold remark at h ⊢
  by_cases hc : p.comments = true
  · rw [if_pos hc] at h ⊢
    exact ⟨1, step_running w stack s h.head⟩
  · rw [if_neg hc]
    exact ⟨0, rfl⟩

theorem loading_follows (hp : p.Variant) {stmt : Stmt}
    (hvalue : ∀ e, stmt.expr? = some e → e.fold = .ok stmt.value)
    (h : CodeAt l pc (loading p stmt)) (least : Nat) :
    Follows w l (.running pc stack s) (fun s => .running (pc + (loading p stmt).length) stack s) least
      (loadExpr stmt s) := by
  cases he : stmt.expr? with
  | none =>
    simp only [loading, loadExpr, he]
    exact ⟨0, rfl⟩
  | some e =>
    simp only [loading, he] at h
    simp only [loading, loadExpr, he, hvalue e he]
    have hstep := step_running w stack s h.head
    rw [action_loadItem hp] at hstep
    exact ⟨1, hstep⟩

theorem setup_follows (hp : p.Variant) {stmt : Stmt}
    (hvalue : ∀ e, stmt.expr? = some e → e.fold = .ok stmt.value) (h : CodeAt l pc (setup p stmt))
    (least : Nat) :
    Follows w l (.running pc stack s) (fun s => .running (pc + (setup p stmt).length) stack s) least
      (loadExpr stmt s) := by
  obtain ⟨k, hk⟩ : ∃ k, (step w l)^[k] (.running pc stack s) = _ := remark_steps h.left
  rw [setup, List.length_append, ← Nat.add_assoc]
  exact ((loading_follows hp hvalue h.right least).later hk).weaken (Nat.le_add_right least k)

/-! ### Calls and functions -/

section Functions

variable (hp : p.Variant) (hprog : prog.Checked p) (hl : prog.listing p = .ok l)

/-- The machine follows the run of a function from its label to its return. -/
def FollowsFunctions (w : World) (l : Listing) (p : Profile) (prog : Program) (depth : Nat) : Prop :=
  ∀ d ∈ prog.emitted p, ∀ pc stack s, CodeAt l pc (d.code p) →
    Follows w l (.running pc stack s) (.returning stack) depth (run w prog.decls depth d.name s)

include hp hprog hl

theorem call_follows {depth : Nat} (hfunctions : FollowsFunctions w l p prog depth) {d : Decl}
    (hd : d ∈ prog.emitted p) {c : Call} (hc : c ∈ d.calls) (h : CodeAt l pc [p.callItem c]) :
    Follows w l (.running pc stack s) (fun s => .running (pc + 1) stack s) depth
      (run w prog.decls depth c.callee s) := by
  have hstep := step_running w stack s h.head
  rcases hprog.calls d (hprog.emitted_subset hd) c hc with ⟨htarget, hcallee⟩ | ⟨htarget, hcallee⟩
  · obtain ⟨callee, hmem, hname⟩ := hprog.callee_emitted hd hc hcallee
    obtain ⟨target, htarget', hcode⟩ := codeAt_label hprog hl hmem
    rw [action_callItem_declared hp htarget, ← hname] at hstep
    simp only [perform, htarget'] at hstep
    rw [← hname]
    have hcall := hfunctions callee hmem target ((pc + 1) :: stack) s hcode
    exact (hcall.after_step hstep).weaken (Nat.le_add_right depth 1)
  · cases depth with
    | zero => exact ⟨0, Nat.le_refl 0, pc, stack, rfl⟩
    | succ depth =>
      rw [action_callItem_external hp htarget] at hstep
      rw [run_routine hcallee]
      exact ⟨1, hstep⟩

theorem runStmts_follows {depth : Nat} (hfunctions : FollowsFunctions w l p prog depth) {d : Decl}
    (hd : d ∈ prog.emitted p) (stmts : List Stmt) (hstmts : ∀ stmt ∈ stmts, stmt ∈ d.stmts)
    (h : CodeAt l pc (stmts.flatMap (Stmt.code p))) :
    Follows w l (.running pc stack s)
      (fun s => .running (pc + (stmts.flatMap (Stmt.code p)).length) stack s) depth
      (runStmts (run w prog.decls depth) stmts s) := by
  induction stmts generalizing pc s with
  | nil => exact ⟨0, rfl⟩
  | cons stmt stmts ih =>
    obtain ⟨hstmt, hrest⟩ := List.forall_mem_cons.mp hstmts
    rw [List.flatMap_cons] at h ⊢
    have hvalue := hprog.values d (hprog.emitted_subset hd) stmt hstmt
    have hcode := h.left
    rw [code_eq_setup] at hcode
    rw [List.length_append, ← Nat.add_assoc]
    rw [runStmts]
    -- First the accumulator is loaded; then there is a call, or the statement is over.
    refine (setup_follows hp hvalue hcode.left depth).andThen fun s₁ => ?_
    cases hcall : stmt.call? with
    | none =>
      have hlength : (stmt.code p).length = (setup p stmt).length := by
        simp [code_eq_setup, hcall]
      rw [hlength]
      exact ih hrest (hlength ▸ h.right)
    | some c =>
      have hlength : (stmt.code p).length = (setup p stmt).length + 1 := by
        simp [code_eq_setup, hcall]
      have hc : c ∈ d.calls := by
        rw [Decl.calls_eq_filterMap]
        exact List.mem_filterMap.mpr ⟨stmt, hstmt, hcall⟩
      have hitem := hcode.right
      rw [hcall] at hitem
      rw [hlength, ← Nat.add_assoc]
      -- The callee may take any number of steps and comes back behind the call.
      refine (call_follows hp hprog hl hfunctions hd hc hitem).andThen fun s₂ => ?_
      have hcode' := h.right
      rw [hlength, ← Nat.add_assoc] at hcode'
      exact ih hrest hcode'

theorem followsFunctions (depth : Nat) : FollowsFunctions w l p prog depth := by
  induction depth with
  -- At depth zero the source is cut off before it does anything.
  | zero =>
    intro d _ pc stack s _
    exact ⟨0, Nat.le_refl 0, pc, stack, rfl⟩
  | succ depth ih =>
    intro d hd pc stack s h
    have hfound : prog.decls.find? (·.name = d.name) = some d :=
      find?_name hprog.names (hprog.emitted_subset hd)
    have hlabel := step_running w stack s h.head
    have hcode := h.tail
    -- Every function, the entry among them, ends with a return under such a profile.
    have hret : ∀ {pc s}, CodeAt l pc (p.exitCode d.name) →
        step w l (.running pc stack s) = .returning stack s := by
      intro pc s hexit
      rw [exitCode_eq hp] at hexit
      exact step_running w stack s hexit.head
    unfold Decl.bodyCode at hcode
    cases hbody : d.body with
    | stmts stmts =>
      rw [hbody] at hcode
      rw [run_stmts hfound hbody]
      have hstmts : ∀ stmt ∈ stmts, stmt ∈ d.stmts := by simp [Decl.stmts, hbody]
      have hrun : Follows w l (.running (pc + 1) stack s) _ depth _ :=
        runStmts_follows hp hprog hl ih hd stmts hstmts hcode.left
      exact (hrun.goOn fun s' => ⟨1, hret hcode.right⟩).after_step hlabel
    | asm text pos =>
      rw [hbody] at hcode
      rw [run_asm hfound hbody]
      have hraw := step_running w stack s hcode.head
      have haction : action (.raw d.name text) = .block d.name text := rfl
      rw [haction, perform] at hraw
      have hrest := hcode.tail
      rw [leaves_eq hp] at hrest
      -- A raw body may leave by itself; otherwise the code behind it returns.
      split at hraw
      · exact ⟨2, (congrArg (step w l) hlabel).trans hraw⟩
      · next hfalls =>
        rw [if_neg hfalls] at hrest
        refine ⟨3, ?_⟩
        exact (congrArg (step w l) ((congrArg (step w l) hlabel).trans hraw)).trans (hret hrest)

end Functions

/-! ### Behaviour -/

/-- Runs of ever greater depth and the steps of a machine show the same: they end in the same state or
do not end at all, the same events come up on the way, and neither gets stuck. -/
structure Agrees (source : Nat → Outcome) (machine : Nat → Config) : Prop where
  ends : ∀ s, (∃ depth, source depth = .done s) ↔ ∃ k, machine k = .halted s
  events : ∀ events, (∃ depth, events <+: (source depth).state.events) ↔
    ∃ k, events <+: (machine k).state.events
  source_safe : ∀ depth s, source depth ≠ .stuck s
  machine_safe : ∀ k s, machine k ≠ .stuck s

section Agrees

variable {c : Config} {source : Nat → Outcome}

/-- A machine that has come to its end stays there. -/
theorem iterate_of_halted {j k : Nat} (h : (step w l)^[j] c = .halted s) (hjk : j ≤ k) :
    (step w l)^[k] c = .halted s := by
  obtain ⟨i, rfl⟩ := Nat.exists_eq_add_of_le' hjk
  rw [Function.iterate_add_apply, h, iterate_halted]

theorem iterate_of_stuck {j k : Nat} (h : (step w l)^[j] c = .stuck s) (hjk : j ≤ k) :
    (step w l)^[k] c = .stuck s := by
  obtain ⟨i, rfl⟩ := Nat.exists_eq_add_of_le' hjk
  rw [Function.iterate_add_apply, h, iterate_stuck]

/-- A run deeper than the number of steps tells all about these steps: the machine ends in its state,
or it is still running later on with the state of the cut. -/
theorem follows_cases (h : ∀ depth, Follows w l c .halted depth (source depth)) (k : Nat) :
    (∃ s j, source (k + 1) = .done s ∧ (step w l)^[j] c = .halted s) ∨
    ∃ s j pc stack, source (k + 1) = .cut s ∧ k < j ∧ (step w l)^[j] c = .running pc stack s := by
  have hk := h (k + 1)
  cases ho : source (k + 1) with
  | done s =>
    rw [ho] at hk
    obtain ⟨j, hj⟩ := hk
    exact .inl ⟨s, j, rfl, hj⟩
  | cut s =>
    rw [ho] at hk
    obtain ⟨j, hle, pc, stack, hj⟩ := hk
    exact .inr ⟨s, j, pc, stack, rfl, hle, hj⟩
  | stuck s =>
    rw [ho] at hk
    exact hk.elim

theorem agrees_of_follows (h : ∀ depth, Follows w l c .halted depth (source depth)) :
    Agrees source fun k => (step w l)^[k] c := by
  -- Every depth of the source reaches a state that the machine passes, too.
  have hevents : ∀ depth, ∃ k, (source depth).state = ((step w l)^[k] c).state := by
    intro depth
    have hd := h depth
    cases ho : source depth with
    | done s =>
      rw [ho] at hd
      obtain ⟨k, hk⟩ := hd
      exact ⟨k, by rw [hk]; rfl⟩
    | cut s =>
      rw [ho] at hd
      obtain ⟨k, -, pc, stack, hk⟩ := hd
      exact ⟨k, by rw [hk]; rfl⟩
    | stuck s =>
      rw [ho] at hd
      exact hd.elim
  refine ⟨fun s => ⟨?_, ?_⟩, fun events => ⟨?_, ?_⟩, ?_, ?_⟩
  · rintro ⟨depth, ho⟩
    have hd := h depth
    rw [ho] at hd
    exact hd
  · rintro ⟨k, hk⟩
    -- The machine does not move once it has halted, so the two ends are the same.
    rcases follows_cases h k with ⟨s', j, ho, hj⟩ | ⟨s', j, pc, stack, -, hlt, hj⟩
    · have hmax := iterate_of_halted hk (Nat.le_max_left k j)
      rw [iterate_of_halted hj (Nat.le_max_right k j)] at hmax
      cases hmax
      exact ⟨k + 1, ho⟩
    -- A source that is cut would have the machine still running at a later step.
    · rw [iterate_of_halted hk (Nat.le_of_lt hlt)] at hj
      cases hj
  · rintro ⟨depth, hpre⟩
    obtain ⟨k, hk⟩ := hevents depth
    exact ⟨k, hk ▸ hpre⟩
  · rintro ⟨k, hpre⟩
    refine ⟨k + 1, hpre.trans ?_⟩
    -- With one more level of depth than steps the source has done at least as much as the machine.
    rcases follows_cases h k with ⟨s, j, ho, hj⟩ | ⟨s, j, pc, stack, ho, hlt, hj⟩
    · have hmax : ((step w l)^[k] c).state.events <+: ((step w l)^[max k j] c).state.events :=
        events_iterate c (Nat.le_max_left k j)
      rw [iterate_of_halted hj (Nat.le_max_right k j)] at hmax
      rw [ho]
      exact hmax
    · have hlater : ((step w l)^[k] c).state.events <+: ((step w l)^[j] c).state.events :=
        events_iterate c (Nat.le_of_lt hlt)
      rw [hj] at hlater
      rw [ho]
      exact hlater
  · intro depth s ho
    have hd := h depth
    rw [ho] at hd
    exact hd
  · intro k s hk
    -- A machine that is stuck would stay so, but it halts or goes on later.
    rcases follows_cases h k with ⟨s', j, -, hj⟩ | ⟨s', j, pc, stack, -, hlt, hj⟩
    · have hmax := iterate_of_stuck hk (Nat.le_max_left k j)
      rw [iterate_of_halted hj (Nat.le_max_right k j)] at hmax
      cases hmax
    · rw [iterate_of_stuck hk (Nat.le_of_lt hlt)] at hj
      cases hj

end Agrees

/-- A compiled program and its listing, which starts at the start label, behave the same, whatever the
raw blocks and routines do. -/
theorem compile_preserves_meaning (p : Profile) (source : Text) (o : Output) (hp : p.Variant)
    (h : compile p source = .ok o) (w : World) (accumulator : Word) :
    ∃ pc, labelIndex? o.listing p.startLabel = some pc ∧
      Agrees (fun depth => run w o.program.decls depth p.entry (.start accumulator))
        (fun k => (step w o.listing)^[k] (.running pc [] (.start accumulator))) := by
  obtain ⟨-, ts, -, hread, hl, -⟩ := compile_eq_ok_iff.mp h
  have hprog : o.program.Checked p := Program.checked_of_ofTokens hread
  obtain ⟨entry, -, hname, hemitted⟩ := hprog.emitted_eq
  have hentry : entry ∈ o.program.emitted p := by simp [hemitted]
  obtain ⟨pc, hpc, hcode⟩ := codeAt_label hprog hl hentry
  have hlabel : p.label entry.name = p.startLabel := if_pos hname
  refine ⟨pc, hlabel ▸ hpc, agrees_of_follows fun depth => ?_⟩
  rw [← hname]
  exact followsFunctions hp hprog hl depth entry hentry pc [] _ hcode

/-- The sample calls a raw block and a routine, which return the number of events so far. -/
theorem compile_preserves_sample : sampleProfile.Variant ∧ ∃ o pc,
    compile sampleProfile sampleSource = .ok o ∧
      labelIndex? o.listing sampleProfile.startLabel = some pc ∧
      Agrees (fun depth => run (fun events => .ofNat 16 events.length) o.program.decls depth
          sampleProfile.entry (.start 5))
        (fun k => (step (fun events => .ofNat 16 events.length) o.listing)^[k]
          (.running pc [] (.start 5))) := by
  have hp : sampleProfile.Variant := rfl
  obtain ⟨ts, prog, hlex, hprog⟩ := sample_read
  obtain ⟨o, ho, -⟩ := exists_compile_eq_ok sampleProfile_flaw hlex hprog
  obtain ⟨pc, hpc, hagrees⟩ := compile_preserves_meaning sampleProfile sampleSource o hp ho
    (fun events => .ofNat 16 events.length) 5
  exact ⟨hp, o, pc, ho, hpc, hagrees⟩

end Execution

end Pocket

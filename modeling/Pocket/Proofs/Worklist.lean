import Mathlib
import Pocket.Proofs.Compiled

/-!
# Pruning with a worklist

The functions to keep can be found with a queue: the entry is marked and queued, and each turn takes
the first name of the queue and marks and queues the unmarked functions it refers to, in any order.
Whatever the orders, the queue runs empty after at most as many turns as there are functions, and then
the marked names are the least set that holds the entry and is closed under references.
-/

namespace Pocket

/-- A function refers to the names its statements call, or to the operands in its raw body. -/
inductive Decl.RefersTo (d : Decl) : Text → Prop where
  | call {ss : List Stmt} {c : Call} (hbody : d.body = .stmts ss) (hc : .call c ∈ ss) :
      d.RefersTo c.callee
  | operand {text op : Text} {pos : Position} {line : Asm.Line} (hbody : d.body = .asm text pos)
      (hline : line ∈ Asm.readText text) (hop : op ∈ line.operands) : d.RefersTo op

theorem Decl.mem_mentions_iff {d : Decl} {name : Text} : name ∈ d.mentions ↔ d.RefersTo name := by
  constructor
  · intro hname
    unfold Decl.mentions at hname
    cases hbody : d.body with
    | stmts ss =>
      simp only [hbody, Decl.calls] at hname
      obtain ⟨c, hc, rfl⟩ := List.mem_map.mp hname
      obtain ⟨s, hs, hsc⟩ := List.mem_filterMap.mp hc
      cases s with
      | call c' =>
        cases hsc
        exact .call hbody hs
      | expr e value pos => cases hsc
    | asm text pos =>
      simp only [hbody] at hname
      obtain ⟨line, hline, hop⟩ := List.mem_flatMap.mp hname
      exact .operand hbody hline hop
  · rintro (⟨hbody, hc⟩ | ⟨hbody, hline, hop⟩)
    · simp only [Decl.mentions, Decl.calls, hbody]
      exact List.mem_map_of_mem (List.mem_filterMap.mpr ⟨_, hc, rfl⟩)
    · simp only [Decl.mentions, hbody]
      exact List.mem_flatMap.mpr ⟨_, hline, hop⟩

/-- A set of names that holds the entry, if it is declared, and with a function every declared function
it refers to. -/
structure Retains (decls : List Decl) (entry : Text) (names : Set Text) : Prop where
  entry : entry ∈ decls.map (·.name) → entry ∈ names
  references : ∀ d ∈ decls, d.name ∈ names →
    ∀ name ∈ decls.map (·.name), d.RefersTo name → name ∈ names

section Least

variable {decls : List Decl} {entry name : Text} {d : Decl}

/-- The names that can be reached from an entry among some functions. -/
def reachedNames (decls : List Decl) (entry : Text) : Set Text :=
  {name | Reachable.Reached (decls.map (·.name)) (mentionsIn decls) [entry] name}

theorem known_of_reached (h : name ∈ reachedNames decls entry) : name ∈ decls.map (·.name) := by
  cases h with
  | root _ hknown => exact hknown
  | mention _ _ hknown => exact hknown

theorem mem_mentionsIn_iff (hnames : (decls.map (·.name)).Nodup) (hd : d ∈ decls) :
    name ∈ mentionsIn decls d.name ↔ d.RefersTo name := by
  rw [mentionsIn, find?_name hnames hd]
  exact Decl.mem_mentions_iff

theorem isLeast_reachedNames (hnames : (decls.map (·.name)).Nodup) :
    IsLeast {names | Retains decls entry names} (reachedNames decls entry) := by
  refine ⟨⟨fun hentry => .root (List.mem_singleton.mpr rfl) hentry, ?_⟩, ?_⟩
  · intro d hd hreached name hname hrefers
    exact .mention hreached ((mem_mentionsIn_iff hnames hd).mpr hrefers) hname
  · intro names hretains name hname
    induction hname with
    | root hroot hknown =>
      obtain rfl := List.mem_singleton.mp hroot
      exact hretains.entry hknown
    | mention hcaller hname hknown ih =>
      obtain ⟨d, hd, rfl⟩ := List.mem_map.mp (known_of_reached hcaller)
      exact hretains.references d hd ih _ hknown ((mem_mentionsIn_iff hnames hd).mp hname)

open Classical in
theorem reachableDecls_eq_filter (decls : List Decl) (entry : Text) :
    reachableDecls decls entry = decls.filter fun d => d.name ∈ reachedNames decls entry := by
  have hstart : Reachable.Searching (decls.map (·.name)) (mentionsIn decls) [entry] [entry] [] :=
    Reachable.searching_start
  refine List.filter_congr fun d _ => Bool.eq_iff_iff.mpr ?_
  rw [List.contains_iff_mem, decide_eq_true_iff]
  exact Reachable.mem_closure_iff hstart

end Least

/-- The state of the search: names still to be looked at, and all names marked so far. -/
structure Worklist where
  queue : List Text
  marked : List Text

namespace Worklist

/-- Marks and queues a name, if it is declared and not marked yet. -/
def add (known : List Text) (w : Worklist) (name : Text) : Worklist :=
  if known.contains name && !w.marked.contains name then ⟨w.queue ++ [name], name :: w.marked⟩ else w

/-- The search before its first turn. -/
def start (decls : List Decl) (entry : Text) : Worklist :=
  add (decls.map (·.name)) ⟨[], []⟩ entry

/-- One turn: the first name leaves the queue, and the names its function refers to are added, each
once and in any order. -/
inductive Turn (decls : List Decl) : Worklist → Worklist → Prop where
  | visit {d : Decl} {queue marked calls : List Text} (hd : d ∈ decls) (hnodup : calls.Nodup)
      (hcalls : ∀ name, name ∈ calls ↔ d.RefersTo name) :
      Turn decls ⟨d.name :: queue, marked⟩ (calls.foldl (add (decls.map (·.name))) ⟨queue, marked⟩)

/-- A number of turns, one after the other. -/
inductive Turns (decls : List Decl) (first : Worklist) : Nat → Worklist → Prop where
  | none : Turns decls first 0 first
  | more {n : Nat} {w w' : Worklist} : Turns decls first n w → Turn decls w w' →
      Turns decls first (n + 1) w'

/-- The functions whose names are marked, in source order. -/
def kept (decls : List Decl) (w : Worklist) : List Decl :=
  decls.filter fun d => w.marked.contains d.name

variable {decls : List Decl} {entry name : Text} {known calls : List Text} {w w' : Worklist} {n : Nat}

/-! ### Adding names -/

/-- What adding names keeps: every queued name is marked, a marked name is declared, and no name is
marked twice. -/
structure Tidy (known : List Text) (w : Worklist) : Prop where
  queued : ∀ name ∈ w.queue, name ∈ w.marked
  declared : ∀ name ∈ w.marked, name ∈ known
  once : w.marked.Nodup

theorem add_cases (known : List Text) (w : Worklist) (name : Text) :
    (name ∈ known ∧ name ∉ w.marked ∧ w.add known name = ⟨w.queue ++ [name], name :: w.marked⟩) ∨
      ((name ∈ known → name ∈ w.marked) ∧ w.add known name = w) := by
  unfold add
  split
  · next hnew =>
    obtain ⟨hknown, hmarked⟩ : name ∈ known ∧ name ∉ w.marked := by simpa using hnew
    exact .inl ⟨hknown, hmarked, rfl⟩
  · next hold => exact .inr ⟨by simpa using hold, rfl⟩

theorem Tidy.add (h : Tidy known w) (name : Text) : Tidy known (w.add known name) := by
  rcases add_cases known w name with ⟨hknown, hmarked, heq⟩ | ⟨-, heq⟩ <;> rw [heq]
  · refine ⟨?_, ?_, List.nodup_cons.mpr ⟨hmarked, h.once⟩⟩
    · intro other hother
      rcases List.mem_append.mp hother with hother | hother
      · exact List.mem_cons_of_mem _ (h.queued other hother)
      · exact List.mem_cons.mpr (.inl (List.mem_singleton.mp hother))
    · intro other hother
      rcases List.mem_cons.mp hother with rfl | hother
      · exact hknown
      · exact h.declared other hother
  · exact h

theorem Tidy.addAll (h : Tidy known w) (calls : List Text) :
    Tidy known (calls.foldl (Worklist.add known) w) := by
  induction calls generalizing w with
  | nil => exact h
  | cons name calls ih => exact ih (h.add name)

theorem mem_marked_add {other : Text} :
    name ∈ (w.add known other).marked ↔ name ∈ w.marked ∨ (name = other ∧ name ∈ known) := by
  rcases add_cases known w other with ⟨hknown, -, heq⟩ | ⟨hold, heq⟩ <;> rw [heq]
  · rw [List.mem_cons]
    constructor
    · rintro (rfl | hname)
      · exact .inr ⟨rfl, hknown⟩
      · exact .inl hname
    · rintro (hname | ⟨rfl, -⟩)
      · exact .inr hname
      · exact .inl rfl
  · refine ⟨.inl, ?_⟩
    rintro (hname | ⟨rfl, hknown⟩)
    · exact hname
    · exact hold hknown

theorem mem_marked_addAll : name ∈ (calls.foldl (add known) w).marked ↔
    name ∈ w.marked ∨ (name ∈ calls ∧ name ∈ known) := by
  induction calls generalizing w with
  | nil => simp
  | cons other calls ih =>
    rw [List.foldl_cons, ih, mem_marked_add, List.mem_cons]
    tauto

/-- A marked name was marked before, or it has been queued. -/
theorem queued_of_marked_add {other : Text} (h : name ∈ (w.add known other).marked) :
    name ∈ w.marked ∨ name ∈ (w.add known other).queue := by
  rcases add_cases known w other with ⟨-, -, heq⟩ | ⟨-, heq⟩ <;> rw [heq] at h ⊢
  · rcases List.mem_cons.mp h with rfl | h
    · exact .inr (by simp)
    · exact .inl h
  · exact .inl h

theorem queue_add_subset {other : Text} (h : name ∈ w.queue) : name ∈ (w.add known other).queue := by
  rcases add_cases known w other with ⟨-, -, heq⟩ | ⟨-, heq⟩ <;> rw [heq]
  · exact List.mem_append_left _ h
  · exact h

theorem queue_addAll_subset (h : name ∈ w.queue) : name ∈ (calls.foldl (add known) w).queue := by
  induction calls generalizing w with
  | nil => exact h
  | cons other calls ih => exact ih (queue_add_subset h)

theorem queued_of_marked_addAll (h : name ∈ (calls.foldl (add known) w).marked) :
    name ∈ w.marked ∨ name ∈ (calls.foldl (add known) w).queue := by
  induction calls generalizing w with
  | nil => exact .inl h
  | cons other calls ih =>
    rw [List.foldl_cons] at h ⊢
    rcases ih h with hmarked | hqueued
    · rcases queued_of_marked_add hmarked with hmarked | hqueued
      · exact .inl hmarked
      · exact .inr (queue_addAll_subset hqueued)
    · exact .inr hqueued

/-- Every name that is marked is queued, so both lists grow by as much. -/
theorem length_addAll (known calls : List Text) (w : Worklist) :
    (calls.foldl (add known) w).queue.length + w.marked.length =
      w.queue.length + (calls.foldl (add known) w).marked.length := by
  induction calls generalizing w with
  | nil => rfl
  | cons other calls ih =>
    have hadd : (w.add known other).queue.length + w.marked.length =
        w.queue.length + (w.add known other).marked.length := by
      rcases add_cases known w other with ⟨-, -, heq⟩ | ⟨-, heq⟩ <;> rw [heq]
      simp only [List.length_append, List.length_cons, List.length_nil]
      omega
    have hrest := ih (w.add known other)
    rw [List.foldl_cons]
    omega

/-! ### Turns -/

/-- What holds after a number of turns: nothing is marked that cannot be reached, and what a marked
function refers to is marked unless the function still waits in the queue. -/
structure Exploring (decls : List Decl) (entry : Text) (n : Nat) (w : Worklist) : Prop where
  tidy : Tidy (decls.map (·.name)) w
  count : n + w.queue.length = w.marked.length
  sound : ∀ name ∈ w.marked, name ∈ reachedNames decls entry
  started : entry ∈ decls.map (·.name) → entry ∈ w.marked
  closed : ∀ d ∈ decls, d.name ∈ w.marked → d.name ∈ w.queue ∨
    ∀ name ∈ decls.map (·.name), d.RefersTo name → name ∈ w.marked

theorem exploring_start : Exploring decls entry 0 (start decls entry) := by
  have hempty : Tidy (decls.map (·.name)) ⟨[], []⟩ := ⟨by simp, by simp, List.nodup_nil⟩
  refine ⟨hempty.add entry, ?_, ?_, ?_, ?_⟩
  · have hlength := length_addAll (decls.map (·.name)) [entry] ⟨[], []⟩
    simpa [start] using hlength
  · intro name hname
    rcases mem_marked_add.mp hname with hname | ⟨rfl, hknown⟩
    · cases hname
    · exact .root (List.mem_singleton.mpr rfl) hknown
  · intro hentry
    exact mem_marked_add.mpr (.inr ⟨rfl, hentry⟩)
  · intro d _ hd
    rcases queued_of_marked_add hd with hd | hd
    · cases hd
    · exact .inl hd

theorem Exploring.turn (hnames : (decls.map (·.name)).Nodup) (h : Exploring decls entry n w)
    (hturn : Turn decls w w') : Exploring decls entry (n + 1) w' := by
  obtain @⟨d, queue, marked, calls, hd, -, hcalls⟩ := hturn
  have hmarked : d.name ∈ marked := h.tidy.queued d.name List.mem_cons_self
  have hrest : Tidy (decls.map (·.name)) ⟨queue, marked⟩ :=
    ⟨fun name hname => h.tidy.queued name (List.mem_cons_of_mem _ hname), h.tidy.declared, h.tidy.once⟩
  refine ⟨hrest.addAll calls, ?_, ?_, ?_, ?_⟩
  -- One entry has left the queue, and as many have joined it as were marked.
  · have hcount := h.count
    have hlength := length_addAll (decls.map (·.name)) calls ⟨queue, marked⟩
    simp only [List.length_cons] at hcount
    simp only at hlength
    omega
  · intro name hname
    rcases mem_marked_addAll.mp hname with hname | ⟨hname, hknown⟩
    · exact h.sound name hname
    · refine .mention (h.sound d.name hmarked) ?_ hknown
      exact (mem_mentionsIn_iff hnames hd).mpr ((hcalls name).mp hname)
  · intro hentry
    exact mem_marked_addAll.mpr (.inl (h.started hentry))
  -- A function that is marked is still queued, or everything it refers to is marked.
  · intro e he hmark
    rcases queued_of_marked_addAll hmark with hold | hqueued
    · rcases h.closed e he hold with hqueue | hclosed
      · rcases List.mem_cons.mp hqueue with hname | hqueue
        · -- The function that was looked at: all it refers to has just been added.
          refine .inr fun name hknown hrefers => mem_marked_addAll.mpr (.inr ⟨?_, hknown⟩)
          have heq : mentionsIn decls e.name = mentionsIn decls d.name := by rw [hname]
          rw [← mem_mentionsIn_iff hnames he, heq, mem_mentionsIn_iff hnames hd] at hrefers
          exact (hcalls name).mpr hrefers
        · exact .inl (queue_addAll_subset hqueue)
      · exact .inr fun name hknown hrefers => mem_marked_addAll.mpr (.inl (hclosed name hknown hrefers))
    · exact .inl hqueued

theorem Turns.exploring (hnames : (decls.map (·.name)).Nodup)
    (h : Turns decls (start decls entry) n w) : Exploring decls entry n w := by
  induction h with
  | none => exact exploring_start
  | more _ hturn ih => exact ih.turn hnames hturn

namespace Exploring

variable (h : Exploring decls entry n w)
include h

theorem turns_le : n ≤ decls.length := by
  have hsub : w.marked.length ≤ (decls.map (·.name)).length :=
    (h.tidy.once.subperm h.tidy.declared).length_le
  have hcount := h.count
  rw [List.length_map] at hsub
  omega

theorem exists_turn (hqueue : w.queue ≠ []) : ∃ w', Turn decls w w' := by
  obtain ⟨queue, marked⟩ := w
  obtain ⟨name, rest, rfl⟩ := List.exists_cons_of_ne_nil hqueue
  obtain ⟨d, hd, rfl⟩ := List.mem_map.mp (h.tidy.declared name (h.tidy.queued name List.mem_cons_self))
  refine ⟨_, .visit hd d.mentions.nodup_dedup fun name => ?_⟩
  rw [List.mem_dedup, Decl.mem_mentions_iff]

theorem mem_marked_iff (hnames : (decls.map (·.name)).Nodup) (hqueue : w.queue = []) :
    name ∈ w.marked ↔ name ∈ reachedNames decls entry := by
  refine ⟨h.sound name, fun hname => ?_⟩
  have hretains : Retains decls entry {name | name ∈ w.marked} := by
    refine ⟨h.started, fun d hd hmarked => ?_⟩
    rcases h.closed d hd hmarked with hqueued | hclosed
    · rw [hqueue] at hqueued
      cases hqueued
    · exact hclosed
  exact (isLeast_reachedNames hnames).2 hretains hname

theorem kept_eq (hnames : (decls.map (·.name)).Nodup) (hqueue : w.queue = []) :
    w.kept decls = reachableDecls decls entry := by
  classical
  rw [reachableDecls_eq_filter]
  refine List.filter_congr fun d _ => Bool.eq_iff_iff.mpr ?_
  rw [List.contains_iff_mem, decide_eq_true_iff]
  exact h.mem_marked_iff hnames hqueue

end Exploring

end Worklist

open Classical in
/-- Pruning keeps, in source order, the functions in the least set of names that holds the entry and
what its members refer to. A search with a queue finds them in as many turns as there are functions at
most, whatever the order in which each turn goes through the references of a function. -/
theorem pruning_keeps_least (p : Profile) (ts : List Token) (prog : Program)
    (h : Program.ofTokens p ts = .ok prog) (entry : Text) :
    (∃ names, IsLeast {names | Retains prog.decls entry names} names ∧
      reachableDecls prog.decls entry = prog.decls.filter fun d => d.name ∈ names) ∧
    ∀ n w, Worklist.Turns prog.decls (.start prog.decls entry) n w →
      n ≤ prog.decls.length ∧ (w.queue ≠ [] → ∃ w', Worklist.Turn prog.decls w w') ∧
        (w.queue = [] → w.kept prog.decls = reachableDecls prog.decls entry) := by
  have hnames : (prog.decls.map (·.name)).Nodup := (Program.checked_of_ofTokens h).names
  refine ⟨⟨_, isLeast_reachedNames hnames, reachableDecls_eq_filter prog.decls entry⟩, ?_⟩
  intro n w hturns
  have hexploring := hturns.exploring hnames
  exact ⟨hexploring.turns_le, hexploring.exists_turn, hexploring.kept_eq hnames⟩

theorem sample_pruned : ∃ ts prog, sampleSource.lex = .ok ts ∧
    Program.ofTokens sampleProfile ts = .ok prog ∧
    (reachableDecls prog.decls "main").map (·.name) = ["main", "f"] := by
  have h : (sampleSource.lex.toOption.any fun ts =>
      (Program.ofTokens sampleProfile ts).toOption.any fun prog =>
        decide ((reachableDecls prog.decls "main").map (·.name) = ["main", "f"])) = true := by cbv
  obtain ⟨ts, hlex, h⟩ := (Option.any_eq_true _ _).mp h
  obtain ⟨prog, hprog, h⟩ := (Option.any_eq_true _ _).mp h
  exact ⟨ts, prog, eq_ok_of_toOption hlex, eq_ok_of_toOption hprog, of_decide_eq_true h⟩

open Classical in
/-- In the sample the entry and the raw function stay, and the function that is never called goes. -/
theorem pruning_keeps_least_sample : ∃ ts prog names, sampleSource.lex = .ok ts ∧
    Program.ofTokens sampleProfile ts = .ok prog ∧
    IsLeast {names | Retains prog.decls "main" names} names ∧
    (prog.decls.filter fun d => d.name ∈ names).map (·.name) = ["main", "f"] := by
  obtain ⟨ts, prog, hlex, hprog, hpruned⟩ := sample_pruned
  obtain ⟨⟨names, hleast, hfilter⟩, -⟩ := pruning_keeps_least sampleProfile ts prog hprog "main"
  exact ⟨ts, prog, names, hlex, hprog, hleast, hfilter ▸ hpruned⟩

end Pocket

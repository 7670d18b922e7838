import Mathlib
import Pocket.Batch
import Pocket.Proofs.Compiled

/-!
# Batches compiled in parallel

A dispatcher goes through the sources of a batch in order. It names the slot of a source, looks at the
context and hands the source to a worker of its own, as soon as fewer workers than allowed are running.
A worker looks at the context once more before it compiles. The context may be cancelled between any
two steps. Whatever the order of the steps, each slot ends up with what its source alone is compiled to,
or with the error of the context if that was cancelled before the compilation began.
-/

namespace Pocket

namespace Batch

/-- The place of one source among the results; the workers and the dispatcher fill it field by field. -/
structure Slot where
  name : Text
  output : Option Output
  trouble : Option Trouble

/-- What the dispatcher does next with the source it has come to. -/
inductive Post where
  | naming
  | looking
  | refusing
  | handing

/-- What a worker does next with its source. -/
inductive Task where
  | looking
  | refusing
  | compiling
  | storing (outcome : Except Refusal Output)
  | reporting (outcome : Except Refusal Output)

structure State where
  /-- The source the dispatcher has come to. -/
  next : Nat
  post : Post
  /-- The workers that are running, each with the index of its source. -/
  workers : List (Nat × Task)
  slots : List Slot
  cancelled : Bool

/-- What can be told from outside about a step. -/
inductive Event where
  | cancelled
  | turnedAway (i : Nat)
  | begun (i : Nat)
  | quiet

def State.start (sources : List Source) : State :=
  ⟨0, .naming, [], sources.map fun _ => ⟨[], none, none⟩, false⟩

/-- All sources are handed over, and no worker is running. -/
def State.Finished (sources : List Source) (s : State) : Prop :=
  s.next = sources.length ∧ s.workers = []

/-- The error in an outcome of the compiler. -/
def troubleOf? : Except Refusal Output → Option Trouble
  | .ok _ => none
  | .error r => some (.refused r)

/-- One step of the dispatcher, of a worker, or of whoever cancels the context. -/
inductive Step (p : Profile) (sources : List Source) (jobs : Nat) : State → Event → State → Prop where
  | cancel {s : State} (hlive : s.cancelled = false) :
      Step p sources jobs s .cancelled { s with cancelled := true }
  | name {s : State} {src : Source} (hpost : s.post = .naming) (hsrc : sources[s.next]? = some src) :
      Step p sources jobs s .quiet
        { s with
          post := .looking
          slots := s.slots.modify s.next fun slot => { slot with name := src.name } }
  | pass {s : State} (hpost : s.post = .looking) (hlive : s.cancelled = false) :
      Step p sources jobs s .quiet { s with post := .handing }
  | turnAway {s : State} (hpost : s.post = .looking) (hcancelled : s.cancelled = true) :
      Step p sources jobs s (.turnedAway s.next) { s with post := .refusing }
  | refuse {s : State} (hpost : s.post = .refusing) :
      Step p sources jobs s .quiet
        { s with
          next := s.next + 1
          post := .naming
          slots := s.slots.modify s.next fun slot => { slot with trouble := some .cancelled } }
  | hand {s : State} (hpost : s.post = .handing) (hroom : s.workers.length < jobs) :
      Step p sources jobs s .quiet
        { s with
          next := s.next + 1
          post := .naming
          workers := (s.next, .looking) :: s.workers }
  | begin {s : State} {i : Nat} {front back : List (Nat × Task)}
      (hworker : s.workers = front ++ (i, .looking) :: back) (hlive : s.cancelled = false) :
      Step p sources jobs s (.begun i) { s with workers := front ++ (i, .compiling) :: back }
  | giveUp {s : State} {i : Nat} {front back : List (Nat × Task)}
      (hworker : s.workers = front ++ (i, .looking) :: back) (hcancelled : s.cancelled = true) :
      Step p sources jobs s (.turnedAway i) { s with workers := front ++ (i, .refusing) :: back }
  | compile {s : State} {i : Nat} {src : Source} {front back : List (Nat × Task)}
      (hworker : s.workers = front ++ (i, .compiling) :: back) (hsrc : sources[i]? = some src) :
      Step p sources jobs s .quiet
        { s with workers := front ++ (i, .storing (compile p src.text)) :: back }
  | store {s : State} {i : Nat} {outcome : Except Refusal Output} {front back : List (Nat × Task)}
      (hworker : s.workers = front ++ (i, .storing outcome) :: back) :
      Step p sources jobs s .quiet
        { s with
          workers := front ++ (i, .reporting outcome) :: back
          slots := s.slots.modify i fun slot => { slot with output := outcome.toOption } }
  | report {s : State} {i : Nat} {outcome : Except Refusal Output} {front back : List (Nat × Task)}
      (hworker : s.workers = front ++ (i, .reporting outcome) :: back) :
      Step p sources jobs s .quiet
        { s with
          workers := front ++ back
          slots := s.slots.modify i fun slot => { slot with trouble := troubleOf? outcome } }
  | fail {s : State} {i : Nat} {front back : List (Nat × Task)}
      (hworker : s.workers = front ++ (i, .refusing) :: back) :
      Step p sources jobs s .quiet
        { s with
          workers := front ++ back
          slots := s.slots.modify i fun slot => { slot with trouble := some .cancelled } }

/-- The steps from the beginning of a batch to a state, in order. -/
inductive Run (p : Profile) (sources : List Source) (jobs : Nat) : List Event → State → Prop where
  | start : Run p sources jobs [] (.start sources)
  | step {es : List Event} {e : Event} {s s' : State} :
      Run p sources jobs es s → Step p sources jobs s e s' → Run p sources jobs (es ++ [e]) s'

variable {p : Profile} {sources : List Source} {jobs i : Nat} {s s' : State} {e : Event}
  {es : List Event} {src : Source}

/-! ### Bookkeeping -/

/-- The dispatcher stands at a source or behind the last one, and every worker has a source of its own
that was handed over. -/
structure Tidy (n jobs : Nat) (s : State) : Prop where
  bound : s.next ≤ n
  ended : s.next = n → s.post = .naming
  own : (s.workers.map Prod.fst).Nodup
  handed : ∀ w ∈ s.workers, w.1 < s.next
  limit : s.workers.length ≤ jobs
  places : s.slots.length = n

theorem tidy_start : Tidy sources.length jobs (.start sources) where
  bound := Nat.zero_le _
  ended _ := rfl
  own := List.nodup_nil
  handed := by simp [State.start]
  limit := Nat.zero_le _
  places := List.length_map _

theorem Tidy.next_lt {n : Nat} (h : Tidy n jobs s) (hpost : s.post ≠ .naming) : s.next < n :=
  Nat.lt_of_le_of_ne h.bound fun heq => hpost (h.ended heq)

/-- A worker that goes on keeps its source. -/
theorem Tidy.replace {n : Nat} (h : Tidy n jobs s) {front back : List (Nat × Task)} {t : Task}
    (hworker : s.workers = front ++ (i, t) :: back) (t' : Task) {slots : List Slot}
    (hslots : slots.length = n) :
    Tidy n jobs { s with workers := front ++ (i, t') :: back, slots } := by
  obtain ⟨hbound, hended, hown, hhanded, hlimit, -⟩ := h
  rw [hworker] at hown hhanded hlimit
  refine ⟨hbound, hended, by simpa using hown, ?_, by simpa using hlimit, hslots⟩
  simpa [or_imp, forall_and] using hhanded

/-- A worker that leaves makes room. -/
theorem Tidy.remove {n : Nat} (h : Tidy n jobs s) {front back : List (Nat × Task)} {t : Task}
    (hworker : s.workers = front ++ (i, t) :: back) {slots : List Slot} (hslots : slots.length = n) :
    Tidy n jobs { s with workers := front ++ back, slots } := by
  obtain ⟨hbound, hended, hown, hhanded, hlimit, -⟩ := h
  rw [hworker] at hown hhanded hlimit
  have hsub : (front ++ back).Sublist (front ++ (i, t) :: back) :=
    (List.Sublist.refl front).append (List.sublist_cons_self _ _)
  exact ⟨hbound, hended, hown.sublist (hsub.map _), fun w hw => hhanded w (hsub.subset hw),
    hsub.length_le.trans hlimit, hslots⟩

theorem Tidy.step (h : Tidy sources.length jobs s) (hstep : Step p sources jobs s e s') :
    Tidy sources.length jobs s' := by
  have ⟨hbound, hended, hown, hhanded, hlimit, hplaces⟩ := h
  cases hstep with
  | cancel => exact ⟨hbound, hended, hown, hhanded, hlimit, hplaces⟩
  -- A source is named while the dispatcher still has some, so it has not come to the end.
  | name hpost hsrc =>
    obtain ⟨hlt, -⟩ := List.getElem?_eq_some_iff.mp hsrc
    exact ⟨hbound, fun heq => absurd heq (Nat.ne_of_lt hlt), hown, hhanded, hlimit, by simpa using hplaces⟩
  | pass hpost =>
    exact ⟨hbound, fun heq => absurd heq (Nat.ne_of_lt (h.next_lt (by simp [hpost]))), hown, hhanded,
      hlimit, hplaces⟩
  | turnAway hpost =>
    exact ⟨hbound, fun heq => absurd heq (Nat.ne_of_lt (h.next_lt (by simp [hpost]))), hown, hhanded,
      hlimit, hplaces⟩
  | refuse hpost =>
    exact ⟨h.next_lt (by simp [hpost]), fun _ => rfl, hown, fun w hw => Nat.lt_succ_of_lt (hhanded w hw),
      hlimit, by simpa using hplaces⟩
  | hand hpost hroom =>
    refine ⟨h.next_lt (by simp [hpost]), fun _ => rfl, List.nodup_cons.mpr ⟨?_, hown⟩, ?_, hroom, hplaces⟩
    -- Whoever is at work was handed an earlier source, so the new one is nobody else's.
    · intro hmem
      obtain ⟨w, hw, heq⟩ := List.mem_map.mp hmem
      exact Nat.ne_of_lt (hhanded w hw) heq
    · intro w hw
      rcases List.mem_cons.mp hw with rfl | hw
      · exact Nat.lt_succ_self _
      · exact Nat.lt_succ_of_lt (hhanded w hw)
  | begin hworker => exact h.replace hworker _ hplaces
  | giveUp hworker => exact h.replace hworker _ hplaces
  | compile hworker => exact h.replace hworker _ hplaces
  | store hworker => exact h.replace hworker _ (by simpa using hplaces)
  | report hworker => exact h.remove hworker (by simpa using hplaces)
  | fail hworker => exact h.remove hworker (by simpa using hplaces)

/-! ### How far a source has come -/

inductive Stage where
  /-- The dispatcher is at the source or before it. -/
  | ahead (post : Post)
  | working (task : Task)
  | settled

def State.At (s : State) (i : Nat) : Stage → Prop
  | .ahead post => (s.next = i ∧ post = s.post) ∨ (s.next < i ∧ post = .naming)
  | .working task => (i, task) ∈ s.workers
  | .settled => i < s.next ∧ ∀ task, (i, task) ∉ s.workers

/-- Between two states one source has moved on, and all others are where they were. -/
structure Moves (s s' : State) (i : Nat) (a b : Stage) : Prop where
  before : s.At i a
  after : ∀ stage, s'.At i stage → stage = b
  others : ∀ j, j ≠ i → ∀ stage, s'.At j stage → s.At j stage

theorem moves_post {n : Nat} (h : Tidy n jobs s) {old post : Post} (hpost : s.post = old)
    {slots : List Slot} : Moves s { s with post, slots } s.next (.ahead old) (.ahead post) := by
  refine ⟨.inl ⟨rfl, hpost.symm⟩, ?_, ?_⟩
  · rintro (post' | task | -) hat
    · rcases hat with ⟨-, rfl⟩ | ⟨hlt, -⟩
      · rfl
      · exact absurd hlt (Nat.lt_irrefl _)
    · exact absurd (h.handed _ hat) (Nat.lt_irrefl _)
    · exact absurd hat.1 (Nat.lt_irrefl _)
  · rintro j hj (post' | task | -) hat
    · rcases hat with ⟨heq, -⟩ | hlt
      · exact absurd heq.symm hj
      · exact .inr hlt
    · exact hat
    · exact hat

/-- When the dispatcher goes on, the source it leaves is no longer ahead of it, and a source behind that
one is where it was. -/
theorem ahead_of_next {j : Nat} {post : Post} {workers : List (Nat × Task)} {slots : List Slot}
    (hat : ({ s with next := s.next + 1, post := .naming, workers, slots } : State).At j (.ahead post)) :
    s.next < j ∧ post = .naming := by
  rcases hat with ⟨heq, rfl⟩ | ⟨hlt, rfl⟩
  · exact ⟨heq ▸ Nat.lt_succ_self _, rfl⟩
  · exact ⟨Nat.lt_of_succ_lt hlt, rfl⟩

theorem moves_refuse {n : Nat} (h : Tidy n jobs s) {old : Post} (hpost : s.post = old)
    {slots : List Slot} :
    Moves s { s with next := s.next + 1, post := .naming, slots } s.next (.ahead old) .settled := by
  refine ⟨.inl ⟨rfl, hpost.symm⟩, ?_, ?_⟩
  · rintro (post' | task | -) hat
    · exact absurd (ahead_of_next hat).1 (Nat.lt_irrefl _)
    · exact absurd (h.handed _ hat) (Nat.lt_irrefl _)
    · rfl
  · rintro j hj (post' | task | -) hat
    · exact .inr (ahead_of_next hat)
    · exact hat
    · exact ⟨Nat.lt_of_le_of_ne (Nat.le_of_lt_succ hat.1) hj, hat.2⟩

theorem moves_hand {n : Nat} (h : Tidy n jobs s) {old : Post} (hpost : s.post = old) {task : Task} :
    Moves s { s with next := s.next + 1, post := .naming, workers := (s.next, task) :: s.workers } s.next
      (.ahead old) (.working task) := by
  refine ⟨.inl ⟨rfl, hpost.symm⟩, ?_, ?_⟩
  · rintro (post' | task' | -) hat
    · exact absurd (ahead_of_next hat).1 (Nat.lt_irrefl _)
    · rcases List.mem_cons.mp hat with heq | hmem
      · cases heq
        rfl
      · exact absurd (h.handed _ hmem) (Nat.lt_irrefl _)
    · exact absurd List.mem_cons_self (hat.2 task)
  · rintro j hj (post' | task' | -) hat
    · exact .inr (ahead_of_next hat)
    · rcases List.mem_cons.mp hat with heq | hmem
      · cases heq
        exact absurd rfl hj
      · exact hmem
    · exact ⟨Nat.lt_of_le_of_ne (Nat.le_of_lt_succ hat.1) hj,
        fun task' hmem => hat.2 task' (List.mem_cons_of_mem _ hmem)⟩

section Worker

variable {n : Nat} {front back : List (Nat × Task)} {t t' task : Task} {slots : List Slot}

/-- The other workers have other sources. -/
theorem Tidy.not_mem_rest (h : Tidy n jobs s) (hworkers : s.workers = front ++ (i, t) :: back) :
    (i, task) ∉ front ++ back := by
  have hown := h.own
  rw [hworkers, List.map_append, List.map_cons, List.nodup_middle, List.nodup_cons,
    ← List.map_append] at hown
  exact fun hmem => hown.1 (List.mem_map.mpr ⟨(i, task), hmem, rfl⟩)

theorem mem_front_back {j : Nat} (hj : j ≠ i) :
    (j, task) ∈ front ++ (i, t) :: back ↔ (j, task) ∈ front ++ back := by
  simp [hj]

theorem moves_replace (h : Tidy n jobs s) (hworkers : s.workers = front ++ (i, t) :: back) :
    Moves s { s with workers := front ++ (i, t') :: back, slots } i (.working t) (.working t') := by
  have hmem : (i, t) ∈ s.workers := by simp [hworkers]
  have hlt : i < s.next := h.handed _ hmem
  refine ⟨hmem, ?_, ?_⟩
  -- Nobody else has the source, so the worker found with it is the one that was replaced.
  · rintro (post | task | -) hat
    · rcases hat with ⟨heq, -⟩ | ⟨hgt, -⟩
      · exact absurd heq (Nat.ne_of_gt hlt)
      · exact absurd hgt (Nat.lt_asymm hlt)
    · rcases List.mem_append.mp hat with hfront | hback
      · exact absurd (List.mem_append_left back hfront) (h.not_mem_rest hworkers)
      · rcases List.mem_cons.mp hback with heq | hback
        · cases heq
          rfl
        · exact absurd (List.mem_append_right front hback) (h.not_mem_rest hworkers)
    · exact absurd (by simp) (hat.2 t')
  -- The workers of other sources are the same before and after.
  · rintro j hj (post | task | -) hat
    · exact hat
    · change (j, task) ∈ s.workers
      rw [hworkers, mem_front_back hj]
      exact (mem_front_back hj).mp hat
    · refine ⟨hat.1, fun task htask => hat.2 task ?_⟩
      rw [hworkers, mem_front_back hj] at htask
      exact (mem_front_back hj).mpr htask

theorem moves_remove (h : Tidy n jobs s) (hworkers : s.workers = front ++ (i, t) :: back) :
    Moves s { s with workers := front ++ back, slots } i (.working t) .settled := by
  have hmem : (i, t) ∈ s.workers := by simp [hworkers]
  have hlt : i < s.next := h.handed _ hmem
  refine ⟨hmem, ?_, ?_⟩
  · rintro (post | task | -) hat
    · rcases hat with ⟨heq, -⟩ | ⟨hgt, -⟩
      · exact absurd heq (Nat.ne_of_gt hlt)
      · exact absurd hgt (Nat.lt_asymm hlt)
    · exact absurd hat (h.not_mem_rest hworkers)
    · rfl
  · rintro j hj (post | task | -) hat
    · exact hat
    · change (j, task) ∈ s.workers
      rw [hworkers, mem_front_back hj]
      exact hat
    · refine ⟨hat.1, fun task htask => hat.2 task ?_⟩
      rwa [hworkers, mem_front_back hj] at htask

end Worker

/-! ### What the slots hold -/

/-- The compilation of a source began, and the context was not cancelled before. -/
def Began (es : List Event) (i : Nat) : Prop :=
  ∃ before after, es = before ++ .begun i :: after ∧ .cancelled ∉ before

/-- A source was turned away after the context had been cancelled, and its compilation never began. -/
def TurnedAway (es : List Event) (i : Nat) : Prop :=
  (∃ before after, es = before ++ .turnedAway i :: after ∧ .cancelled ∈ before) ∧ .begun i ∉ es

/-- A slot whose source has been dealt with. -/
def Settled (p : Profile) (es : List Event) (i : Nat) (src : Source) (slot : Slot) : Prop :=
  (slot = ⟨src.name, (compile p src.text).toOption, troubleOf? (compile p src.text)⟩ ∧ Began es i) ∨
    (slot = ⟨src.name, none, some .cancelled⟩ ∧ TurnedAway es i)

/-- What the slot of a source holds at each stage. -/
def Filled (p : Profile) (es : List Event) (i : Nat) (src : Source) : Stage → Slot → Prop
  | .ahead .naming, slot => slot = ⟨[], none, none⟩ ∧ .begun i ∉ es
  | .ahead .looking, slot => slot = ⟨src.name, none, none⟩ ∧ .begun i ∉ es
  | .ahead .handing, slot => slot = ⟨src.name, none, none⟩ ∧ .begun i ∉ es
  | .ahead .refusing, slot => slot = ⟨src.name, none, none⟩ ∧ TurnedAway es i
  | .working .looking, slot => slot = ⟨src.name, none, none⟩ ∧ .begun i ∉ es
  | .working .refusing, slot => slot = ⟨src.name, none, none⟩ ∧ TurnedAway es i
  | .working .compiling, slot => slot = ⟨src.name, none, none⟩ ∧ Began es i
  | .working (.storing r), slot =>
    slot = ⟨src.name, none, none⟩ ∧ r = compile p src.text ∧ Began es i
  | .working (.reporting r), slot =>
    slot = ⟨src.name, r.toOption, none⟩ ∧ r = compile p src.text ∧ Began es i
  | .settled, slot => Settled p es i src slot

theorem Began.more (h : Began es i) : Began (es ++ [e]) i := by
  obtain ⟨before, after, rfl, hbefore⟩ := h
  exact ⟨before, after ++ [e], by simp, hbefore⟩

theorem not_begun_more (h : .begun i ∉ es) (he : e ≠ .begun i) : .begun i ∉ es ++ [e] := by
  simpa [h] using he.symm

theorem TurnedAway.more (h : TurnedAway es i) (he : e ≠ .begun i) : TurnedAway (es ++ [e]) i := by
  obtain ⟨⟨before, after, rfl, hbefore⟩, hbegun⟩ := h
  exact ⟨⟨before, after ++ [e], by simp, hbefore⟩, not_begun_more hbegun he⟩

theorem Settled.more {slot : Slot} (h : Settled p es i src slot) (he : e ≠ .begun i) :
    Settled p (es ++ [e]) i src slot := by
  rcases h with ⟨hslot, hbegan⟩ | ⟨hslot, haway⟩
  · exact .inl ⟨hslot, hbegan.more⟩
  · exact .inr ⟨hslot, haway.more he⟩

/-- A slot is none the worse for a step that does not begin the compilation of its source. -/
theorem Filled.more {stage : Stage} {slot : Slot} (h : Filled p es i src stage slot)
    (he : e ≠ .begun i) : Filled p (es ++ [e]) i src stage slot := by
  rcases stage with (- | - | - | -) | (- | - | - | r | r) | -
  · exact ⟨h.1, not_begun_more h.2 he⟩
  · exact ⟨h.1, not_begun_more h.2 he⟩
  · exact ⟨h.1, h.2.more he⟩
  · exact ⟨h.1, not_begun_more h.2 he⟩
  · exact ⟨h.1, not_begun_more h.2 he⟩
  · exact ⟨h.1, h.2.more he⟩
  · exact ⟨h.1, h.2.more⟩
  · exact ⟨h.1, h.2.1, h.2.2.more⟩
  · exact ⟨h.1, h.2.1, h.2.2.more⟩
  · exact Settled.more h he

/-! ### Runs -/

structure Sound (p : Profile) (sources : List Source) (jobs : Nat) (es : List Event) (s : State) :
    Prop where
  tidy : Tidy sources.length jobs s
  flag : s.cancelled = true ↔ .cancelled ∈ es
  filled : ∀ i src stage slot, sources[i]? = some src → s.At i stage → s.slots[i]? = some slot →
    Filled p es i src stage slot

theorem sound_start : Sound p sources jobs [] (.start sources) := by
  refine ⟨tidy_start, by simp [State.start], ?_⟩
  rintro i src (post | task | -) slot hsrc hat hslot
  · have hblank : slot = ⟨[], none, none⟩ := by
      simp only [State.start, List.getElem?_map, hsrc] at hslot
      exact (Option.some.inj hslot).symm
    have hpost : post = .naming := by
      rcases hat with ⟨-, rfl⟩ | ⟨-, rfl⟩
      · rfl
      · rfl
    subst hblank hpost
    exact ⟨rfl, by simp⟩
  · cases hat
  · exact absurd hat.1 (Nat.not_lt_zero i)

/-- A step that moves one source on is sound if it fills the slot of that source as it should. -/
theorem Sound.moves (h : Sound p sources jobs es s) (hstep : Step p sources jobs s e s') {a b : Stage}
    {f : Slot → Slot} (hmoves : Moves s s' i a b) (hslots : s'.slots = s.slots.modify i f)
    (hflag : s'.cancelled = s.cancelled) (hcancel : e ≠ .cancelled) (hbegun : ∀ j, j ≠ i → e ≠ .begun j)
    (hfill : ∀ src slot, sources[i]? = some src → Filled p es i src a slot →
      Filled p (es ++ [e]) i src b (f slot)) : Sound p sources jobs (es ++ [e]) s' := by
  refine ⟨h.tidy.step hstep, ?_, ?_⟩
  · rw [hflag, h.flag, List.mem_append, List.mem_singleton]
    exact ⟨.inl, fun hmem => hmem.resolve_right hcancel.symm⟩
  · intro j src stage slot hsrc hat hslot
    rw [hslots] at hslot
    by_cases hj : j = i
    · subst hj
      obtain rfl := hmoves.after stage hat
      rw [List.getElem?_modify_eq] at hslot
      obtain ⟨old, hold, rfl⟩ := Option.map_eq_some_iff.mp hslot
      exact hfill src old hsrc (h.filled j src a old hsrc hmoves.before hold)
    · rw [List.getElem?_modify_ne f _ (Ne.symm hj)] at hslot
      exact (h.filled j src stage slot hsrc (hmoves.others j hj stage hat) hslot).more (hbegun j hj)

/-- A source that is turned away when the context is found cancelled. -/
theorem Sound.turnedAway (h : Sound p sources jobs es s) (hcancelled : s.cancelled = true)
    (hbegun : .begun i ∉ es) : TurnedAway (es ++ [.turnedAway i]) i :=
  ⟨⟨es, [], rfl, h.flag.mp hcancelled⟩, not_begun_more hbegun (by simp)⟩

/-- A compilation that begins while the context is live. -/
theorem Sound.began (h : Sound p sources jobs es s) (hlive : s.cancelled = false) :
    Began (es ++ [.begun i]) i := by
  refine ⟨es, [], rfl, fun hmem => ?_⟩
  rw [h.flag.mpr hmem] at hlive
  cases hlive

theorem Sound.step (h : Sound p sources jobs es s) (hstep : Step p sources jobs s e s') :
    Sound p sources jobs (es ++ [e]) s' := by
  -- Every step but a cancellation moves one source on by one stage and may write in its slot.
  have hsame : ∀ i, s.slots = s.slots.modify i id := fun i => by simp
  cases hstep with
  | cancel hlive =>
    refine ⟨h.tidy.step (.cancel (p := p) hlive), by simp, fun i src stage slot hsrc hat hslot => ?_⟩
    exact (h.filled i src stage slot hsrc (by cases stage <;> exact hat) hslot).more (by simp)
  | name hpost hsrc =>
    refine h.moves (.name hpost hsrc) (moves_post h.tidy hpost) rfl rfl (by simp) (by simp) ?_
    rintro src' slot hsrc' ⟨rfl, hbegun⟩
    rw [hsrc] at hsrc'
    cases hsrc'
    exact ⟨rfl, not_begun_more hbegun (by simp)⟩
  | pass hpost hlive =>
    refine h.moves (.pass hpost hlive) (moves_post h.tidy hpost) (hsame _) rfl (by simp) (by simp) ?_
    rintro src slot - ⟨rfl, hbegun⟩
    exact ⟨rfl, not_begun_more hbegun (by simp)⟩
  | turnAway hpost hcancelled =>
    refine h.moves (.turnAway hpost hcancelled) (moves_post h.tidy hpost) (hsame _) rfl (by simp)
      (by simp) ?_
    rintro src slot - ⟨rfl, hbegun⟩
    exact ⟨rfl, h.turnedAway hcancelled hbegun⟩
  | refuse hpost =>
    refine h.moves (.refuse hpost) (moves_refuse h.tidy hpost) rfl rfl (by simp) (by simp) ?_
    rintro src slot - ⟨rfl, haway⟩
    exact .inr ⟨rfl, haway.more (by simp)⟩
  | hand hpost hroom =>
    refine h.moves (.hand hpost hroom) (moves_hand h.tidy hpost) (hsame _) rfl (by simp) (by simp) ?_
    rintro src slot - ⟨rfl, hbegun⟩
    exact ⟨rfl, not_begun_more hbegun (by simp)⟩
  | begin hworker hlive =>
    refine h.moves (.begin hworker hlive) (moves_replace h.tidy hworker) (hsame _) rfl (by simp) ?_ ?_
    · intro j hj heq
      cases heq
      exact hj rfl
    · rintro src slot - ⟨rfl, -⟩
      exact ⟨rfl, h.began hlive⟩
  | giveUp hworker hcancelled =>
    refine h.moves (.giveUp hworker hcancelled) (moves_replace h.tidy hworker) (hsame _) rfl (by simp)
      (by simp) ?_
    rintro src slot - ⟨rfl, hbegun⟩
    exact ⟨rfl, h.turnedAway hcancelled hbegun⟩
  | compile hworker hsrc =>
    refine h.moves (.compile hworker hsrc) (moves_replace h.tidy hworker) (hsame _) rfl (by simp)
      (by simp) ?_
    rintro src' slot hsrc' ⟨rfl, hbegan⟩
    rw [hsrc] at hsrc'
    cases hsrc'
    exact ⟨rfl, rfl, hbegan.more⟩
  | store hworker =>
    refine h.moves (.store hworker) (moves_replace h.tidy hworker) rfl rfl (by simp) (by simp) ?_
    rintro src slot - ⟨rfl, houtcome, hbegan⟩
    exact ⟨rfl, houtcome, hbegan.more⟩
  | report hworker =>
    refine h.moves (.report hworker) (moves_remove h.tidy hworker) rfl rfl (by simp) (by simp) ?_
    rintro src slot - ⟨rfl, rfl, hbegan⟩
    exact .inl ⟨rfl, hbegan.more⟩
  | fail hworker =>
    refine h.moves (.fail hworker) (moves_remove h.tidy hworker) rfl rfl (by simp) (by simp) ?_
    rintro src slot - ⟨rfl, haway⟩
    exact .inr ⟨rfl, haway.more (by simp)⟩

theorem Run.sound (h : Run p sources jobs es s) : Sound p sources jobs es s := by
  induction h with
  | start => exact sound_start
  | step _ hstep ih => exact ih.step hstep

/-! ### Runs end -/

/-- How many steps of the dispatcher are behind a source that is not handed over yet; one that is being
refused saves those of a worker. -/
def Post.behind : Post → Nat
  | .naming => 0
  | .looking => 1
  | .handing => 2
  | .refusing => 6

/-- How many steps a worker has before it, at most. -/
def Task.ahead : Task → Nat
  | .looking => 4
  | .compiling => 3
  | .storing _ => 2
  | .reporting _ => 1
  | .refusing => 1

/-- How many steps there can be before a batch of so many sources is finished. -/
def State.weight (n : Nat) (s : State) : Nat :=
  7 * (n - s.next) - s.post.behind + (s.workers.map fun w => w.2.ahead).sum +
    if s.cancelled then 0 else 1

theorem Step.weight_lt (h : Tidy sources.length jobs s) (hstep : Step p sources jobs s e s') :
    s'.weight sources.length < s.weight sources.length := by
  have hnext := h.next_lt
  -- A step of the dispatcher adds less to the workers than it takes from its own way.
  cases hstep with
  | cancel hlive => simp [State.weight, hlive]
  | name hpost hsrc =>
    obtain ⟨hlt, -⟩ := List.getElem?_eq_some_iff.mp hsrc
    simp only [State.weight, hpost, Post.behind]
    omega
  | pass hpost =>
    have hlt := hnext (by simp [hpost])
    simp only [State.weight, hpost, Post.behind]
    omega
  | turnAway hpost =>
    have hlt := hnext (by simp [hpost])
    simp only [State.weight, hpost, Post.behind]
    omega
  | refuse hpost =>
    have hlt := hnext (by simp [hpost])
    simp only [State.weight, hpost, Post.behind]
    omega
  | hand hpost =>
    have hlt := hnext (by simp [hpost])
    simp only [State.weight, hpost, Post.behind, List.map_cons, List.sum_cons, Task.ahead]
    omega
  | begin hworker => simp [State.weight, hworker, Task.ahead]
  | giveUp hworker => simp [State.weight, hworker, Task.ahead]
  | compile hworker => simp [State.weight, hworker, Task.ahead]
  | store hworker => simp [State.weight, hworker, Task.ahead]
  | report hworker => simp [State.weight, hworker, Task.ahead]
  | fail hworker => simp [State.weight, hworker, Task.ahead]

theorem Run.length_le (h : Run p sources jobs es s) :
    es.length + s.weight sources.length ≤ 7 * sources.length + 1 := by
  induction h with
  | start => simp [State.weight, State.start, Post.behind]
  | step hrun hstep ih =>
    have hlt := hstep.weight_lt hrun.sound.tidy
    rw [List.length_append, List.length_singleton]
    omega

/-- A worker can always go on. -/
theorem exists_step_worker (h : Tidy sources.length jobs s) (hworkers : s.workers ≠ []) :
    ∃ e s', e ≠ .cancelled ∧ Step p sources jobs s e s' := by
  obtain ⟨⟨i, task⟩, back, hback⟩ := List.exists_cons_of_ne_nil hworkers
  have hlt : i < sources.length := by
    have := h.handed (i, task) (by simp [hback])
    exact Nat.lt_of_lt_of_le this h.bound
  have hfront : s.workers = [] ++ (i, task) :: back := hback
  cases task with
  | looking =>
    cases hcancelled : s.cancelled with
    | true => exact ⟨_, _, by simp, .giveUp hfront hcancelled⟩
    | false => exact ⟨_, _, by simp, .begin hfront hcancelled⟩
  | refusing => exact ⟨_, _, by simp, .fail hfront⟩
  | compiling => exact ⟨_, _, by simp, .compile hfront (List.getElem?_eq_getElem hlt)⟩
  | storing outcome => exact ⟨_, _, by simp, .store hfront⟩
  | reporting outcome => exact ⟨_, _, by simp, .report hfront⟩

/-- No batch gets stuck: if the dispatcher has to wait, there is a worker to wait for. -/
theorem exists_step (hjobs : 1 ≤ jobs) (h : Tidy sources.length jobs s) (hs : ¬s.Finished sources) :
    ∃ e s', e ≠ .cancelled ∧ Step p sources jobs s e s' := by
  by_cases hworkers : s.workers = []
  · have hlt : s.next < sources.length :=
      Nat.lt_of_le_of_ne h.bound fun heq => hs ⟨heq, hworkers⟩
    cases hpost : s.post with
    | naming => exact ⟨_, _, by simp, .name hpost (List.getElem?_eq_getElem hlt)⟩
    | looking =>
      cases hcancelled : s.cancelled with
      | true => exact ⟨_, _, by simp, .turnAway hpost hcancelled⟩
      | false => exact ⟨_, _, by simp, .pass hpost hcancelled⟩
    | refusing => exact ⟨_, _, by simp, .refuse hpost⟩
    | handing => exact ⟨_, _, by simp, .hand hpost (by rw [hworkers]; exact hjobs)⟩
  · exact exists_step_worker h hworkers

theorem exists_finished (hjobs : 1 ≤ jobs) (h : Run p sources jobs es s) (hes : .cancelled ∉ es) :
    ∃ es' s', Run p sources jobs es' s' ∧ .cancelled ∉ es' ∧ s'.Finished sources := by
  generalize hn : s.weight sources.length = n
  induction n using Nat.strongRecOn generalizing es s with
  | ind n ih =>
    by_cases hs : s.Finished sources
    · exact ⟨es, s, h, hes, hs⟩
    · obtain ⟨e, s', he, hstep⟩ := exists_step (p := p) hjobs h.sound.tidy hs
      have hlt := hstep.weight_lt h.sound.tidy
      exact ih _ (hn ▸ hlt) (h.step hstep) (by simpa [hes] using he.symm) rfl

/-! ### Results -/

theorem Sound.settled (h : Sound p sources jobs es s) (hs : s.Finished sources) {slot : Slot}
    (hsrc : sources[i]? = some src) (hslot : s.slots[i]? = some slot) : Settled p es i src slot := by
  obtain ⟨hnext, hworkers⟩ := hs
  obtain ⟨hlt, -⟩ := List.getElem?_eq_some_iff.mp hsrc
  exact h.filled i src .settled slot hsrc ⟨hnext ▸ hlt, by simp [hworkers]⟩ hslot

/-- The result of a source as it stands in its slot. -/
def Slot.of (r : Result) : Slot :=
  ⟨r.name, r.outcome.toOption, match r.outcome with
    | .ok _ => none
    | .error trouble => some trouble⟩

theorem slot_of_compiled (p : Profile) (src : Source) : Slot.of (compileOne p false src) =
    ⟨src.name, (compile p src.text).toOption, troubleOf? (compile p src.text)⟩ := by
  simp only [compileOne, Slot.of]
  cases compile p src.text <;> rfl

theorem isSome_output_compiled (r : Except Refusal Output) :
    r.toOption.isSome = (troubleOf? r).isNone := by
  cases r <;> rfl

/-- Exactly one of output and trouble is set. -/
theorem Settled.exclusive {slot : Slot} (h : Settled p es i src slot) :
    slot.output.isSome = slot.trouble.isNone := by
  rcases h with ⟨rfl, -⟩ | ⟨rfl, -⟩
  · exact isSome_output_compiled _
  · rfl

theorem Settled.name_eq {slot : Slot} (h : Settled p es i src slot) : slot.name = src.name := by
  rcases h with ⟨rfl, -⟩ | ⟨rfl, -⟩
  · rfl
  · rfl

/-- Without cancellation a source is compiled. -/
theorem Settled.uncancelled {slot : Slot} (h : Settled p es i src slot) (hes : .cancelled ∉ es) :
    slot = Slot.of (compileOne p false src) := by
  rcases h with ⟨hslot, -⟩ | ⟨-, ⟨before, after, rfl, hbefore⟩, -⟩
  · rw [hslot, slot_of_compiled]
  · exact absurd (List.mem_append_left _ hbefore) hes

/-- If the context is cancelled first of all, a source is not compiled. -/
theorem Settled.cancelled_first {slot : Slot} (h : Settled p es i src slot)
    (hes : es.head? = some .cancelled) : slot = Slot.of (compileOne p true src) := by
  rcases h with ⟨-, before, after, rfl, hbefore⟩ | ⟨hslot, -⟩
  · cases before with
    | nil => cases hes
    | cons first before =>
      cases hes
      exact absurd List.mem_cons_self hbefore
  · exact hslot

theorem slots_eq_map {slots : List Slot} {f : Source → Slot} (hlength : slots.length = sources.length)
    (h : ∀ (i : Nat) src slot, sources[i]? = some src → slots[i]? = some slot → slot = f src) :
    slots = sources.map f := by
  refine List.ext_getElem (by simp [hlength]) fun i h₁ h₂ => ?_
  rw [List.getElem_map]
  exact h i _ _ (List.getElem?_eq_getElem _) (List.getElem?_eq_getElem h₁)

/-- A batch gives the same results whatever the order of its steps and the number of its workers. Every
run is finite, none gets stuck, and no more workers run than are allowed. In the end there is one slot
per source, in order, with the name of the source and with either an output or a trouble: what the
source alone is compiled to, if the compilation began before the context was cancelled, and otherwise
the error of the context. -/
theorem batch_ignores_schedule (p : Profile) (sources : List Source) (jobs : Nat) (hjobs : 1 ≤ jobs) :
    (∃ es s, Run p sources jobs es s ∧ .cancelled ∉ es ∧ s.Finished sources) ∧
    ∀ es s, Run p sources jobs es s →
      es.length ≤ 7 * sources.length + 1 ∧ s.workers.length ≤ jobs ∧
      (¬s.Finished sources → ∃ e s', e ≠ .cancelled ∧ Step p sources jobs s e s') ∧
      (s.Finished sources →
        s.slots.length = sources.length ∧
        (∀ i src slot, sources[i]? = some src → s.slots[i]? = some slot →
          slot.name = src.name ∧ slot.output.isSome = slot.trouble.isNone ∧ Settled p es i src slot) ∧
        (.cancelled ∉ es → s.slots = (compileAll p false sources).map Slot.of) ∧
        (es.head? = some .cancelled → s.slots = (compileAll p true sources).map Slot.of)) := by
  refine ⟨exists_finished hjobs .start (by simp), fun es s hrun => ?_⟩
  have hsound := hrun.sound
  have hlength := hrun.length_le
  refine ⟨by omega, hsound.tidy.limit, exists_step hjobs hsound.tidy, fun hs => ?_⟩
  -- The events settle every slot, whatever their order; the last two parts are about special events.
  have hsettled : ∀ i src slot, sources[i]? = some src → s.slots[i]? = some slot →
      Settled p es i src slot := fun i src slot hsrc hslot => hsound.settled hs hsrc hslot
  refine ⟨hsound.tidy.places, ?_, ?_, ?_⟩
  · intro i src slot hsrc hslot
    have h := hsettled i src slot hsrc hslot
    exact ⟨h.name_eq, h.exclusive, h⟩
  · intro hes
    rw [compileAll, List.map_map]
    refine slots_eq_map hsound.tidy.places fun i src slot hsrc hslot => ?_
    exact (hsettled i src slot hsrc hslot).uncancelled hes
  · intro hes
    rw [compileAll, List.map_map]
    refine slots_eq_map hsound.tidy.places fun i src slot hsrc hslot => ?_
    exact (hsettled i src slot hsrc hslot).cancelled_first hes

theorem empty_refused : ∃ r, compile sampleProfile [] = .error r := by
  have h : (compile sampleProfile []).isOk = false := by cbv
  cases hr : compile sampleProfile [] with
  | ok o => simp [hr, Except.isOk, Except.toBool] at h
  | error r => exact ⟨r, rfl⟩

/-- One worker compiles the sample and an empty source, which is refused. -/
theorem batch_ignores_schedule_pair : ∃ es s o r,
    Run sampleProfile [⟨"a.c", sampleSource⟩, ⟨"b.c", []⟩] 1 es s ∧
    s.Finished [⟨"a.c", sampleSource⟩, ⟨"b.c", []⟩] ∧
    compile sampleProfile sampleSource = .ok o ∧ compile sampleProfile [] = .error r ∧
    s.slots = [⟨"a.c", some o, none⟩, ⟨"b.c", none, some (.refused r)⟩] := by
  obtain ⟨⟨es, s, hrun, hes, hs⟩, hall⟩ :=
    batch_ignores_schedule sampleProfile [⟨"a.c", sampleSource⟩, ⟨"b.c", []⟩] 1 (Nat.le_refl 1)
  obtain ⟨-, -, -, hdone⟩ := hall es s hrun
  obtain ⟨-, -, hslots, -⟩ := hdone hs
  obtain ⟨ts, prog, hlex, hprog⟩ := sample_read
  obtain ⟨o, ho, -⟩ := exists_compile_eq_ok sampleProfile_flaw hlex hprog
  obtain ⟨r, hr⟩ := empty_refused
  refine ⟨es, s, o, r, hrun, hs, ho, hr, ?_⟩
  rw [hslots hes]
  simp only [compileAll, List.map_cons, List.map_nil, slot_of_compiled, ho, hr]
  rfl

end Batch

end Pocket

import Mathlib
import Pocket.Proofs.Calls
import Pocket.Proofs.LineNumbers

/-!
# Two readings side by side

Macros that take as many arguments and give the same texts for them are used alike: code is expanded to the
same text with either of them. So is code that uses only such macros, whatever the others are.

If two states are related, and every line takes related states to related states and writes the same text
in both, then reading the same lines from both comes to the same outcome, whatever files are included on
the way.
-/

namespace Pocket

/-! ### Macros that are used alike -/

/-- As many arguments are taken, and they give the same text. -/
structure Macro.Alike (m m' : Macro) : Prop where
  length : m'.params.length = m.params.length
  body : m.params = [] → m'.body = m.body
  instances : ∀ args, args.length = m.params.length → m'.instantiate args = m.instantiate args

theorem Macro.Alike.refl (m : Macro) : m.Alike m :=
  ⟨rfl, fun _ => rfl, fun _ _ => rfl⟩

theorem Macro.Alike.isEmpty {m m' : Macro} (h : m.Alike m') : m'.params.isEmpty = m.params.isEmpty := by
  have hlength := h.length
  cases hparams : m.params with
  | nil =>
    rw [hparams] at hlength
    rw [List.eq_nil_of_length_eq_zero hlength]
  | cons p ps =>
    cases hparams' : m'.params with
    | nil =>
      rw [hparams, hparams'] at hlength
      cases hlength
    | cons q qs => rfl

theorem Macro.Alike.call? {m m' : Macro} (h : m.Alike m') (t : Text) : m'.call? t = m.call? t := by
  rw [Macro.call?, Macro.call?, h.length]

/-- In texts of a kind, and in all that becomes of them, macros are used alike. -/
structure Macros.AlikeOn (P : Text → Prop) (ms ms' : Macros) : Prop where
  lookup : ∀ {b : UInt8} {rest w after : Text}, P (b :: rest) → Front.cut b rest = (.word w, after) →
    Option.Rel Macro.Alike (ms.lookup w) (ms'.lookup w)
  behind : ∀ {b : UInt8} {rest after : Text} {f : Front}, P (b :: rest) →
    Front.cut b rest = (f, after) → P after
  call : ∀ {b : UInt8} {rest w after beyond : Text} {m : Macro} {args : List Text}, P (b :: rest) →
    Front.cut b rest = (.word w, after) → ms.lookup w = some m → m.params ≠ [] →
    m.call? after = some (args, beyond) → P (m.instantiate args) ∧ P beyond

namespace Macros.AlikeOn

variable {P : Text → Prop} {ms ms' : Macros} {depth : Nat} {b : UInt8} {rest after w t : Text} {m : Macro}

theorem lookup_none (h : AlikeOn P ms ms') (ht : P (b :: rest)) (hcut : Front.cut b rest = (.word w, after))
    (hw : ms.lookup w = none) : ms'.lookup w = none := by
  have hrel := h.lookup ht hcut
  generalize ms'.lookup w = found at hrel ⊢
  rw [hw] at hrel
  cases hrel
  rfl

theorem lookup_some (h : AlikeOn P ms ms') (ht : P (b :: rest)) (hcut : Front.cut b rest = (.word w, after))
    (hm : ms.lookup w = some m) : ∃ m', ms'.lookup w = some m' ∧ m.Alike m' := by
  have hrel := h.lookup ht hcut
  generalize ms'.lookup w = found at hrel ⊢
  rw [hm] at hrel
  cases hrel with
  | some halike => exact ⟨_, rfl, halike⟩

theorem expand (h : AlikeOn P ms ms') (ht : P t) : ms'.expand depth t = ms.expand depth t := by
  fun_induction ms.expand depth t with
  | case1 => rw [Macros.expand]
  | case2 depth b rest t after hcut ih => rw [expand_plain hcut, ih (h.behind ht hcut)]
  | case3 depth b rest w after hcut hw ih =>
    rw [expand_word hcut, h.lookup_none ht hcut hw]
    dsimp only
    rw [ih (h.behind ht hcut)]
  | case4 depth b rest w after hcut m hm hparams ih =>
    obtain ⟨m', hm', halike⟩ := h.lookup_some ht hcut hm
    rw [expand_word hcut, hm']
    dsimp only
    rw [halike.isEmpty, if_pos hparams, halike.body (List.isEmpty_iff.mp hparams),
      ih (h.behind ht hcut)]
  -- The two macros have equally many parameters, so both are left alone or both are called.
  | case5 depth b rest w after hcut m hm hparams hcall ih =>
    obtain ⟨m', hm', halike⟩ := h.lookup_some ht hcut hm
    rw [expand_word hcut, hm']
    dsimp only
    rw [halike.isEmpty, if_neg hparams, halike.call?, hcall]
    dsimp only
    rw [ih (h.behind ht hcut)]
  | case6 b rest w after hcut m hm hparams args beyond hcall =>
    obtain ⟨m', hm', halike⟩ := h.lookup_some ht hcut hm
    rw [expand_word hcut, hm']
    dsimp only
    rw [halike.isEmpty, if_neg hparams, halike.call?, hcall]
  | case7 b rest w after hcut m hm hparams args beyond hcall depth ihinner ih =>
    obtain ⟨m', hm', halike⟩ := h.lookup_some ht hcut hm
    have hlength := (Macro.call?_eq_some_iff.mp hcall).2
    -- The text that the call is replaced by is asked for the same names, and so is what follows the call.
    obtain ⟨hinner, hbeyond⟩ := h.call ht hcut hm (by simpa using hparams) hcall
    rw [expand_word hcut, hm']
    dsimp only
    rw [halike.isEmpty, if_neg hparams, halike.call?, hcall]
    dsimp only
    rw [halike.instances args hlength, ihinner hinner, ih hbeyond]

theorem expandAll (h : AlikeOn P ms ms') {segments : List Segment}
    (hsegments : ∀ t, .code t ∈ segments → P t) :
    Segment.expandAll ms' depth segments = Segment.expandAll ms depth segments := by
  have hexpand : segments.mapM (Segment.expand ms' depth) = segments.mapM (Segment.expand ms depth) := by
    induction segments with
    | nil => rfl
    | cons segment rest ih =>
      have hfirst : segment.expand ms' depth = segment.expand ms depth := by
        cases segment with
        | code t => exact h.expand (hsegments t List.mem_cons_self)
        | kept t => rfl
      rw [List.mapM_cons, List.mapM_cons, hfirst, ih fun t ht => hsegments t (List.mem_cons_of_mem _ ht)]
  rw [Segment.expandAll, Segment.expandAll, hexpand]

end Macros.AlikeOn

/-- A definition that reads a macro whose body means the same leads to related macros, or fails for both. -/
theorem Directive.macrosAfter_alike {Q : Macros → Macros → Prop} {ms ms' : Macros} {depth : Nat} {d : Text}
    (hexpand : ∀ name m, readDefinition d = .ok (name, m) → ms'.expand depth m.body = ms.expand depth m.body)
    (hdefine : ∀ name m, (m.params ≠ [] → readDefinition d = .ok (name, m)) →
      Q (ms.define name m) (ms'.define name m)) :
    (∃ e, macrosAfter ms depth d = .error e ∧ macrosAfter ms' depth d = .error e) ∨
      ∃ us us', macrosAfter ms depth d = .ok us ∧ macrosAfter ms' depth d = .ok us' ∧ Q us us' := by
  rw [macrosAfter, macrosAfter]
  cases hread : readDefinition d with
  | error e => exact .inl ⟨e, rfl, rfl⟩
  | ok found =>
    obtain ⟨name, m⟩ := found
    change (∃ e, (if m.params.isEmpty then _ else _) = _ ∧ (if m.params.isEmpty then _ else _) = _) ∨
      ∃ us us', (if m.params.isEmpty then _ else _) = _ ∧ (if m.params.isEmpty then _ else _) = _ ∧ _
    split
    · rw [hexpand name m hread]
      cases ms.expand depth m.body with
      | none => exact .inl ⟨_, rfl, rfl⟩
      | some body => exact .inr ⟨_, _, rfl, rfl, hdefine name ⟨[], body⟩ (absurd rfl)⟩
    · exact .inr ⟨_, _, rfl, rfl, hdefine name m fun _ => hread⟩

namespace Preprocess

/-- The same is asked for, but for the states to go on from. -/
inductive Action.Alike (R : State → State → Prop) : Action → Action → Prop where
  | fail (e : Trouble) : Alike R (.fail e) (.fail e)
  | write (text : Text) {s s' : State} (h : R s s') : Alike R (.write text s) (.write text s')
  | enter (file path content : Text) : Alike R (.enter file path content) (.enter file path content)

/-- The same comes out, but for the states at the end. -/
inductive Outcome.Alike (R : State → State → Prop) : Outcome → Outcome → Prop where
  | error (e : Trouble) : Alike R (.error e) (.error e)
  | ok (text : Text) {s s' : State} (h : R s s') : Alike R (.ok (text, s)) (.ok (text, s'))

/-- A relation that every line of a kind keeps, and that including a file keeps too. -/
structure Kept (disk : Disk) (depth : Nat) (P : Text → Prop) (R : State → State → Prop) : Prop where
  region : ∀ {s s' : State}, R s s' → s'.region = s.region
  addSpliced : ∀ {s s' : State} (place : Place), R s s' → R (s.addSpliced place) (s'.addSpliced place)
  asks : ∀ (dir : Text) (reading : List Place) {s s' : State} {line : Text}, R s s' → P line →
    (action disk depth dir reading s line).Alike R (action disk depth dir reading s' line)
  contents : ∀ {dir : Text} {reading : List Place} {s : State} {line file path content : Text}, P line →
    action disk depth dir reading s line = .enter file path content → ∀ l ∈ content.lines, P l

variable {disk : Disk} {depth : Nat} {dir : Text} {reading : List Place} {number : Nat} {s s' : State}
  {lines : List Text} {log : List Event} {r r' : Outcome} {P : Text → Prop} {R : State → State → Prop}

theorem Outcome.Alike.behind (h : Outcome.Alike R r r') (text : Text) (rest : List Text) :
    Outcome.Alike R (r.behind text rest) (r'.behind text rest) := by
  cases h with
  | error e => exact .error e
  | ok more h => exact .ok _ h

theorem Outcome.Alike.map (h : Outcome.Alike R r r') (text : Text) :
    Outcome.Alike R (Except.map (fun out => (text ++ out.1, out.2)) r)
      (Except.map (fun out => (text ++ out.1, out.2)) r') := by
  cases h with
  | error e => exact .error e
  | ok more h => exact .ok _ h

theorem Outcome.Alike.ofFile (hregion : ∀ {s s' : State}, R s s' → s'.region = s.region)
    (h : Outcome.Alike R r r') (file : Text) : Outcome.Alike R (r.ofFile file) (r'.ofFile file) := by
  cases h with
  | error e => exact .error _
  | ok text h =>
    rw [Outcome.ofFile, Outcome.ofFile, hregion h]
    split
    · exact .ok text h
    · exact .error _

/-- Two states of which one line asks alike. -/
theorem action_alike {line : Text} (hspliced : s'.spliced = s.spliced) (hregion : s'.region = s.region)
    (hdefine : ∀ d, s.role line = .definition d →
      (∃ e, Directive.macrosAfter s.macros depth d = .error e ∧
        Directive.macrosAfter s'.macros depth d = .error e) ∨
      ∃ ms ms', Directive.macrosAfter s.macros depth d = .ok ms ∧
        Directive.macrosAfter s'.macros depth d = .ok ms' ∧
        R { s with macros := ms } { s' with macros := ms' })
    (hplain : s.role line = .plain →
      Segment.expandAll s'.macros depth (s.region.cutLine line).1 =
        Segment.expandAll s.macros depth (s.region.cutLine line).1 ∧
      R { s with region := (s.region.cutLine line).2 } { s' with region := (s.region.cutLine line).2 })
    (hs : R s s') :
    (action disk depth dir reading s line).Alike R (action disk depth dir reading s' line) := by
  have hrole : s'.role line = s.role line := by rw [State.role, State.role, hregion]
  rw [action, action, hrole]
  cases hline : s.role line with
  | definition d =>
    dsimp only
    rcases hdefine d hline with ⟨e, he, he'⟩ | ⟨ms, ms', hms, hms', hR⟩
    · rw [he, he']
      exact .fail e
    · rw [hms, hms']
      exact .write [] hR
  -- Whether a file is entered depends on the spliced files only, which are the same.
  | inclusion d =>
    dsimp only [inclusion]
    rw [hspliced]
    cases Directive.includedFile d with
    | error e => exact .fail e
    | ok file =>
      dsimp only
      split
      · exact .fail _
      · split
        · exact .write [] hs
        · split
          · exact .fail _
          · exact .enter _ _ _
  | plain =>
    obtain ⟨hexpand, hR⟩ := hplain hline
    dsimp only
    rw [hregion, hexpand]
    cases withinDepth depth (Segment.expandAll s.macros depth (s.region.cutLine line).1) with
    | error e => exact .fail e
    | ok text => exact .write text hR

theorem Kept.reads (hkept : Kept disk depth P R) (h : Reads disk depth dir reading number s lines log r)
    (hs : R s s') (hlines : ∀ line ∈ lines, P line) :
    ∃ log' r', Reads disk depth dir reading number s' lines log' r' ∧ Outcome.Alike R r r' := by
  induction h generalizing s' with
  | stop => exact ⟨_, _, .stop, .ok [] hs⟩
  | @fail dir reading number s line rest e h =>
    have halike := hkept.asks dir reading hs (hlines line List.mem_cons_self)
    generalize haction : action disk depth dir reading s' line = a at halike
    rw [h] at halike
    cases halike
    exact ⟨_, _, .fail haction, .error _⟩
  | @write dir reading number s t line text rest log r h _ ih =>
    obtain ⟨hline, hrest⟩ := List.forall_mem_cons.mp hlines
    have halike := hkept.asks dir reading hs hline
    generalize haction : action disk depth dir reading s' line = a at halike
    rw [h] at halike
    cases halike with
    | write _ ht =>
      obtain ⟨_, _, hreads, hr⟩ := ih ht hrest
      exact ⟨_, _, .write haction hreads, hr.behind text rest⟩
  | @enter dir reading number s t line text file path content rest inner log r₁ r h _ hfile _ ihinner ih =>
    obtain ⟨hline, hrest⟩ := List.forall_mem_cons.mp hlines
    have halike := hkept.asks dir reading hs hline
    generalize haction : action disk depth dir reading s' line = a at halike
    rw [h] at halike
    cases halike
    -- The file is read in both states, and what it leaves behind is alike again.
    obtain ⟨_, r₁', hinner, hr₁⟩ := ihinner (hkept.addSpliced _ hs) (hkept.contents hline h)
    have hfile' := hr₁.ofFile hkept.region file
    generalize hfound : r₁'.ofFile file = found at hfile'
    rw [hfile] at hfile'
    cases hfile' with
    | ok _ ht =>
      obtain ⟨_, _, hreads, hr⟩ := ih ht hrest
      exact ⟨_, _, .enter haction hinner hfound hreads, hr.behind text rest⟩
  -- The same file fails in the same way, so that the line does.
  | @broken dir reading number s line file path content rest inner r₁ e h _ hfile ihinner =>
    obtain ⟨hline, -⟩ := List.forall_mem_cons.mp hlines
    have halike := hkept.asks dir reading hs hline
    generalize haction : action disk depth dir reading s' line = a at halike
    rw [h] at halike
    cases halike
    obtain ⟨_, r₁', hinner, hr₁⟩ := ihinner (hkept.addSpliced _ hs) (hkept.contents hline h)
    have hfile' := hr₁.ofFile hkept.region file
    generalize hfound : r₁'.ofFile file = found at hfile'
    rw [hfile] at hfile'
    cases hfile'
    exact ⟨_, _, .broken haction hinner hfound, .error _⟩

theorem Kept.outcome (hkept : Kept disk depth P R) (hs : R s s') (hlines : ∀ line ∈ lines, P line) :
    Outcome.Alike R (forget (run disk depth dir reading number s lines))
      (forget (run disk depth dir reading number s' lines)) := by
  obtain ⟨log, hreads⟩ := reads_run disk depth dir reading number s lines
  obtain ⟨_, r', hreads', hr⟩ := hkept.reads hreads hs hlines
  rwa [hreads'.eq_run] at hr

theorem Outcome.Alike.texts (h : Outcome.Alike R r r') : r'.map (·.1) = r.map (·.1) := by
  cases h with
  | error e => rfl
  | ok text h => rfl

theorem preprocess_eq_outcome (disk : Disk) (depth : Nat) (dir : Text) (given : List (Text × Text))
    (source : Text) : preprocess disk depth dir given source =
      (forget (run disk depth dir [] 1 ⟨seed given, [], .code⟩ source.lines)).map (·.1) := by
  obtain ⟨log, hreads⟩ := reads_run disk depth dir [] 1 ⟨seed given, [], .code⟩ source.lines
  exact preprocess_of_reads hreads

/-! ### Lines that are read differently -/

theorem leftOpen_of_replaceLine {line text : Text} {t : State}
    (h : forget (replaceLine disk depth dir reading s line) = .ok (text, t)) (rest : List Text) :
    leftOpen s.region (line :: rest) = leftOpen t.region rest := by
  rw [replaceLine_eq] at h
  split at h
  · cases h
  · next haction =>
    cases h
    rcases action_write haction with ⟨d, _, hrole, -, -, rfl⟩ | ⟨_, -, -, -, ⟨d, hrole⟩, -, rfl⟩ |
      ⟨hrole, -, rfl⟩
    all_goals
      rw [State.role] at hrole
      rw [leftOpen, hrole]
  · next haction =>
    obtain ⟨-, ⟨d, hrole⟩, -⟩ := action_enter haction
    obtain ⟨-, hcode⟩ := Outcome.ofFile_eq_ok h
    have hregion := region_of_inclusion hrole
    rw [State.role] at hrole
    rw [leftOpen, hrole, hcode, hregion]

/-- Lines are read one after the other, from one state to another. The text they write ends with a line
break. -/
inductive Passes (disk : Disk) (depth : Nat) (dir : Text) (reading : List Place) :
    State → List Text → Text → State → Prop where
  | nil {s : State} : Passes disk depth dir reading s [] [] s
  | cons {s t u : State} {line text more : Text} {rest : List Text}
      (h : forget (replaceLine disk depth dir reading s line) = .ok (text, t))
      (hrest : Passes disk depth dir reading t rest more u) :
      Passes disk depth dir reading s (line :: rest) (text ++ "\n" ++ more) u

namespace Passes

variable {front rest : List Text} {before : Text} {t : State}

theorem region (h : Passes disk depth dir reading s front before t) :
    t.region = leftOpen s.region front := by
  induction h with
  | nil => rfl
  | cons h _ ih => rw [leftOpen_of_replaceLine h, ih]

theorem kept (hkept : Kept disk depth P R) (h : Passes disk depth dir reading s front before t)
    (hs : R s s) (hfront : ∀ line ∈ front, P line) : R t t := by
  induction h with
  | nil => exact hs
  | @cons s t u line text more rest h _ ih =>
    obtain ⟨hline, hrest⟩ := List.forall_mem_cons.mp hfront
    have hrun : forget (run disk depth dir reading 1 s [line]) = .ok (text, t) := by
      rw [run_cons, h]
      dsimp only
      rw [run]
      rfl
    have halike : Outcome.Alike R (forget (run disk depth dir reading 1 s [line])) _ :=
      hkept.outcome hs (List.forall_mem_singleton.mpr hline)
    rw [hrun] at halike
    cases halike with
    | ok _ ht => exact ih ht hrest

theorem run_append (h : Passes disk depth dir reading s front before t) (hrest : rest ≠ []) :
    forget (run disk depth dir reading number s (front ++ rest)) =
      (forget (run disk depth dir reading (number + front.length) t rest)).map
        fun out => (before ++ out.1, out.2) := by
  induction h generalizing number with
  | nil =>
    rw [List.nil_append, List.length_nil, Nat.add_zero]
    cases forget (run disk depth dir reading number _ rest) <;> rfl
  | @cons s t u line text more lines h _ ih =>
    have hnumber : number + (line :: lines).length = number + 1 + lines.length := by
      rw [List.length_cons]
      omega
    rw [List.cons_append, run_cons, h, hnumber]
    dsimp only
    rw [ih]
    cases forget (run disk depth dir reading (number + 1 + lines.length) u rest) with
    | error e => rfl
    | ok out => simp [Outcome.behind, Except.map, hrest]

end Passes

theorem passes_or_error (disk : Disk) (depth : Nat) (dir : Text) (reading : List Place) (number : Nat)
    (s : State) (front : List Text) : (∃ before t, Passes disk depth dir reading s front before t) ∨
      ∃ e, ∀ rest, forget (run disk depth dir reading number s (front ++ rest)) = .error e := by
  induction front generalizing s number with
  | nil => exact .inl ⟨[], s, .nil⟩
  | cons line front ih =>
    cases hline : forget (replaceLine disk depth dir reading s line) with
    | error e =>
      refine .inr ⟨.onLine number e, fun rest => ?_⟩
      rw [List.cons_append, run_cons, hline]
    | ok out =>
      obtain ⟨text, t⟩ := out
      rcases ih (number + 1) t with ⟨before, u, h⟩ | ⟨e, he⟩
      · exact .inl ⟨_, u, .cons hline h⟩
      · refine .inr ⟨e, fun rest => ?_⟩
        rw [List.cons_append, run_cons, hline]
        dsimp only
        rw [he]
        rfl

/-- What comes of a file, from what comes of its last lines. -/
theorem Passes.preprocess_eq {given : List (Text × Text)} {source before : Text} {front rest : List Text}
    {t : State} (h : Passes disk depth dir [] ⟨seed given, [], .code⟩ front before t)
    (hsource : source.lines = front ++ rest) (hrest : rest ≠ []) :
    preprocess disk depth dir given source =
      (forget (run disk depth dir [] (1 + front.length) t rest)).map (before ++ ·.1) := by
  rw [preprocess_eq_outcome, hsource, h.run_append hrest]
  cases forget (run disk depth dir [] (1 + front.length) t rest) <;> rfl

theorem exists_passes {given : List (Text × Text)} {source out : Text} {front rest : List Text}
    (hsource : source.lines = front ++ rest) (hrest : rest ≠ [])
    (hout : preprocess disk depth dir given source = .ok out) : ∃ before more t u,
      Passes disk depth dir [] ⟨seed given, [], .code⟩ front before t ∧
      forget (run disk depth dir [] (1 + front.length) t rest) = .ok (more, u) ∧ out = before ++ more := by
  rcases passes_or_error disk depth dir [] 1 ⟨seed given, [], .code⟩ front with ⟨before, t, h⟩ | ⟨e, he⟩
  · rw [h.preprocess_eq hsource hrest] at hout
    cases hrun : forget (run disk depth dir [] (1 + front.length) t rest) with
    | error e =>
      rw [hrun] at hout
      cases hout
    | ok r =>
      rw [hrun] at hout
      cases hout
      exact ⟨before, r.1, t, r.2, h, hrun, rfl⟩
  · rw [preprocess_eq_outcome, hsource, he] at hout
    cases hout

/-- Two files that differ in one line of code, which writes the same in both and leads to related
states. -/
theorem Kept.swap {line line' : Text} {front back : List Text} (hkept : Kept disk depth P R) (hs : R s s)
    (hfront : ∀ line ∈ front, P line)
    (hline : ∀ s : State, R s s → s.region = .code → ∃ text t t',
      action disk depth dir reading s line = .write text t ∧
      action disk depth dir reading s line' = .write text t' ∧ R t t')
    (hback : ∀ line ∈ back, P line) (hopen : leftOpen s.region front = .code) :
    Outcome.Alike R (forget (run disk depth dir reading number s (front ++ line :: back)))
      (forget (run disk depth dir reading number s (front ++ line' :: back))) := by
  rcases passes_or_error disk depth dir reading number s front with ⟨before, u, h⟩ | ⟨e, he⟩
  · obtain ⟨text, t, t', haction, haction', ht⟩ :=
      hline u (h.kept hkept hs hfront) (h.region.trans hopen)
    rw [h.run_append (List.cons_ne_nil _ _), h.run_append (List.cons_ne_nil _ _), run_cons, run_cons,
      replaceLine_eq, replaceLine_eq, haction, haction']
    exact ((hkept.outcome ht hback).behind text back).map before
  · rw [he, he]
    exact .error e

end Preprocess

end Pocket

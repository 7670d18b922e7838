import Mathlib
import Pocket.Proofs.Binding

/-!
# Runs of a declaration table

A table is asked one thing after the other, in any order: to enter a function, to resolve a name, or what
it holds. The requests with their answers are the log of the run. What the table holds can be told from
the log alone: the functions whose declaration was not refused, and of every routine the first place at
which its name was resolved to it. A request that is refused leaves no trace in any later answer.
-/

namespace Pocket.DeclTable

/-- What a table can be asked. -/
inductive Request where
  | declare (d : Decl)
  | resolve (name : Text) (pos : Position)
  | lookup (name : Text)
  | decls
  | externals
  | externalPos (name : Text)
  | print
  deriving DecidableEq, Repr

/-- What a table answers. -/
inductive Answer where
  | declared
  | bound (target : Binding)
  | refused (fault : Fault)
  | function (found : Option Decl)
  | functions (ds : List Decl)
  | names (ns : List Text)
  | place (pos : Option Position)
  | text (t : Text)
  deriving DecidableEq, Repr

/-- A request together with its answer. -/
abbrev Event := Request × Answer

/-- Answers a request; the table afterwards. -/
def serve (t : DeclTable) : Request → Answer × DeclTable
  | .declare d =>
    match t.declare d with
    | .ok t' => (.declared, t')
    | .error fault => (.refused fault, t)
  | .resolve name pos =>
    match t.resolve name pos with
    | .ok (target, t') => (.bound target, t')
    | .error fault => (.refused fault, t)
  | .lookup name => (.function (t.lookup? name), t)
  | .decls => (.functions t.decls, t)
  | .externals => (.names t.externalNames, t)
  | .externalPos name => (.place (t.externalPos? name), t)
  | .print => (.text t.render, t)

/-- Answers requests one after the other: the log, and the table at the end. -/
def serveAll (t : DeclTable) : List Request → List Event × DeclTable
  | [] => ([], t)
  | r :: rs =>
    let (a, t') := t.serve r
    let (log, last) := t'.serveAll rs
    ((r, a) :: log, last)

/-! ### What a log tells -/

/-- The function that an event enters. -/
def Event.declared? : Event → Option Decl
  | (.declare d, .declared) => some d
  | _ => none

/-- The routine that an event resolves a name to, with the place of the name. -/
def Event.called? : Event → Option (Text × Position)
  | (.resolve name pos, .bound .external) => some (name, pos)
  | _ => none

/-- The functions that were entered, in the order of their declarations. -/
def declaredIn (log : List Event) : List Decl :=
  log.filterMap Event.declared?

/-- The names that were resolved to routines, with their places, in order. -/
def calledIn (log : List Event) : List (Text × Position) :=
  log.filterMap Event.called?

/-- The names of the functions that were entered. -/
def namesIn (log : List Event) : List Text :=
  (declaredIn log).map (·.name)

/-- A table holds what the log of its run tells. -/
structure Recorded (p : Profile) (log : List Event) (t : DeclTable) : Prop where
  profile : t.profile = p
  decls : t.decls = declaredIn log
  distinct : (namesIn log).Nodup
  lookup : ∀ name, t.lookup? name = (declaredIn log).find? (·.name = name)
  routines : (t.externals.map (·.1)).Nodup
  externalPos : ∀ name, t.externalPos? name = (calledIn log).lookup name

/-- A text shows what a log tells: first the functions that were entered, then the routines that names were
resolved to, each with its first place; both in the order of their names. -/
def Shows (log : List Event) (text : Text) : Prop :=
  ∃ (ds : List Decl) (calls : List (Text × Position)),
    (ds.map (·.name)).Pairwise (Text.before · · = true) ∧ (∀ d, d ∈ ds ↔ d ∈ declaredIn log) ∧
    (calls.map (·.1)).Pairwise (Text.before · · = true) ∧
    (∀ name pos, (name, pos) ∈ calls ↔ (calledIn log).lookup name = some pos) ∧
    text = (if ds = [] then ("Functions: (empty)\n" : Text)
        else "Functions:\n" ++ (ds.flatMap functionLine : Text)) ++
      if calls = [] then ("" : Text)
      else "Externals:\n" ++ (calls.flatMap fun call => routineLine call.1 call.2 : Text)

/-- The answer to a request that is due after a log. -/
def Due (p : Profile) (log : List Event) (a : Answer) : Request → Prop
  | .declare d =>
    (a = .declared ∧ d.name ∉ namesIn log ∧ d.LabelFree p) ∨
      ((∃ fault, a = .refused fault) ∧
        (d.name ∈ namesIn log ∨ (d.name ≠ p.entry ∧ p.labelPrefix ++ d.name = p.startLabel)))
  | .resolve name _ =>
    (a = .bound .declared ∧ name ∈ namesIn log) ∨
      (a = .bound .external ∧ name ∉ namesIn log ∧ p.isExternal name = true) ∨
      ((∃ fault, a = .refused fault) ∧ name ∉ namesIn log ∧ p.isExternal name = false)
  | .lookup name => a = .function ((declaredIn log).find? (·.name = name))
  | .decls => a = .functions (declaredIn log)
  | .externals => ∃ ns, a = .names ns ∧ ns.Pairwise (Text.before · · = true) ∧
      ∀ name, name ∈ ns ↔ name ∈ (calledIn log).map (·.1)
  | .externalPos name => a = .place ((calledIn log).lookup name)
  | .print => ∃ text, a = .text text ∧ Shows log text

section

variable {p : Profile} {t t' : DeclTable} {log : List Event} {d : Decl} {name : Text}

theorem declaredIn_append (log more : List Event) :
    declaredIn (log ++ more) = declaredIn log ++ declaredIn more :=
  List.filterMap_append

theorem calledIn_append (log more : List Event) : calledIn (log ++ more) = calledIn log ++ calledIn more :=
  List.filterMap_append

theorem mem_keys_iff {entries : List (Text × Position)} :
    name ∈ entries.map (·.1) ↔ entries.lookup name ≠ none := by
  rw [Ne, List.lookup_eq_none_iff]
  simp

/-! ### What one request does -/

/-- An event that enters no function and calls no routine changes nothing. -/
theorem Recorded.idle {e : Event} (h : Recorded p log t) (hdeclared : e.declared? = none)
    (hcalled : e.called? = none) : Recorded p (log ++ [e]) t := by
  have hdecls : declaredIn (log ++ [e]) = declaredIn log := by
    rw [declaredIn_append]
    simp [declaredIn, hdeclared]
  have hcalls : calledIn (log ++ [e]) = calledIn log := by
    rw [calledIn_append]
    simp [calledIn, hcalled]
  refine ⟨h.profile, ?_, ?_, ?_, h.routines, ?_⟩
  · rw [hdecls, h.decls]
  · rw [namesIn, hdecls]
    exact h.distinct
  · rw [hdecls]
    exact h.lookup
  · rw [hcalls]
    exact h.externalPos

theorem Recorded.names_eq (h : Recorded p log t) : t.names = namesIn log := by
  rw [names, h.decls, namesIn]

theorem Recorded.declare (h : Recorded p log t) (hd : t.declare d = .ok t') :
    Recorded p (log ++ [(.declare d, .declared)]) t' := by
  obtain ⟨hname, -, rfl⟩ := declare_eq_ok_iff.mp hd
  rw [h.names_eq] at hname
  have hdecls : declaredIn (log ++ [(.declare d, .declared)]) = declaredIn log ++ [d] := by
    rw [declaredIn_append]
    rfl
  have hcalls : calledIn (log ++ [(.declare d, .declared)]) = calledIn log := by
    rw [calledIn_append]
    exact List.append_nil _
  refine ⟨h.profile, ?_, ?_, fun name => ?_, h.routines, ?_⟩
  · rw [hdecls, h.decls]
  · rw [namesIn, hdecls, List.map_append, List.nodup_append]
    refine ⟨h.distinct, List.nodup_singleton _, ?_⟩
    rintro name hmem last hlast rfl
    obtain rfl : name = d.name := List.mem_singleton.mp hlast
    exact hname hmem
  · rw [hdecls, lookup?, h.decls]
  · rw [hcalls]
    exact h.externalPos

/-- The place of a routine's first call stays; a routine that is new gets its place. -/
theorem Recorded.resolve {pos : Position} {target : Binding} (h : Recorded p log t)
    (hr : t.resolve name pos = .ok (target, t')) :
    Recorded p (log ++ [(.resolve name pos, .bound target)]) t' := by
  have hexternals := resolve_externals hr
  obtain ⟨-, htarget, called, rfl⟩ := resolve_ok hr
  rw [h.names_eq] at htarget hexternals
  dsimp only at hexternals
  -- A function answers the call, so that nothing is noted down.
  by_cases hname : name ∈ namesIn log
  · rw [if_pos hname] at htarget
    rw [if_pos (.inl hname)] at hexternals
    subst htarget hexternals
    exact h.idle rfl rfl
  rw [if_neg hname] at htarget
  subst htarget
  have hdecls : declaredIn (log ++ [(.resolve name pos, .bound .external)]) = declaredIn log := by
    rw [declaredIn_append]
    exact List.append_nil _
  have hcalls : calledIn (log ++ [(.resolve name pos, .bound .external)]) =
      calledIn log ++ [(name, pos)] := by
    rw [calledIn_append]
    rfl
  have hold := h.externalPos
  simp only [externalPos?] at hold
  refine ⟨h.profile, hdecls.symm ▸ h.decls, ?_, ?_, ?_, fun other => ?_⟩
  · rw [namesIn, hdecls]
    exact h.distinct
  · rw [hdecls]
    exact h.lookup
  · rw [hexternals]
    split
    · exact h.routines
    -- The name is new among the routines, which therefore stay distinct.
    · next hnew =>
      rw [List.map_append, List.nodup_append]
      refine ⟨h.routines, List.nodup_singleton _, ?_⟩
      rintro key hkey last hlast rfl
      obtain rfl : key = name := List.mem_singleton.mp hlast
      exact hnew (.inr (Option.isSome_iff_ne_none.mpr (mem_keys_iff.mp hkey)))
  -- What was noted first is found first: an earlier call hides the one at the end.
  · rw [hcalls, externalPos?, hexternals, List.lookup_append, ← hold]
    split
    · next hseen =>
      have hseen := hseen.resolve_left hname
      by_cases hother : other = name
      · obtain ⟨first, hfirst⟩ := Option.isSome_iff_exists.mp hseen
        rw [hother, hfirst]
        rfl
      · have hlast : [(name, pos)].lookup other = none := by
          simp [List.lookup_eq_none_iff, hother]
        rw [hlast, Option.or_none]
    · rw [List.lookup_append]

/-- Where every key has a value, the values have the keys. -/
theorem map_filterMap_eq {α β : Type} {f : α → Option β} {key : β → α} {xs : List α}
    (h : ∀ x ∈ xs, ∃ y, f x = some y ∧ key y = x) : (xs.filterMap f).map key = xs := by
  induction xs with
  | nil => rfl
  | cons x xs ih =>
    obtain ⟨⟨y, hy, hkey⟩, hxs⟩ := List.forall_mem_cons.mp h
    rw [List.filterMap_cons_some hy, List.map_cons, hkey, ih hxs]

theorem flatMap_getD {α β γ : Type} (f : α → Option β) (g : β → List γ) (xs : List α) :
    xs.flatMap (fun x => ((f x).map g).getD []) = (xs.filterMap f).flatMap g := by
  induction xs with
  | nil => rfl
  | cons x xs ih =>
    rw [List.flatMap_cons, ih]
    cases hx : f x with
    | none => rw [List.filterMap_cons_none hx]; rfl
    | some y => rw [List.filterMap_cons_some hx, List.flatMap_cons]; rfl

/-- The functions of a table in the order of their lines. -/
def listed (t : DeclTable) : List Decl :=
  (Text.sort t.names).filterMap t.lookup?

/-- The routines of a table with their first places, in the order of their lines. -/
def routed (t : DeclTable) : List (Text × Position) :=
  t.externalNames.filterMap fun name => (t.externalPos? name).map (name, ·)

theorem names_listed (t : DeclTable) : t.listed.map (·.name) = Text.sort t.names := by
  refine map_filterMap_eq fun name hname => ?_
  obtain ⟨d, hd⟩ := Option.isSome_iff_exists.mp (isSome_lookup?.mpr (Text.mem_sort.mp hname))
  exact ⟨d, hd, by simpa using List.find?_some hd⟩

theorem names_routed (t : DeclTable) : t.routed.map (·.1) = t.externalNames := by
  refine map_filterMap_eq fun name hname => ?_
  obtain ⟨pos, hpos⟩ := Option.ne_none_iff_exists'.mp (mem_keys_iff.mp (Text.mem_sort.mp hname))
  exact ⟨(name, pos), by rw [externalPos?, hpos]; rfl, rfl⟩

theorem mem_listed (h : t.names.Nodup) : d ∈ t.listed ↔ d ∈ t.decls := by
  rw [listed, List.mem_filterMap]
  constructor
  · rintro ⟨name, -, hd⟩
    exact List.mem_of_find?_eq_some hd
  · intro hd
    exact ⟨d.name, Text.mem_sort.mpr (List.mem_map_of_mem hd), find?_of_nodup h hd⟩

theorem mem_routed {pos : Position} : (name, pos) ∈ t.routed ↔ t.externalPos? name = some pos := by
  rw [routed, List.mem_filterMap]
  constructor
  · rintro ⟨other, -, hother⟩
    obtain ⟨place, hplace, heq⟩ := Option.map_eq_some_iff.mp hother
    cases heq
    exact hplace
  · intro hpos
    refine ⟨name, Text.mem_sort.mpr (mem_keys_iff.mpr ?_), by rw [hpos]; rfl⟩
    rw [← externalPos?, hpos]
    exact Option.some_ne_none pos

theorem render_eq (t : DeclTable) : t.render =
    (if t.listed = [] then ("Functions: (empty)\n" : Text)
      else "Functions:\n" ++ (t.listed.flatMap functionLine : Text)) ++
    if t.routed = [] then ("" : Text)
    else "Externals:\n" ++ (t.routed.flatMap fun call => routineLine call.1 call.2 : Text) := by
  have hlisted : t.decls.isEmpty = true ↔ t.listed = [] := by
    rw [← List.map_eq_nil_iff, names_listed, Text.sort_eq_nil_iff, names, List.map_eq_nil_iff, List.isEmpty_iff]
  have hrouted : t.externals.isEmpty = true ↔ t.routed = [] := by
    rw [← List.map_eq_nil_iff, names_routed, externalNames, Text.sort_eq_nil_iff, List.map_eq_nil_iff, List.isEmpty_iff]
  have hlines : (t.externalNames.flatMap fun name => ((t.externalPos? name).map (routineLine name)).getD []) =
      t.routed.flatMap fun call => routineLine call.1 call.2 := by
    rw [routed, ← flatMap_getD]
    simp only [Option.map_map, Function.comp_def]
  simp only [render, flatMap_getD t.lookup? functionLine, hlines, hlisted, hrouted]
  rfl

/-- The text of a table can be told from the log. -/
theorem Recorded.shows (h : Recorded p log t) : Shows log t.render := by
  have hnames : t.names.Nodup := by
    rw [h.names_eq]
    exact h.distinct
  refine ⟨t.listed, t.routed, ?_, fun d => ?_, ?_, fun name pos => ?_, render_eq t⟩
  · rw [names_listed]
    exact Text.sort_ascending hnames
  · rw [mem_listed hnames, h.decls]
  · rw [names_routed]
    exact Text.sort_ascending h.routines
  · rw [mem_routed, h.externalPos]

theorem serve_refused {r : Request} {fault : Fault} (h : (t.serve r).1 = .refused fault) :
    (t.serve r).2 = t := by
  cases r with
  | declare d =>
    cases hd : t.declare d <;> simp_all [serve]
  | resolve name pos =>
    cases hr : t.resolve name pos <;> simp_all [serve]
  | _ => rfl

/-- A request is answered as due, and the log goes on telling what the table holds. -/
theorem Recorded.serve (h : Recorded p log t) (r : Request) :
    Due p log (t.serve r).1 r ∧ Recorded p (log ++ [(r, (t.serve r).1)]) (t.serve r).2 := by
  cases r with
  | declare d =>
    cases hd : t.declare d with
    | ok t' =>
      obtain ⟨hname, hlabel, -⟩ := declare_eq_ok_iff.mp hd
      rw [h.names_eq] at hname
      rw [h.profile] at hlabel
      simp only [DeclTable.serve, hd]
      exact ⟨.inl ⟨rfl, hname, hlabel⟩, h.declare hd⟩
    | error fault =>
      -- A refusal has one of two reasons, since without them the declaration is accepted.
      have hnot : ¬(d.name ∉ namesIn log ∧ d.LabelFree p) := by
        rintro ⟨hname, hlabel⟩
        rw [← h.names_eq] at hname
        rw [← h.profile] at hlabel
        rw [declare_eq_ok_iff.mpr ⟨hname, hlabel, rfl⟩] at hd
        cases hd
      simp only [DeclTable.serve, hd]
      refine ⟨.inr ⟨⟨fault, rfl⟩, ?_⟩, h.idle rfl rfl⟩
      simpa [Decl.LabelFree, ← or_iff_not_imp_left] using hnot
  | resolve name pos =>
    cases hr : t.resolve name pos with
    | ok r =>
      obtain ⟨target, t'⟩ := r
      obtain ⟨hknown, htarget, -⟩ := resolve_ok hr
      have hdue := h.resolve hr
      rw [Known, h.names_eq, h.profile] at hknown
      rw [h.names_eq] at htarget
      simp only [DeclTable.serve, hr]
      refine ⟨?_, hdue⟩
      by_cases hname : name ∈ namesIn log
      · exact .inl ⟨by rw [htarget, if_pos hname], hname⟩
      · exact .inr (.inl ⟨by rw [htarget, if_neg hname], hname, hknown.resolve_left hname⟩)
    | error fault =>
      -- What is known would have been resolved.
      have hunknown : ¬t.Known name := by
        intro hknown
        obtain ⟨b, t', hok⟩ := resolve_known pos hknown
        rw [hr] at hok
        cases hok
      rw [Known, h.names_eq, h.profile, not_or, Bool.not_eq_true] at hunknown
      simp only [DeclTable.serve, hr]
      exact ⟨.inr (.inr ⟨⟨fault, rfl⟩, hunknown⟩), h.idle rfl rfl⟩
  | lookup name => exact ⟨congrArg Answer.function (h.lookup name), h.idle rfl rfl⟩
  | decls => exact ⟨congrArg Answer.functions h.decls, h.idle rfl rfl⟩
  | externals =>
    refine ⟨⟨t.externalNames, rfl, Text.sort_ascending h.routines, fun name => ?_⟩, h.idle rfl rfl⟩
    rw [externalNames, Text.mem_sort, mem_keys_iff, mem_keys_iff, ← h.externalPos, externalPos?]
  | externalPos name => exact ⟨congrArg Answer.place (h.externalPos name), h.idle rfl rfl⟩
  | print => exact ⟨⟨t.render, rfl, h.shows⟩, h.idle rfl rfl⟩

/-! ### What a run does -/

theorem recorded_empty (p : Profile) : Recorded p [] (empty p) :=
  ⟨rfl, rfl, List.nodup_nil, fun _ => rfl, List.nodup_nil, fun _ => rfl⟩

theorem serveAll_cons (t : DeclTable) (r : Request) (rs : List Request) :
    t.serveAll (r :: rs) =
      ((r, (t.serve r).1) :: ((t.serve r).2.serveAll rs).1, ((t.serve r).2.serveAll rs).2) :=
  rfl

theorem serveAll_requests (t : DeclTable) (rs : List Request) : (t.serveAll rs).1.map (·.1) = rs := by
  induction rs generalizing t with
  | nil => rfl
  | cons r rs ih => exact congrArg (r :: ·) (ih _)

theorem serveAll_append (t : DeclTable) (rs more : List Request) :
    t.serveAll (rs ++ more) =
      ((t.serveAll rs).1 ++ ((t.serveAll rs).2.serveAll more).1, ((t.serveAll rs).2.serveAll more).2) := by
  induction rs generalizing t with
  | nil => rfl
  | cons r rs ih =>
    rw [List.cons_append, serveAll_cons, ih, serveAll_cons, List.cons_append]

theorem Recorded.serveAll (h : Recorded p log t) (rs : List Request) :
    Recorded p (log ++ (t.serveAll rs).1) (t.serveAll rs).2 := by
  induction rs generalizing t log with
  | nil => simpa [DeclTable.serveAll] using h
  | cons r rs ih =>
    have hrest := ih (h.serve r).2
    rw [List.append_assoc] at hrest
    exact hrest

theorem serveAll_due (h : Recorded p log t) {rs : List Request} {before after : List Event} {r : Request}
    {a : Answer} (hlog : (t.serveAll rs).1 = before ++ (r, a) :: after) : Due p (log ++ before) a r := by
  induction rs generalizing t log before with
  | nil => simp [serveAll] at hlog
  | cons r' rs ih =>
    rw [serveAll_cons] at hlog
    obtain ⟨hdue, hnext⟩ := h.serve r'
    cases before with
    | nil =>
      obtain ⟨hfirst, -⟩ := List.cons.inj hlog
      cases hfirst
      rwa [List.append_nil]
    | cons e before =>
      obtain ⟨rfl, hrest⟩ := List.cons.inj hlog
      have hbehind := ih hnext hrest
      rwa [List.append_assoc] at hbehind

/-- A refused request can be left out: all other answers stay, and so does the table. -/
theorem serveAll_refused {before after : List Request} {r : Request} {fault : Fault}
    (h : ((t.serveAll before).2.serve r).1 = .refused fault) :
    ∃ front back, t.serveAll (before ++ r :: after) = (front ++ (r, .refused fault) :: back,
        (t.serveAll (before ++ after)).2) ∧
      front.map (·.1) = before ∧ back.map (·.1) = after ∧
      (t.serveAll (before ++ after)).1 = front ++ back := by
  refine ⟨(t.serveAll before).1, ((t.serveAll before).2.serveAll after).1, ?_, serveAll_requests _ _,
    serveAll_requests _ _, by rw [serveAll_append]⟩
  rw [serveAll_append, serveAll_append, serveAll_cons, h, serve_refused h]

end

/-- A table keeps its promises over every run: what it holds at the end, every answer on the way, that a
refused request changes no other answer, and that the place of a routine is never moved. -/
theorem table_follows_log (p : Profile) (rs : List Request) :
    ((empty p).serveAll rs).1.map (·.1) = rs ∧
    Recorded p ((empty p).serveAll rs).1 ((empty p).serveAll rs).2 ∧
    (∀ before r a after, ((empty p).serveAll rs).1 = before ++ (r, a) :: after → Due p before a r) ∧
    (∀ before r after fault, rs = before ++ r :: after →
      (((empty p).serveAll before).2.serve r).1 = .refused fault →
      ∃ front back, (empty p).serveAll rs = (front ++ (r, .refused fault) :: back,
          ((empty p).serveAll (before ++ after)).2) ∧
        front.map (·.1) = before ∧ back.map (·.1) = after ∧
        ((empty p).serveAll (before ++ after)).1 = front ++ back) ∧
    ∀ more name pos, ((empty p).serveAll rs).2.externalPos? name = some pos →
      ((empty p).serveAll (rs ++ more)).2.externalPos? name = some pos := by
  have hrun := (recorded_empty p).serveAll rs
  rw [List.nil_append] at hrun
  refine ⟨serveAll_requests _ _, hrun, fun before r a after => serveAll_due (recorded_empty p), ?_, ?_⟩
  · rintro before r after fault rfl
    exact serveAll_refused
  · intro more name pos hpos
    have hmore := hrun.serveAll more
    rw [serveAll_append, hmore.externalPos, calledIn_append, List.lookup_append, ← hrun.externalPos, hpos]
    rfl

/-- A name that is declared only after it was called as a routine keeps the place of that call. -/
example : ((empty .standard).serveAll [.resolve "_A" ⟨1, 2⟩, .declare ⟨"_A", "void", .stmts [], ⟨2, 6⟩⟩,
      .declare ⟨"_A", "int", .stmts [], ⟨3, 5⟩⟩, .resolve "_A" ⟨4, 1⟩, .externalPos "_A"]).1.map (·.2) =
    [.bound .external, .declared, .refused (.parse ⟨3, 5⟩ (.redeclared "_A" ⟨2, 6⟩)), .bound .declared,
      .place (some ⟨1, 2⟩)] := by
  cbv

end Pocket.DeclTable

import Mathlib
import Pocket.Proofs.Reading
import Pocket.Proofs.WordRuns

/-!
# Included files

Files are read at most once, whatever happens. If a source is preprocessed without trouble, the files that
were included can be put in the order in which they were finished, and every inclusion leads to a file that
was finished before all files that were being read at the time. So no file is included again while it is
being read, and inclusions never go round in a circle.
-/

namespace Pocket

theorem Disk.entry?_of_read {d : Disk} {path content : Text} (h : d.read path = .ok content) :
    d.entry? (d.place path) = some (.file content) := by
  unfold read at h
  split at h
  · cases h
  · next p hp =>
    rw [← locate_eq hp]
    split at h
    · next hentry =>
      cases h
      exact hentry
    · cases h
    · cases h

namespace Preprocess

variable {disk : Disk} {depth : Nat} {dir : Text} {reading : List Place} {number : Nat} {s t : State}
  {line text : Text} {lines : List Text} {log log' : List Event} {r : Outcome} {p : Place}

/-! ### Files are read once -/

/-- The place of a file that is read. -/
def Event.read? : Event → Option Place
  | .read place => some place
  | .included _ _ => none

/-- The places of the files that are read. -/
def readPlaces (log : List Event) : List Place :=
  log.filterMap Event.read?

theorem readPlaces_append (log log' : List Event) :
    readPlaces (log ++ log') = readPlaces log ++ readPlaces log' :=
  List.filterMap_append

theorem readPlaces_read (p : Place) (log : List Event) :
    readPlaces (.read p :: log) = p :: readPlaces log := rfl

theorem readPlaces_attempt : readPlaces (attempt disk dir reading s line) = [] := by
  unfold attempt
  cases target? disk dir s line <;> rfl

theorem spliced_of_write (h : action disk depth dir reading s line = .write text t) :
    t.spliced = s.spliced := by
  rcases action_write h with ⟨_, _, _, _, _, rfl⟩ | ⟨_, _, _, _, _, _, rfl⟩ | ⟨_, _, rfl⟩ <;> rfl

/-- Files at these places are read, each of them on the disk and not spliced in before; all of them are
spliced in, in the end. -/
structure ReadOnce (disk : Disk) (s : State) (places : List Place) (r : Outcome) : Prop where
  nodup : places.Nodup
  fresh : ∀ p ∈ places, p ∉ s.spliced
  there : ∀ p ∈ places, p ∈ disk.places
  spliced : ∀ text t, r = .ok (text, t) → ∀ p, p ∈ t.spliced ↔ p ∈ s.spliced ∨ p ∈ places

namespace ReadOnce

variable {places places' : List Place}

theorem none (h : t.spliced = s.spliced) : ReadOnce disk s [] (.ok (text, t)) := by
  refine ⟨.nil, by simp, by simp, fun text' t' hr p => ?_⟩
  cases hr
  simp [h]

theorem failed (h : ReadOnce disk s places r) (e : Trouble) : ReadOnce disk s places (.error e) :=
  ⟨h.nodup, h.fresh, h.there, fun _ _ hr => by cases hr⟩

theorem opened (h : ReadOnce disk (s.addSpliced p) places r) (hnew : p ∉ s.spliced)
    (hthere : p ∈ disk.places) : ReadOnce disk s (p :: places) r := by
  have hfresh : ∀ q ∈ places, q ≠ p ∧ q ∉ s.spliced := by
    intro q hq
    simpa [State.addSpliced] using h.fresh q hq
  refine ⟨List.nodup_cons.mpr ⟨fun hmem => (hfresh p hmem).1 rfl, h.nodup⟩, ?_, ?_, ?_⟩
  · exact List.forall_mem_cons.mpr ⟨hnew, fun q hq => (hfresh q hq).2⟩
  · exact List.forall_mem_cons.mpr ⟨hthere, h.there⟩
  · intro text t hr q
    rw [h.spliced text t hr q, State.addSpliced, List.mem_cons, List.mem_cons]
    exact or_assoc.trans or_left_comm

theorem andThen (h : ReadOnce disk s places (.ok (text, t))) (hrest : ReadOnce disk t places' r) :
    ReadOnce disk s (places ++ places') (r.behind text lines) := by
  have hmid := h.spliced text t rfl
  have hfresh : ∀ q ∈ places', q ∉ s.spliced ∧ q ∉ places := by
    intro q hq
    rw [← not_or, ← hmid]
    exact hrest.fresh q hq
  refine ⟨List.nodup_append.mpr ⟨h.nodup, hrest.nodup, ?_⟩, ?_, ?_, ?_⟩
  · rintro a ha b hb rfl
    exact (hfresh a hb).2 ha
  · exact List.forall_mem_append.mpr ⟨h.fresh, fun q hq => (hfresh q hq).1⟩
  · exact List.forall_mem_append.mpr ⟨h.there, hrest.there⟩
  · intro text' t' hr q
    obtain ⟨more, hmore, -⟩ := Outcome.behind_eq_ok hr
    rw [hrest.spliced more t' hmore, hmid, List.mem_append, or_assoc]

end ReadOnce

theorem Reads.readOnce (h : Reads disk depth dir reading number s lines log r) :
    ReadOnce disk s (readPlaces log) r := by
  induction h with
  | stop => exact .none rfl
  | @fail _ _ _ s =>
    have hnone : ReadOnce disk s [] (.ok ([], s)) := .none rfl
    rw [readPlaces_attempt]
    exact hnone.failed _
  | write haction _ ih =>
    rw [readPlaces_append, readPlaces_attempt]
    exact ReadOnce.none (spliced_of_write haction) |>.andThen ih
  | enter haction _ hfile _ ihinner ih =>
    obtain ⟨-, -, -, hnew, hread⟩ := action_enter haction
    rw [(Outcome.ofFile_eq_ok hfile).1] at ihinner
    rw [readPlaces_append, readPlaces_attempt, List.nil_append, readPlaces_read, readPlaces_append,
      ← List.cons_append]
    exact (ihinner.opened hnew (Disk.place_mem_places hread)).andThen ih
  | broken haction _ _ ihinner =>
    obtain ⟨-, -, -, hnew, hread⟩ := action_enter haction
    rw [readPlaces_append, readPlaces_attempt, List.nil_append, readPlaces_read]
    exact (ihinner.opened hnew (Disk.place_mem_places hread)).failed _

/-! ### Files are finished in an order -/

/-- The files that have been spliced in are those that are being read and those that are finished. -/
structure Finished (reading order : List Place) (s : State) : Prop where
  spliced : ∀ p, p ∈ s.spliced ↔ p ∈ order ∨ p ∈ reading
  apart : ∀ p ∈ reading, p ∉ order

theorem Finished.opened {order : List Place} (h : Finished reading order s) (hnew : p ∉ s.spliced) :
    Finished (p :: reading) order (s.addSpliced p) := by
  refine ⟨fun q => ?_, List.forall_mem_cons.mpr ⟨fun hp => hnew ((h.spliced p).mpr (.inl hp)), h.apart⟩⟩
  rw [State.addSpliced, List.mem_cons, List.mem_cons, h.spliced]
  exact or_left_comm

theorem Finished.closed {order : List Place} (h : Finished (p :: reading) order t) (hp : p ∉ reading) :
    Finished reading (order ++ [p]) t := by
  refine ⟨fun q => ?_, fun q hq hmem => ?_⟩
  · rw [h.spliced, List.mem_append, List.mem_cons, List.mem_singleton, or_assoc]
  · rcases List.mem_append.mp hmem with hmem | hmem
    · exact h.apart q (List.mem_cons_of_mem _ hq) hmem
    · exact hp (List.mem_singleton.mp hmem ▸ hq)

/-- Every inclusion leads to a file that is finished, and was finished before the files that were being
read, unless they still are. -/
def Earlier (reading order : List Place) (log : List Event) : Prop :=
  ∀ R p, Event.included R p ∈ log → p ∈ order ∧ ∀ a ∈ R, a ∈ reading ∨ order.idxOf p < order.idxOf a

theorem idxOf_lt_append {xs ys : List Place} {a : Place} (h : xs.idxOf p < xs.idxOf a) :
    (xs ++ ys).idxOf p < (xs ++ ys).idxOf a := by
  have hp : p ∈ xs := List.idxOf_lt_length_iff.mp (Nat.lt_of_lt_of_le h List.idxOf_le_length)
  rw [List.idxOf_append, List.idxOf_append, if_pos hp]
  split
  · exact h
  · have := List.idxOf_lt_length_iff.mpr hp
    omega

namespace Earlier

variable {order more : List Place}

theorem nil : Earlier reading order [] := by
  intro R p hmem
  cases hmem

theorem append (h : Earlier reading order log) (h' : Earlier reading order log') :
    Earlier reading order (log ++ log') := by
  intro R p hmem
  rcases List.mem_append.mp hmem with hmem | hmem
  · exact h R p hmem
  · exact h' R p hmem

theorem extend (h : Earlier reading order log) (more : List Place) :
    Earlier reading (order ++ more) log := by
  intro R p hmem
  obtain ⟨hp, hbefore⟩ := h R p hmem
  exact ⟨List.mem_append_left _ hp, fun a ha => (hbefore a ha).imp_right idxOf_lt_append⟩

/-- A file is finished after all files that were included while it was being read. -/
theorem finish (h : Earlier (p :: reading) order log) (hp : p ∉ order) :
    Earlier reading (order ++ [p]) log := by
  intro R q hmem
  obtain ⟨hq, hbefore⟩ := h R q hmem
  refine ⟨List.mem_append_left _ hq, fun a ha => ?_⟩
  rcases hbefore a ha with hreading | hlt
  · rcases List.mem_cons.mp hreading with rfl | hreading
    · right
      rw [List.idxOf_append, List.idxOf_append, if_pos hq, if_neg hp]
      have := List.idxOf_lt_length_iff.mpr hq
      omega
    · exact .inl hreading
  · exact .inr (idxOf_lt_append hlt)

theorem attempt (h : ∀ p, target? disk dir s line = some p → p ∈ order) :
    Earlier reading order (attempt disk dir reading s line) := by
  intro R p hmem
  rw [Preprocess.attempt, Option.mem_toList, Option.map_eq_some_iff] at hmem
  obtain ⟨q, hq, heq⟩ := hmem
  cases heq
  exact ⟨h p hq, fun a ha => .inl ha⟩

end Earlier

theorem target?_of_definition {rest : Text} (h : s.role line = .definition rest) :
    target? disk dir s line = none := by
  rw [target?, h]

theorem target?_of_plain (h : s.role line = .plain) : target? disk dir s line = none := by
  rw [target?, h]

/-- An inclusion that reads nothing leads to a file that is finished. -/
theorem target_of_write {order : List Place} (hs : Finished reading order s)
    (h : action disk depth dir reading s line = .write text t) (hp : target? disk dir s line = some p) :
    p ∈ order := by
  rcases action_write h with ⟨_, _, hrole, _⟩ | ⟨q, hq, hreading, hspliced, _⟩ | ⟨hrole, _⟩
  · rw [target?_of_definition hrole] at hp
    cases hp
  · cases hq.symm.trans hp
    exact ((hs.spliced p).mp hspliced).resolve_right hreading
  · rw [target?_of_plain hrole] at hp
    cases hp

theorem Reads.finished (h : Reads disk depth dir reading number s lines log r) {order : List Place}
    (hs : Finished reading order s) : ∀ text t, r = .ok (text, t) →
    ∃ more, Finished reading (order ++ more) t ∧ Earlier reading (order ++ more) log := by
  induction h generalizing order with
  | stop =>
    intro text t hr
    cases hr
    exact ⟨[], by rwa [List.append_nil], .nil⟩
  | fail | broken =>
    intro text t hr
    cases hr
  | write haction _ ih =>
    intro text t hr
    obtain ⟨_, hmore, -⟩ := Outcome.behind_eq_ok hr
    have hspliced := spliced_of_write haction
    obtain ⟨more, hfinished, hearlier⟩ := ih ⟨by rw [hspliced]; exact hs.spliced, hs.apart⟩ _ t hmore
    refine ⟨more, hfinished, .append (.attempt fun p hp => ?_) hearlier⟩
    exact List.mem_append_left _ (target_of_write hs haction hp)
  | @enter dir reading number s t₁ line text file path content rest inner log r₁ r haction _ hfile _
      ihinner ih =>
    intro text' t hr
    obtain ⟨_, hmore, -⟩ := Outcome.behind_eq_ok hr
    obtain ⟨htarget, -, hreading, hnew, -⟩ := action_enter haction
    obtain ⟨found, hinner, hinnerLog⟩ := ihinner (hs.opened hnew) _ _ (Outcome.ofFile_eq_ok hfile).1
    have hplace := hinner.apart _ List.mem_cons_self
    obtain ⟨more, hfinished, hearlier⟩ := ih (hinner.closed hreading) _ t hmore
    -- The file is finished after those it includes and before those of the lines behind it.
    have horder : order ++ (found ++ disk.place path :: more) =
        order ++ found ++ [disk.place path] ++ more := by simp
    refine ⟨found ++ disk.place path :: more, by rwa [horder], ?_⟩
    rw [horder]
    refine .append (.attempt fun p hp => ?_) ?_
    · cases htarget.symm.trans hp
      simp
    · have hall := ((hinnerLog.finish hplace).extend more).append hearlier
      intro R p hmem
      rcases List.mem_cons.mp hmem with heq | hmem
      · cases heq
      · exact hall R p hmem

/-! ### Circles -/

/-- A file was included while another one was being read. -/
def IncludedIn (log : List Event) (a b : Place) : Prop :=
  ∃ R, Event.included R b ∈ log ∧ a ∈ R

theorem Earlier.acyclic {order : List Place} (h : Earlier [] order log) (p : Place) :
    ¬Relation.TransGen (IncludedIn log) p p := by
  have hless : ∀ a b, IncludedIn log a b → order.idxOf b < order.idxOf a := by
    rintro a b ⟨R, hmem, ha⟩
    exact ((h R b hmem).2 a ha).resolve_left List.not_mem_nil
  have hgen : ∀ a b, Relation.TransGen (IncludedIn log) a b → order.idxOf b < order.idxOf a := by
    intro a b hab
    induction hab with
    | single hab => exact hless _ _ hab
    | tail _ hbc ih => exact Nat.lt_trans (hless _ _ hbc) ih
  exact fun hp => Nat.lt_irrefl _ (hgen p p hp)

theorem Earlier.not_circular {order R : List Place} (h : Earlier [] order log)
    (hmem : Event.included R p ∈ log) : p ∉ R := by
  intro hp
  rcases (h R p hmem).2 p hp with hnil | hlt
  · cases hnil
  · exact Nat.lt_irrefl _ hlt

theorem region_after_inclusion {d : Text} {t : s.Later disk} (hrole : s.role line = .inclusion d)
    (h : replaceLine disk depth dir reading s line = .ok (text, t)) : t.val.region = .code := by
  rcases replaceLine_cases h with haction | ⟨_, _, _, _, _, hcode⟩
  · rcases action_write haction with ⟨_, _, hother, _⟩ | ⟨_, _, _, _, _, _, hsame⟩ | ⟨hother, _⟩
    · cases hrole.symm.trans hother
    · rw [hsame]
      exact region_of_inclusion hrole
    · cases hrole.symm.trans hother
  · exact hcode

/-! ### Macros without parameters -/

/-- No definition among some lines has parameters. -/
def OnlyObjectLike (region : Region) (lines : List Text) : Prop :=
  ∀ d ∈ definitions region lines, ∀ name m, Directive.readDefinition d = .ok (name, m) → m.params = []

/-- No macro in force has parameters, and none will have that the lines define. -/
structure Plain (s : State) (lines : List Text) : Prop where
  macros : s.macros.ObjectLike
  lines : OnlyObjectLike s.region lines

/-- The body that a macro without parameters is given does not depend on the bound on nested calls. -/
theorem macrosAfter_eq {ms : Macros} {d : Text} (hms : ms.ObjectLike)
    (hd : ∀ name m, Directive.readDefinition d = .ok (name, m) → m.params = []) (depth : Nat) :
    Directive.macrosAfter ms depth d = (Directive.readDefinition d).map fun found =>
      ms.define found.1 ⟨[], found.2.body.replaceWords ms.body?⟩ := by
  rw [Directive.macrosAfter]
  cases hread : Directive.readDefinition d with
  | error e => rfl
  | ok found =>
    obtain ⟨name, m⟩ := found
    have hexpand := Macros.expand_eq hms depth m.body
    simp only [bind, Except.bind, hd name m hread, List.isEmpty_nil, if_true, hexpand]
    rfl

theorem objectLike_define {ms : Macros} (h : ms.ObjectLike) (name body : Text) :
    (ms.define name ⟨[], body⟩).ObjectLike := by
  intro w m hm
  rcases lookup_define hm with rfl | hm
  · rfl
  · exact h w m hm

namespace Plain

variable {rest : List Text} {file path content : Text}

theorem definition {d : Text} (h : Plain s (line :: rest)) (hrole : s.role line = .definition d) :
    (∀ name m, Directive.readDefinition d = .ok (name, m) → m.params = []) ∧
      OnlyObjectLike s.region rest := by
  have hlines := h.lines
  rw [OnlyObjectLike, definitions_of_definition hrole] at hlines
  exact List.forall_mem_cons.mp hlines

theorem action_eq (h : Plain s (line :: rest)) (depth depth' : Nat) :
    action disk depth dir reading s line = action disk depth' dir reading s line := by
  have hexpand : ∀ depth, Segment.expandAll s.macros depth (s.region.cutLine line).1 =
      some ((s.region.cutLine line).1.flatMap (Segment.written s.macros.body?)) := fun depth =>
    mapM_expand (Macros.expand_eq h.macros depth) _
  unfold action
  cases hrole : s.role line with
  | definition d =>
    have hd := (h.definition hrole).1
    dsimp only
    rw [macrosAfter_eq h.macros hd, macrosAfter_eq h.macros hd]
  | inclusion d => rfl
  | plain =>
    dsimp only
    rw [hexpand, hexpand]
    rfl

theorem write (h : Plain s (line :: rest))
    (haction : action disk depth dir reading s line = .write text t) : Plain t rest := by
  rcases action_write haction with ⟨d, macros, hrole, hmacros, _, rfl⟩ |
    ⟨_, _, _, _, ⟨d, hrole⟩, _, rfl⟩ | ⟨hrole, _, rfl⟩
  · obtain ⟨hd, hrest⟩ := h.definition hrole
    rw [macrosAfter_eq h.macros hd] at hmacros
    refine ⟨?_, hrest⟩
    cases hread : Directive.readDefinition d with
    | error e => rw [hread] at hmacros; cases hmacros
    | ok found =>
      rw [hread] at hmacros
      cases hmacros
      exact objectLike_define h.macros _ _
  · refine ⟨h.macros, ?_⟩
    rw [OnlyObjectLike, ← definitions_of_inclusion hrole]
    exact h.lines
  · refine ⟨h.macros, ?_⟩
    rw [OnlyObjectLike, ← definitions_of_plain hrole]
    exact h.lines

theorem enter (hfiles : ∀ p content, disk.entry? p = some (.file content) →
      OnlyObjectLike .code content.lines) (h : Plain s (line :: rest))
    (haction : action disk depth dir reading s line = .enter file path content) :
    Plain (s.addSpliced (disk.place path)) content.lines ∧
      ∀ t : State, Plain t [] → t.region = .code → Plain t rest := by
  obtain ⟨-, ⟨d, hrole⟩, -, -, hread⟩ := action_enter haction
  have hcode := region_of_inclusion hrole
  have hlines := h.lines
  rw [OnlyObjectLike, definitions_of_inclusion hrole, hcode] at hlines
  refine ⟨⟨h.macros, ?_⟩, fun t ht htcode => ⟨ht.macros, ?_⟩⟩
  · change OnlyObjectLike s.region content.lines
    rw [hcode]
    exact hfiles _ content (Disk.entry?_of_read hread)
  · rw [htcode]
    exact hlines

end Plain

/-- Without parameters the bound on nested calls does not show. -/
theorem Reads.at_depth (hfiles : ∀ p content, disk.entry? p = some (.file content) →
      OnlyObjectLike .code content.lines) (h : Reads disk depth dir reading number s lines log r)
    (hs : Plain s lines) (depth' : Nat) : Reads disk depth' dir reading number s lines log r := by
  induction h with
  | stop => exact .stop
  | fail haction => exact .fail ((hs.action_eq depth' depth).trans haction)
  | write haction _ ih =>
    exact .write ((hs.action_eq depth' depth).trans haction) (ih (hs.write haction))
  | enter haction hinner hfile _ ihinner ih =>
    obtain ⟨hfirst, hthen⟩ := hs.enter hfiles haction
    obtain ⟨hinner_ok, hcode⟩ := Outcome.ofFile_eq_ok hfile
    have hlast := hinner.keeps (fun hs haction => hs.write haction)
      (fun hs haction => hs.enter hfiles haction) hfirst _ _ hinner_ok
    exact .enter ((hs.action_eq depth' depth).trans haction) (ihinner hfirst) hfile
      (ih (hthen _ hlast hcode))
  | broken haction _ hfile ihinner =>
    obtain ⟨hfirst, -⟩ := hs.enter hfiles haction
    exact .broken ((hs.action_eq depth' depth).trans haction) (ihinner hfirst) hfile

/-! ### Preprocessing -/

/-- With macros that have no parameters, every source has one reading, which no bound on nested calls
shows in. No file is read twice, nor any that is not on the disk. Without trouble no file was included
while it was being read, nor did inclusions go round in a circle. An inclusion leaves code behind it. -/
theorem inclusions_end (disk : Disk) (dir : Text) (given : List (Text × Text)) (source : Text)
    (hsource : OnlyObjectLike .code source.lines)
    (hfiles : ∀ p content, disk.entry? p = some (.file content) → OnlyObjectLike .code content.lines) :
    ∃ log r,
      (∀ depth, preprocess disk depth dir given source = r.map (·.1) ∧
        ∀ log' r', Reads disk depth dir [] 1 ⟨seed given, [], .code⟩ source.lines log' r' ↔
          log' = log ∧ r' = r) ∧
      ((readPlaces log).Nodup ∧ ∀ p ∈ readPlaces log, p ∈ disk.places) ∧
      (∀ out t, r = .ok (out, t) → ∀ p, ¬Relation.TransGen (IncludedIn log) p p) ∧
      (∀ R p, Event.included R p ∈ log → p ∈ R → ∃ e, r = .error e) ∧
      ∀ depth dir reading s line d text t, s.role line = .inclusion d →
        replaceLine disk depth dir reading s line = .ok (text, t) → t.val.region = .code := by
  have hplain : Plain ⟨seed given, [], .code⟩ source.lines := ⟨objectLike_seed given, hsource⟩
  have hstart : Finished [] [] ⟨seed given, [], .code⟩ := ⟨by simp, by simp⟩
  obtain ⟨log, hlog⟩ := reads_run disk 0 dir [] 1 ⟨seed given, [], .code⟩ source.lines
  generalize forget (run disk 0 dir [] 1 ⟨seed given, [], .code⟩ source.lines) = r at hlog
  refine ⟨log, r, fun depth => ?_, ⟨hlog.readOnce.nodup, hlog.readOnce.there⟩, ?_, ?_, ?_⟩
  · have hdepth := hlog.at_depth hfiles hplain depth
    refine ⟨preprocess_of_reads hdepth, fun log' r' => ⟨hdepth.unique, ?_⟩⟩
    rintro ⟨rfl, rfl⟩
    exact hdepth
  -- A file is finished before one that includes it, which is an order on the files.
  · intro out t hr
    obtain ⟨_, -, hearlier⟩ := hlog.finished hstart out t hr
    exact hearlier.acyclic
  · intro R p hmem hp
    cases hr : r with
    | error e => exact ⟨e, rfl⟩
    -- A file that includes itself would have to be finished before it was.
    | ok found =>
      obtain ⟨_, -, hearlier⟩ := hlog.finished hstart _ _ hr
      exact absurd hp (hearlier.not_circular hmem)
  · intro depth dir reading s line d text t hrole h
    exact region_after_inclusion hrole h

/-! Two files that both include a third one. -/

def diamondDisk : Disk :=
  ⟨[], [(["a.h"], .file "#include \"c.h\""), (["b.h"], .file "#include \"c.h\""),
    (["c.h"], .file "#define N 1")]⟩

def diamondSource : Text := "#include \"a.h\"\n#include \"b.h\"\nN"

def diamondLog : List Event :=
  [.included [] ["a.h"], .read ["a.h"], .included [["a.h"]] ["c.h"], .read ["c.h"],
    .included [] ["b.h"], .read ["b.h"], .included [["b.h"]] ["c.h"]]

theorem reads_diamond : ∃ t, Reads diamondDisk 0 [] [] 1 ⟨seed [], [], .code⟩ diamondSource.lines
    diamondLog (.ok ("\n\n1", t)) := by
  let ms : Macros := [("N", ⟨[], "1"⟩)]
  have hleft : action diamondDisk 0 [] [] ⟨[], [], .code⟩ "#include \"a.h\"" =
      .enter "a.h" "a.h" "#include \"c.h\"" := rfl
  have hshared : action diamondDisk 0 "." [["a.h"]] ⟨[], [["a.h"]], .code⟩ "#include \"c.h\"" =
      .enter "c.h" "c.h" "#define N 1" := rfl
  have hdefine : action diamondDisk 0 "." [["c.h"], ["a.h"]] ⟨[], [["c.h"], ["a.h"]], .code⟩
      "#define N 1" = .write [] ⟨ms, [["c.h"], ["a.h"]], .code⟩ := by cbv
  have hright : action diamondDisk 0 [] [] ⟨ms, [["c.h"], ["a.h"]], .code⟩ "#include \"b.h\"" =
      .enter "b.h" "b.h" "#include \"c.h\"" := rfl
  have hname : action diamondDisk 0 [] [] ⟨ms, [["b.h"], ["c.h"], ["a.h"]], .code⟩ "N" =
      .write "1" ⟨ms, [["b.h"], ["c.h"], ["a.h"]], .code⟩ := by cbv
  have hthird : Reads diamondDisk 0 "." [["c.h"], ["a.h"]] 1 ⟨[], [["c.h"], ["a.h"]], .code⟩
      ["#define N 1"] [] (.ok ([], ⟨ms, [["c.h"], ["a.h"]], .code⟩)) := .write hdefine .stop
  have hfirst : Reads diamondDisk 0 "." [["a.h"]] 1 ⟨[], [["a.h"]], .code⟩ ["#include \"c.h\""]
      [.included [["a.h"]] ["c.h"], .read ["c.h"]] (.ok ([], ⟨ms, [["c.h"], ["a.h"]], .code⟩)) :=
    (Reads.enter hshared hthird rfl .stop :)
  -- The second time around, the shared file is passed over.
  have hsecond : Reads diamondDisk 0 "." [["b.h"]] 1 ⟨ms, [["b.h"], ["c.h"], ["a.h"]], .code⟩
      ["#include \"c.h\""] [.included [["b.h"]] ["c.h"]]
      (.ok ([], ⟨ms, [["b.h"], ["c.h"], ["a.h"]], .code⟩)) :=
    .write rfl .stop
  exact ⟨_, (Reads.enter hleft hfirst rfl (.enter hright hsecond rfl (.write hname .stop)) :)⟩

theorem onlyObjectLike_diamond (p : Place) (content : Text)
    (h : diamondDisk.entry? p = some (.file content)) : OnlyObjectLike .code content.lines := by
  have hmem : .file content ∈ diamondDisk.entries.map (·.2) := by
    unfold Disk.entry? at h
    split at h
    · cases h
    · obtain ⟨before, after, heq, -⟩ := List.lookup_eq_some_iff.mp h
      rw [heq]
      simp
  simp only [diamondDisk, List.map_cons, List.map_nil, List.mem_cons, Disk.Entry.file.injEq,
    List.not_mem_nil, or_false] at hmem
  rcases hmem with rfl | rfl | rfl
  · intro d hd
    cases hd
  · intro d hd
    cases hd
  · intro d hd name m hread
    cases List.mem_singleton.mp hd
    cases hread
    rfl

theorem inclusions_end_diamond :
    (∀ depth, preprocess diamondDisk depth [] [] diamondSource = .ok "\n\n1") ∧
      readPlaces diamondLog = ([["a.h"], ["c.h"], ["b.h"]] : List Place) ∧
      ∀ p, ¬Relation.TransGen (IncludedIn diamondLog) p p := by
  have hsource : OnlyObjectLike .code diamondSource.lines := by
    intro d hd
    cases hd
  obtain ⟨log, r, hread, -, hcircles, -⟩ :=
    inclusions_end diamondDisk [] [] diamondSource hsource onlyObjectLike_diamond
  obtain ⟨t, hreads⟩ := reads_diamond
  obtain ⟨rfl, rfl⟩ := ((hread 0).2 _ _).mp hreads
  exact ⟨fun depth => (hread depth).1, rfl, hcircles _ _ rfl⟩

end Preprocess

end Pocket

import Mathlib
import Pocket.Proofs.RawKept
import Pocket.Proofs.Diagnosed
import Pocket.Proofs.Reading
import Pocket.Proofs.Verbatim

/-!
# Line numbers

A macro that is defined on a line has a body without line breaks, and so have the arguments of its calls.
However often macros are expanded, a line is therefore replaced by one line: only an inclusion brings
more of them.

What a line is replaced by can be told from the line itself, from the definitions on the lines before it
and from what these lines leave open.
-/

namespace Pocket

/-! ### Texts of one line -/

section

variable {a b t : Text} {c : UInt8}

theorem Text.oneLine_append : (a ++ b).OneLine ↔ a.OneLine ∧ b.OneLine := by
  rw [OneLine, List.mem_append, not_or]
  rfl

theorem Text.oneLine_cons : Text.OneLine (c :: t) ↔ newline ≠ c ∧ t.OneLine := by
  rw [OneLine, List.mem_cons, not_or]
  rfl

theorem Text.OneLine.of_subset (h : t.OneLine) (hsub : a ⊆ t) : a.OneLine :=
  fun hmem => h (hsub hmem)

theorem Text.OneLine.of_dropWhile {p : UInt8 → Bool} (h : t.OneLine) (hdrop : t.dropWhile p = c :: a) :
    Text.OneLine (c :: a) := by
  rw [← hdrop]
  exact h.of_subset (List.dropWhile_suffix p).subset

theorem Text.OneLine.trim (h : t.OneLine) : t.trim.OneLine :=
  fun hmem => h (mem_of_mem_trim hmem)

theorem Text.OneLine.cut? {before after : Text} (hcut : t.cut? c = some (before, after)) (h : t.OneLine) :
    after.OneLine := by
  unfold Text.cut? at hcut
  split at hcut
  · cases hcut
  · next hdrop =>
    cases hcut
    exact (Text.oneLine_cons.mp (h.of_dropWhile hdrop)).2

theorem Text.OneLine.map_append {more : Option Text} (h : a.OneLine) (hmore : ∀ t ∈ more, t.OneLine) :
    ∀ out ∈ more.map (a ++ ·), Text.OneLine out := by
  intro out hout
  obtain ⟨t, ht, rfl⟩ := Option.map_eq_some_iff.mp hout
  exact h.append (hmore t ht)

theorem Front.cut_oneLine {rest after : Text} {f : Front} (hcut : Front.cut c rest = (f, after))
    (h : Text.OneLine (c :: rest)) : f.bytes.OneLine ∧ after.OneLine := by
  rw [← Front.cut_split hcut] at h
  exact Text.oneLine_append.mp h

theorem Text.replaceWords_oneLine {value : Text → Option Text} (h : t.OneLine)
    (hvalue : ∀ w v, value w = some v → v.OneLine) : (t.replaceWords value).OneLine := by
  fun_induction Text.replaceWords value t with
  | case1 => exact h
  | case2 c rest f after hcut ih =>
    obtain ⟨hfront, hafter⟩ := Front.cut_oneLine hcut h
    exact .append hfront (ih hafter)
  | case3 c rest w after hcut ih =>
    obtain ⟨hfront, hafter⟩ := Front.cut_oneLine hcut h
    refine .append ?_ (ih hafter)
    cases hw : value w with
    | none => exact hfront
    | some v => exact hvalue w v hw

end

/-! ### Macros -/

section

variable {t after : Text} {args : List Text} {ms : Macros} {m : Macro} {depth : Nat}

theorem Macro.takeArguments_oneLine {nested : Nat} {current : Text}
    (h : takeArguments nested current t = some (args, after)) (hcurrent : current.OneLine)
    (ht : t.OneLine) : (∀ arg ∈ args, arg.OneLine) ∧ after.OneLine := by
  have hread : ∀ {current : Text}, current.OneLine → (Text.trim current.reverse).OneLine :=
    fun hcurrent => Text.OneLine.trim (hcurrent.of_subset fun _ => List.mem_reverse.mp)
  fun_induction takeArguments nested current t generalizing args with
  | case1 => cases h
  | case2 _ _ _ ih | case4 _ _ _ _ ih | case6 _ _ _ _ _ _ _ ih =>
    -- The byte goes on the argument that is being read.
    obtain ⟨hb, hrest⟩ := Text.oneLine_cons.mp ht
    exact ih h (Text.oneLine_cons.mpr ⟨hb, hcurrent⟩) hrest
  | case3 current rest =>
    cases h
    exact ⟨List.forall_mem_singleton.mpr (hread hcurrent), (Text.oneLine_cons.mp ht).2⟩
  | case5 nested current b rest _ _ _ ih =>
    obtain ⟨⟨more, after'⟩, hmore, heq⟩ := Option.map_eq_some_iff.mp h
    cases heq
    obtain ⟨hargs, hafter⟩ := ih hmore List.not_mem_nil (Text.oneLine_cons.mp ht).2
    exact ⟨List.forall_mem_cons.mpr ⟨hread hcurrent, hargs⟩, hafter⟩

theorem Macro.call?_oneLine (h : m.call? t = some (args, after)) (ht : t.OneLine) :
    (∀ arg ∈ args, arg.OneLine) ∧ after.OneLine := by
  have hargs := (Option.filter_eq_some_iff.mp h).1
  unfold arguments? at hargs
  split at hargs
  · cases hargs
  · next b rest hdrop =>
    split at hargs
    · exact takeArguments_oneLine hargs List.not_mem_nil (Text.oneLine_cons.mp (ht.of_dropWhile hdrop)).2
    · cases hargs

theorem Macro.instantiate_oneLine (hbody : m.body.OneLine) (hargs : ∀ arg ∈ args, arg.OneLine) :
    (m.instantiate args).OneLine := by
  refine Text.replaceWords_oneLine hbody fun w v hv => ?_
  have hmem : (w, v) ∈ m.params.zip args := List.mem_reverse.mp (mem_of_lookup hv)
  exact hargs v (List.of_mem_zip hmem).2

/-- No macro has a line break in its body. -/
def Macros.OneLine (ms : Macros) : Prop :=
  ∀ w m, ms.lookup w = some m → m.body.OneLine

theorem Macros.OneLine.define (h : ms.OneLine) (name : Text) (hbody : m.body.OneLine) :
    (ms.define name m).OneLine := by
  intro w m' hm
  rcases Preprocess.lookup_define hm with rfl | hm
  · exact hbody
  · exact h w m' hm

theorem Macros.expand_oneLine (hms : ms.OneLine) (ht : t.OneLine) :
    ∀ out ∈ ms.expand depth t, out.OneLine := by
  fun_induction Macros.expand ms depth t with
  | case1 =>
    intro out hout
    cases hout
    exact ht
  | case2 _ _ _ _ _ hcut ih | case3 _ _ _ _ _ hcut _ ih | case5 _ _ _ _ _ hcut _ _ _ _ ih =>
    -- A literal, a byte, a word that is no macro or a macro that is not called stays as it is.
    obtain ⟨hfront, hafter⟩ := Front.cut_oneLine hcut ht
    exact hfront.map_append (ih hafter)
  | case4 depth c rest w after hcut m hm _ ih =>
    obtain ⟨-, hafter⟩ := Front.cut_oneLine hcut ht
    exact (hms w m hm).map_append (ih hafter)
  | case6 =>
    intro out hout
    cases hout
  | case7 c rest w after hcut m hm _ args beyond hcall d ihinner ihtail =>
    intro out hout
    obtain ⟨-, hafter⟩ := Front.cut_oneLine hcut ht
    obtain ⟨hargs, hbeyond⟩ := Macro.call?_oneLine hcall hafter
    obtain ⟨inner, hinner, hout⟩ := Option.bind_eq_some_iff.mp hout
    obtain ⟨tail, htail, hout⟩ := Option.bind_eq_some_iff.mp hout
    cases hout
    exact .append (ihinner (Macro.instantiate_oneLine (hms w m hm) hargs) inner hinner)
      (ihtail hbeyond tail htail)

end

/-! ### Lines -/

/-- The text of a segment as it was written. -/
def Segment.text : Segment → Text
  | .code t => t
  | .kept t => t

theorem Region.lead_text (segment : Segment) (others : List Segment × Region) :
    (lead segment others).1.flatMap Segment.text = segment.text ++ others.1.flatMap Segment.text :=
  List.flatMap_cons

/-- Cutting a line loses nothing. -/
theorem Region.segments_text (region : Region) (held rest : Text) :
    (region.segments held rest).1.flatMap Segment.text = held ++ rest := by
  fun_induction Region.segments region held rest with
  | case1 region held =>
    cases region <;> simp [Segment.text]
  | case2 held b tail _ | case4 held b tail _ => simp [Segment.text]
  | case3 held b tail inside after hcut ih | case5 held b tail inside after hcut ih =>
    rw [lead_text, ih, (Text.cutAfter?_eq_some hcut).1]
    simp [Segment.text]
  | case6 held b tail _ ih =>
    rw [ih]
    simp
  | case7 held tail _ ih =>
    rw [lead_text, ih]
    simp [Segment.text]
  | case8 held b tail _ _ ih => exact ih
  | case9 held b tail _ => simp [Segment.text]
  | case10 held b tail _ hopen ih =>
    obtain ⟨more, hmore⟩ := Text.startsWith_iff.mp hopen
    have htail : tail = '*'.toUInt8 :: more := (List.cons.inj hmore).2.symm
    rw [lead_text, ih, ← hmore, htail]
    rfl
  | case11 held b tail _ _ t after hcut ih =>
    rw [ih, ← Front.cut_split hcut]
    simp [Front.bytes]
  | case12 held b tail _ _ after hcut ih =>
    rw [lead_text, ih, ← Front.cut_split hcut]
    simp [Front.bytes, Segment.text]
  | case13 held b tail _ _ w after hcut _ ih =>
    rw [ih, ← Front.cut_split hcut]
    simp [Front.bytes]

section

variable {ms : Macros} {depth : Nat} {segments : List Segment}

theorem Segment.expandAll_cons (segment : Segment) : expandAll ms depth (segment :: segments) =
    (segment.expand ms depth).bind fun t => (expandAll ms depth segments).map (t ++ ·) := by
  rw [expandAll, expandAll, List.mapM_cons]
  cases segment.expand ms depth with
  | none => rfl
  | some t => cases segments.mapM (Segment.expand ms depth) <;> rfl

theorem Segment.expand_oneLine {segment : Segment} (hms : ms.OneLine) (h : segment.text.OneLine) :
    ∀ out ∈ segment.expand ms depth, out.OneLine := by
  cases segment with
  | code t => exact Macros.expand_oneLine hms h
  | kept t =>
    intro out hout
    cases hout
    exact h

theorem Segment.expandAll_oneLine (hms : ms.OneLine) (h : Text.OneLine (segments.flatMap Segment.text)) :
    ∀ out ∈ expandAll ms depth segments, out.OneLine := by
  induction segments with
  | nil =>
    intro out hout
    cases hout
    exact List.not_mem_nil
  | cons segment segments ih =>
    intro out hout
    rw [List.flatMap_cons] at h
    obtain ⟨hfirst, hrest⟩ := Text.oneLine_append.mp h
    rw [expandAll_cons] at hout
    obtain ⟨t, ht, hout⟩ := Option.bind_eq_some_iff.mp hout
    exact (expand_oneLine hms hfirst t ht).map_append (ih hrest) out hout

end

namespace Directive

open Preprocess

variable {line d name : Text} {m : Macro} {ms ms' : Macros} {depth : Nat}

theorem oneLine_of_definition (h : ofLine line = .definition d) (hline : line.OneLine) : d.OneLine := by
  unfold ofLine at h
  dsimp only at h
  split at h
  · next rest hrest =>
    cases h
    have htrim := hline.trim
    rw [Text.after?_eq_some_iff.mp hrest] at htrim
    exact (Text.oneLine_append.mp htrim).2.trim
  · split at h <;> cases h

theorem ofLine_definition (h : Text.startsWith line.trim "#define" = true) :
    ∃ d, ofLine line = .definition d := by
  obtain ⟨rest, hrest⟩ := Option.isSome_iff_exists.mp h
  exact ⟨rest.trim, by rw [ofLine, hrest]⟩

theorem ofLine_ne_inclusion (h : Text.startsWith line.trim "#include" = false) (d : Text) :
    ofLine line ≠ .inclusion d := by
  intro heq
  unfold ofLine at heq
  dsimp only at heq
  split at heq
  · cases heq
  · rw [h] at heq
    cases heq

theorem readDefinition_oneLine (h : readDefinition d = .ok (name, m)) (hd : d.OneLine) : m.body.OneLine := by
  unfold readDefinition at h
  split at h
  · cases h
  · dsimp only at h
    split at h
    · cases h
      exact List.not_mem_nil
    · next b after hdrop =>
      have hafter := hd.of_dropWhile hdrop
      split at h
      · split at h
        · cases h
        · next list body hcut =>
          cases h
          exact (Text.OneLine.cut? hcut (Text.oneLine_cons.mp hafter).2).trim
      · cases h
        dsimp only
        exact hafter.trim

theorem macrosAfter_oneLine (h : macrosAfter ms depth d = .ok ms') (hms : ms.OneLine) (hd : d.OneLine) :
    ms'.OneLine := by
  obtain ⟨⟨name, m⟩, hread, h⟩ := bind_eq_ok_iff.mp h
  have hbody := readDefinition_oneLine hread hd
  dsimp only at h
  split at h
  · obtain ⟨body, hexpand, h⟩ := bind_eq_ok_iff.mp h
    cases h
    exact hms.define name (Macros.expand_oneLine hms hbody body (withinDepth_eq_ok hexpand))
  · cases h
    exact hms.define name hbody

end Directive

namespace Preprocess

variable {disk : Disk} {depth : Nat} {dir : Text} {reading : List Place} {number : Nat} {s t : State}
  {line text out : Text} {lines rest : List Text}

/-! ### Whole sources -/

/-- Neither the macros in force nor the lines that are to be read have line breaks in them. -/
structure Unbroken (s : State) (lines : List Text) : Prop where
  macros : s.macros.OneLine
  lines : ∀ line ∈ lines, line.OneLine

namespace Unbroken

theorem write (h : Unbroken s (line :: rest))
    (haction : action disk depth dir reading s line = .write text t) : Unbroken t rest ∧ text.OneLine := by
  obtain ⟨hline, hrest⟩ := List.forall_mem_cons.mp h.lines
  rcases action_write haction with ⟨d, macros, hrole, hmacros, rfl, rfl⟩ | ⟨_, _, _, _, _, rfl, rfl⟩ |
    ⟨_, hexpand, rfl⟩
  · have hd : d.OneLine := by
      unfold State.role roleIn at hrole
      split at hrole
      · exact Directive.oneLine_of_definition hrole hline
      · cases hrole
    exact ⟨⟨Directive.macrosAfter_oneLine hmacros h.macros hd, hrest⟩, List.not_mem_nil⟩
  · exact ⟨⟨h.macros, hrest⟩, List.not_mem_nil⟩
  · refine ⟨⟨h.macros, hrest⟩, Segment.expandAll_oneLine h.macros ?_ text hexpand⟩
    rw [Region.cutLine, Region.segments_text]
    exact hline

theorem opened (h : Unbroken s lines) (p : Place) (content : Text) :
    Unbroken (s.addSpliced p) content.lines :=
  ⟨h.macros, fun _ => oneLine_of_mem_lines⟩

theorem resumed (h : Unbroken s (line :: rest)) (ht : Unbroken t []) : Unbroken t rest :=
  ⟨ht.macros, (List.forall_mem_cons.mp h.lines).2⟩

theorem replaceLine {t : s.Later disk} (h : Unbroken s (line :: rest))
    (hline : replaceLine disk depth dir reading s line = .ok (text, t)) : Unbroken t.val rest ∧
      ((∀ d, s.role line ≠ .inclusion d) → text.OneLine) := by
  rcases replaceLine_cases hline with haction | ⟨file, path, content, haction, hrun, -⟩
  · obtain ⟨ht, htext⟩ := h.write haction
    exact ⟨ht, fun _ => htext⟩
  · obtain ⟨log, hreads⟩ := reads_run disk depth (Path.dir path) (disk.place path :: reading) 1
      (s.addSpliced (disk.place path)) content.lines
    have hlast := hreads.keeps (fun hs haction => (hs.write haction).1)
      (fun hs _ => ⟨hs.opened _ _, fun _ ht _ => hs.resumed ht⟩) (h.opened _ _) _ _ hrun
    obtain ⟨-, ⟨d, hrole⟩, -⟩ := action_enter haction
    exact ⟨h.resumed hlast, fun hno => absurd hrole (hno d)⟩

end Unbroken

/-- The texts that the inclusions among some lines are replaced by. -/
def splicedTexts (disk : Disk) (depth : Nat) (dir : Text) (reading : List Place) :
    State → List Text → List Text
  | _, [] => []
  | s, line :: rest =>
    match replaceLine disk depth dir reading s line with
    | .error _ => []
    | .ok (text, t) =>
      match s.role line with
      | .inclusion _ => text :: splicedTexts disk depth dir reading t.val rest
      | _ => splicedTexts disk depth dir reading t.val rest

theorem run_cons_eq_ok (h : forget (run disk depth dir reading number s (line :: rest)) = .ok (out, t)) :
    ∃ text, ∃ u : s.Later disk, ∃ more, replaceLine disk depth dir reading s line = .ok (text, u) ∧
      forget (run disk depth dir reading (number + 1) u.val rest) = .ok (more, t) ∧
      out = if rest.isEmpty then text else text ++ "\n" ++ more := by
  rw [run_cons] at h
  cases hline : replaceLine disk depth dir reading s line with
  | error e => rw [hline] at h; cases h
  | ok found =>
    obtain ⟨text, u⟩ := found
    rw [hline] at h
    obtain ⟨more, hmore, hout⟩ := Outcome.behind_eq_ok h
    exact ⟨text, u, more, rfl, hmore, hout⟩

theorem sum_splicedTexts {u : s.Later disk} (hs : Unbroken s (line :: rest))
    (hline : replaceLine disk depth dir reading s line = .ok (text, u)) :
    ((splicedTexts disk depth dir reading s (line :: rest)).map (List.count newline)).sum =
      text.count newline +
        ((splicedTexts disk depth dir reading u.val rest).map (List.count newline)).sum := by
  obtain ⟨-, htext⟩ := hs.replaceLine hline
  rw [splicedTexts, hline]
  cases hrole : s.role line with
  | inclusion d => rw [List.map_cons, List.sum_cons]
  | definition d | plain =>
    have hzero : text.count newline = 0 := List.count_eq_zero.mpr (htext (by simp [hrole]))
    rw [hzero, Nat.zero_add]

theorem count_newline_run (hs : Unbroken s lines) (hlines : lines ≠ [])
    (h : forget (run disk depth dir reading number s lines) = .ok (out, t)) :
    out.count newline + 1 =
      lines.length + ((splicedTexts disk depth dir reading s lines).map (List.count newline)).sum := by
  induction lines generalizing s number out with
  | nil => exact absurd rfl hlines
  | cons line rest ih =>
    obtain ⟨text, u, more, hline, hmore, rfl⟩ := run_cons_eq_ok h
    rw [sum_splicedTexts hs hline]
    cases rest with
    | nil =>
      rw [splicedTexts]
      simp [Nat.add_comm]
    | cons next rest =>
      have hmore := ih (hs.replaceLine hline).1 (List.cons_ne_nil _ _) hmore
      have hbreak : List.count newline (text ++ "\n" ++ more) =
          text.count newline + 1 + more.count newline := by
        rw [List.count_append, List.count_append]
        rfl
      rw [List.isEmpty_cons, if_neg Bool.false_ne_true, hbreak, List.length_cons]
      omega

/-! ### What a line is replaced by -/

/-- What some lines leave open, the first of which begins in the middle of something. -/
def leftOpen (region : Region) : List Text → Region
  | [] => region
  | line :: rest =>
    match roleIn region line with
    | .plain => leftOpen (region.cutLine line).2 rest
    | _ => leftOpen region rest

/-- What a line that is no inclusion is replaced by, with the macros in force and with something open
before it. -/
def replacement (depth : Nat) (ms : Macros) (region : Region) (line : Text) : Option Text :=
  match roleIn region line with
  | .definition _ => some []
  | .inclusion _ => none
  | .plain => Segment.expandAll ms depth (region.cutLine line).1

/-- The macros after some definitions. -/
def macrosBehind (depth : Nat) (ms : Macros) (ds : List Text) : Except Trouble Macros :=
  ds.foldlM (fun ms d => Directive.macrosAfter ms depth d) ms

theorem replaceLine_eq_ok {u : s.Later disk} (hno : ∀ d, s.role line ≠ .inclusion d)
    (h : replaceLine disk depth dir reading s line = .ok (text, u)) :
    replacement depth s.macros s.region line = some text ∧ ∀ lines,
      macrosBehind depth s.macros (definitions s.region (line :: lines)) =
          macrosBehind depth u.val.macros (definitions u.val.region lines) ∧
        leftOpen s.region (line :: lines) = leftOpen u.val.region lines := by
  rcases replaceLine_cases h with haction | ⟨_, _, _, haction, _⟩
  · rcases action_write haction with ⟨d, macros, hrole, hmacros, rfl, hu⟩ | ⟨_, _, _, _, ⟨d, hrole⟩, _⟩ |
      ⟨hrole, hexpand, hu⟩
    · rw [State.role] at hrole
      rw [hu]
      refine ⟨by rw [replacement, hrole], fun lines => ⟨?_, by rw [leftOpen, hrole]⟩⟩
      rw [definitions_of_definition hrole, macrosBehind, List.foldlM_cons, hmacros]
      rfl
    · exact absurd hrole (hno d)
    · rw [State.role] at hrole
      rw [hu]
      refine ⟨by rw [replacement, hrole]; exact hexpand, fun lines => ⟨?_, by rw [leftOpen, hrole]⟩⟩
      rw [definitions_of_plain hrole]
  · obtain ⟨-, ⟨d, hrole⟩, -⟩ := action_enter haction
    exact absurd hrole (hno d)

/-- Lines are replaced one by one, each by what it and the lines before it say. -/
structure ReplacedEach (depth : Nat) (s : State) (lines outs : List Text) : Prop where
  length : outs.length = lines.length
  each : ∀ k line, lines[k]? = some line →
    ∃ ms, macrosBehind depth s.macros (definitions s.region (lines.take k)) = .ok ms ∧
      outs[k]? = replacement depth ms (leftOpen s.region (lines.take k)) line

theorem ReplacedEach.nil : ReplacedEach depth s [] [] :=
  ⟨rfl, nofun⟩

theorem ReplacedEach.cons {u : s.Later disk} {outs : List Text} (hno : ∀ d, s.role line ≠ .inclusion d)
    (hline : replaceLine disk depth dir reading s line = .ok (text, u))
    (hrest : ReplacedEach depth u.val rest outs) : ReplacedEach depth s (line :: rest) (text :: outs) := by
  obtain ⟨hreplaced, hafter⟩ := replaceLine_eq_ok hno hline
  refine ⟨congrArg (· + 1) hrest.length, fun k line' hk => ?_⟩
  cases k with
  | zero =>
    cases hk
    refine ⟨s.macros, rfl, ?_⟩
    rw [List.take_zero, leftOpen, hreplaced]
    rfl
  | succ k =>
    rw [List.getElem?_cons_succ] at hk
    rw [List.take_succ_cons, (hafter _).1, (hafter _).2, List.getElem?_cons_succ]
    exact hrest.each k line' hk

theorem replacedEach_run (hs : Unbroken s lines)
    (hno : ∀ line ∈ lines, ∀ d, Directive.ofLine line ≠ .inclusion d) (hlines : lines ≠ [])
    (h : forget (run disk depth dir reading number s lines) = .ok (out, t)) :
    ReplacedEach depth s lines out.lines := by
  induction lines generalizing s number out with
  | nil => exact absurd rfl hlines
  | cons line rest ih =>
    obtain ⟨text, u, more, hline, hmore, rfl⟩ := run_cons_eq_ok h
    obtain ⟨hfirst, hrest⟩ := List.forall_mem_cons.mp hno
    -- A line within a comment or a raw body is no directive, whatever it looks like.
    have hrole : ∀ d, s.role line ≠ .inclusion d := by
      intro d
      unfold State.role roleIn
      split
      · exact hfirst d
      · exact nofun
    obtain ⟨hu, htext⟩ := hs.replaceLine hline
    have hone := (htext hrole).lines
    cases rest with
    | nil =>
      rw [List.isEmpty_nil, if_pos rfl, hone]
      exact .cons hrole hline .nil
    | cons next rest =>
      -- A replacement has no newline in it, so the one behind it ends the line.
      have hbreak : Text.lines (text ++ "\n" ++ more) = text :: more.lines := by
        rw [List.append_assoc]
        exact (lines_newline_between text more).trans (by rw [hone]; rfl)
      rw [List.isEmpty_cons, if_neg Bool.false_ne_true, hbreak]
      exact .cons hrole hline (ih hu hrest (List.cons_ne_nil _ _) hmore)

theorem unbroken_seed {given : List (Text × Text)} (hgiven : ∀ m ∈ given, m.2.OneLine) (source : Text) :
    Unbroken ⟨seed given, [], .code⟩ source.lines := by
  refine ⟨fun w m hm => ?_, fun _ => oneLine_of_mem_lines⟩
  rw [lookup_seed] at hm
  obtain ⟨v, hv, rfl⟩ := Option.map_eq_some_iff.mp hm
  exact hgiven _ (mem_of_lookup hv)

/-- A source that is preprocessed without trouble keeps the number of its lines, but for those that are
spliced in. If there are no inclusions, every line is replaced where it stands, by what its own text and
the lines before it make of it; a definition leaves an empty line. -/
theorem preprocess_keeps_lines {given : List (Text × Text)} {source : Text}
    (hgiven : ∀ m ∈ given, m.2.OneLine) (h : preprocess disk depth dir given source = .ok out) :
    ((∀ line ∈ source.lines, Text.startsWith line.trim "#include" = false) →
      out.lines.length = source.lines.length ∧
      ∀ k line, source.lines[k]? = some line →
        ∃ ms, macrosBehind depth (seed given) (definitions .code (source.lines.take k)) = .ok ms ∧
          out.lines[k]? = replacement depth ms (leftOpen .code (source.lines.take k)) line ∧
          (leftOpen .code (source.lines.take k) = .code → Text.startsWith line.trim "#define" = true →
            out.lines[k]? = some [])) ∧
    out.count newline = source.count newline +
      ((splicedTexts disk depth dir [] ⟨seed given, [], .code⟩ source.lines).map
        (List.count newline)).sum := by
  have hstart := unbroken_seed hgiven source
  obtain ⟨first, more, hlines, -⟩ := Text.lines_eq_cons source
  have hne : source.lines ≠ [] := by
    rw [hlines]
    exact List.cons_ne_nil _ _
  obtain ⟨t, hrun⟩ := exists_run_of_preprocess h
  constructor
  · intro hinclude
    have hno : ∀ line ∈ source.lines, ∀ d, Directive.ofLine line ≠ .inclusion d :=
      fun line hline => Directive.ofLine_ne_inclusion (hinclude line hline)
    obtain ⟨hlength, heach⟩ := replacedEach_run hstart hno hne hrun
    refine ⟨hlength, fun k line hk => ?_⟩
    obtain ⟨ms, hms, htext⟩ := heach k line hk
    refine ⟨ms, hms, htext, fun hcode hdefine => ?_⟩
    obtain ⟨d, hd⟩ := Directive.ofLine_definition hdefine
    have hrole : roleIn .code line = .definition d := hd
    rw [htext, hcode, replacement, hrole]
  -- Every newline of the output ends a line of the source or stands in a spliced text.
  · have hcount := count_newline_run hstart hne hrun
    have hsource := length_lines source
    omega

/-! A source with a macro that is called beyond a comment, and one that includes a file of two lines. -/

def calledSource : Text := "#define T(x) x-x\n/*\n#define N*/\nT(N)"

def calledOutput : Text := "\n/*\n#define N*/\n7-7"

def pagedDisk : Disk := ⟨[], [(["a.h"], .file "N\nN")]⟩

def pagedSource : Text := "N\n#include \"a.h\""

theorem preprocess_called : preprocess pagedDisk 1 [] [("N", "7")] calledSource = .ok calledOutput := by
  let ms : Macros := [("T", ⟨["x"], "x-x"⟩), ("N", ⟨[], "7"⟩)]
  have hdefine : action pagedDisk 1 [] [] ⟨seed [("N", "7")], [], .code⟩ "#define T(x) x-x" =
      .write [] ⟨ms, [], .code⟩ := by cbv
  have hopen : action pagedDisk 1 [] [] ⟨ms, [], .code⟩ "/*" = .write "/*" ⟨ms, [], .comment⟩ := by cbv
  have hclose : action pagedDisk 1 [] [] ⟨ms, [], .comment⟩ "#define N*/" =
      .write "#define N*/" ⟨ms, [], .code⟩ := by cbv
  have hcall : action pagedDisk 1 [] [] ⟨ms, [], .code⟩ "T(N)" = .write "7-7" ⟨ms, [], .code⟩ := by cbv
  have hreads : ∃ log, Reads pagedDisk 1 [] [] 1 ⟨seed [("N", "7")], [], .code⟩ calledSource.lines log
      (.ok (calledOutput, ⟨ms, [], .code⟩)) :=
    ⟨_, .write hdefine (.write hopen (.write hclose (.write hcall .stop)))⟩
  obtain ⟨log, hreads⟩ := hreads
  exact preprocess_of_reads hreads

theorem preprocess_paged : preprocess pagedDisk 1 [] [("N", "7")] pagedSource = .ok "7\n7\n7" := by
  have hname : ∀ dir reading spliced, action pagedDisk 1 dir reading ⟨seed [("N", "7")], spliced, .code⟩ "N" =
      .write "7" ⟨seed [("N", "7")], spliced, .code⟩ := by
    intro dir reading spliced
    cbv
  have henter : action pagedDisk 1 [] [] ⟨seed [("N", "7")], [], .code⟩ "#include \"a.h\"" =
      .enter "a.h" "a.h" "N\nN" := rfl
  have hreads : ∃ log, Reads pagedDisk 1 [] [] 1 ⟨seed [("N", "7")], [], .code⟩ pagedSource.lines log
      (.ok ("7\n7\n7", ⟨seed [("N", "7")], [["a.h"]], .code⟩)) :=
    ⟨_, .write (hname _ _ _) (.enter henter (.write (hname _ _ _) (.write (hname _ _ _) .stop)) rfl .stop)⟩
  obtain ⟨log, hreads⟩ := hreads
  exact preprocess_of_reads hreads

theorem preprocess_keeps_lines_called :
    (calledOutput.lines.length = calledSource.lines.length ∧ calledOutput.lines[0]? = some [] ∧
      ∃ ms, macrosBehind 1 (seed [("N", "7")]) (definitions .code (calledSource.lines.take 3)) = .ok ms ∧
        calledOutput.lines[3]? = replacement 1 ms (leftOpen .code (calledSource.lines.take 3)) "T(N)") ∧
    ((splicedTexts pagedDisk 1 [] [] ⟨seed [("N", "7")], [], .code⟩ pagedSource.lines).map
      (List.count newline)).sum = 1 := by
  have hgiven : ∀ m ∈ [(("N", "7") : Text × Text)], m.2.OneLine :=
    List.forall_mem_singleton.mpr (by decide)
  have hinclude : ∀ line ∈ calledSource.lines, Text.startsWith line.trim "#include" = false := by decide
  obtain ⟨hlength, heach⟩ := (preprocess_keeps_lines hgiven preprocess_called).1 hinclude
  obtain ⟨-, -, -, hempty⟩ := heach 0 "#define T(x) x-x" rfl
  obtain ⟨ms, hms, hlast, -⟩ := heach 3 "T(N)" rfl
  have hcount := (preprocess_keeps_lines hgiven preprocess_paged).2
  have hout : List.count newline ("7\n7\n7" : Text) = 2 := rfl
  have hsource : List.count newline pagedSource = 1 := rfl
  exact ⟨⟨hlength, hempty rfl rfl, ms, hms, hlast⟩, by omega⟩

end Preprocess

end Pocket

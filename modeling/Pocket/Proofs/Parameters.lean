import Mathlib
import Pocket.Proofs.LineNumbers
import Pocket.Proofs.Renaming
import Pocket.Proofs.TwoReadings

/-!
# Names of parameters

The names of a macro's parameters do not count. If they are renamed in the list and in the body of its
definition, to words that do not stand in the body, preprocessing comes to the same text or the same
trouble, whatever else the source defines, calls and includes.
-/

namespace Pocket

open Preprocess

/-! ### Macros that are alike everywhere -/

/-- Every name is undefined in both or stands for macros that are used alike. -/
def Macros.Alike (ms ms' : Macros) : Prop :=
  ∀ w, Option.Rel Macro.Alike (ms.lookup w) (ms'.lookup w)

namespace Macros.Alike

variable {ms ms' : Macros} {m m' : Macro}

theorem refl (ms : Macros) : ms.Alike ms := by
  intro w
  cases ms.lookup w with
  | none => exact .none
  | some m => exact .some (.refl m)

theorem define (h : ms.Alike ms') (hm : m.Alike m') (name : Text) :
    (ms.define name m).Alike (ms'.define name m') := by
  intro w
  rw [Macros.define, Macros.define, List.lookup_cons, List.lookup_cons]
  split
  · exact .some hm
  · exact h w

theorem alikeOn (h : ms.Alike ms') : AlikeOn (fun _ => True) ms ms' :=
  ⟨fun _ _ => h _, fun _ _ => trivial, fun _ _ _ _ _ => ⟨trivial, trivial⟩⟩

end Macros.Alike

namespace Preprocess

/-- States that differ at most in macros that are used alike. -/
structure State.Alike (s s' : State) : Prop where
  macros : s.macros.Alike s'.macros
  spliced : s'.spliced = s.spliced
  region : s'.region = s.region

theorem kept_alike (disk : Disk) (depth : Nat) : Kept disk depth (fun _ => True) State.Alike where
  region h := h.region
  addSpliced place h := ⟨h.macros, by rw [State.addSpliced, State.addSpliced, h.spliced], h.region⟩
  asks dir reading s s' line h _ := by
    refine action_alike h.spliced h.region (fun d _ => ?_) (fun _ => ⟨?_, h.macros, h.spliced, rfl⟩) h
    · rcases Directive.macrosAfter_alike (fun _ m _ => h.macros.alikeOn.expand trivial)
        (fun name m _ => h.macros.define (.refl m) name) with herror | ⟨us, us', hus, hus', halike⟩
      · exact .inl herror
      · exact .inr ⟨us, us', hus, hus', halike, h.spliced, h.region⟩
    · exact h.macros.alikeOn.expandAll fun _ _ => trivial
  contents _ _ _ _ := trivial

end Preprocess

/-! ### Definitions with parameters -/

/-- A parameter list: every name with blanks before and behind it. -/
def paramList (pads : List (Text × Text)) (ps : List Text) : Text :=
  Text.join "," ((pads.zip ps).map fun e => e.1.1 ++ e.2 ++ e.1.2)

theorem Text.split_append {sep : UInt8} {p : Text} (h : sep ∉ p) (t : Text) :
    ∃ first more, split sep t = first :: more ∧ split sep (p ++ t) = (p ++ first) :: more := by
  induction p with
  | nil =>
    cases hsplit : split sep t with
    | nil =>
      have hlength := split_length sep t
      rw [hsplit] at hlength
      cases hlength
    | cons first more => exact ⟨first, more, rfl, hsplit⟩
  | cons b p ih =>
    obtain ⟨hb, hp⟩ := not_or.mp (mt List.mem_cons.mpr h)
    obtain ⟨first, more, ht, hpt⟩ := ih hp
    refine ⟨first, more, ht, ?_⟩
    rw [List.cons_append, split, if_neg (Ne.symm hb), hpt]
    rfl

theorem Text.split_join {sep : UInt8} {pieces : List Text} (hne : pieces ≠ [])
    (h : ∀ p ∈ pieces, sep ∉ p) : split sep (join [sep] pieces) = pieces := by
  induction pieces with
  | nil => exact absurd rfl hne
  | cons p rest ih =>
    obtain ⟨hp, hrest⟩ := List.forall_mem_cons.mp h
    cases rest with
    | nil =>
      obtain ⟨first, more, hnil, hsplit⟩ := split_append hp []
      rw [split] at hnil
      cases hnil
      simpa [join, List.intercalate] using hsplit
    | cons q rest =>
      rw [join, List.intercalate_cons_cons, ← join, List.append_assoc]
      obtain ⟨first, more, hjoin, hsplit⟩ := split_append hp ([sep] ++ join [sep] (q :: rest))
      rw [List.singleton_append, split, if_pos rfl, ih (List.cons_ne_nil _ _) hrest] at hjoin
      cases hjoin
      simpa using hsplit

theorem Text.mem_join {sep : Text} {pieces : List Text} {b : UInt8} (h : b ∈ join sep pieces) :
    b ∈ sep ∨ ∃ p ∈ pieces, b ∈ p := by
  induction pieces with
  | nil => cases h
  | cons p rest ih =>
    cases rest with
    | nil => exact .inr ⟨p, List.mem_cons_self, by simpa [join, List.intercalate] using h⟩
    | cons q rest =>
      rw [join, List.intercalate_cons_cons, ← join] at h
      simp only [List.mem_append] at h
      rcases h with (h | h) | h
      · exact .inr ⟨p, List.mem_cons_self, h⟩
      · exact .inl h
      · rcases ih h with hsep | ⟨r, hr, hb⟩
        · exact .inl hsep
        · exact .inr ⟨r, List.mem_cons_of_mem _ hr, hb⟩

theorem Text.mem_join_of_mem {sep p : Text} {pieces : List Text} {b : UInt8} (hp : p ∈ pieces) (hb : b ∈ p) :
    b ∈ join sep pieces := by
  induction pieces with
  | nil => cases hp
  | cons q rest ih =>
    cases rest with
    | nil =>
      obtain rfl := List.mem_singleton.mp hp
      simpa [join, List.intercalate] using hb
    | cons r rest =>
      rw [join, List.intercalate_cons_cons, ← join, List.mem_append]
      rcases List.mem_cons.mp hp with rfl | hp
      · exact .inl (List.mem_append_left _ hb)
      · exact .inr (ih hp)

theorem IsWord.not_startsBlank {w : Text} (hw : IsWord w) : ¬w.StartsBlank := by
  obtain ⟨b, more, rfl, hstart, -⟩ := hw
  exact Text.not_startsBlank_append Text.not_startsBlank_nil
    (Text.isFirm_of_wordByte (isWordByte_of_start hstart)) more

theorem IsWord.not_endsBlank {w : Text} (hw : IsWord w) : ¬w.EndsBlank := by
  have hbytes := hw.wordBytes
  obtain ⟨before, b, rfl⟩ := (List.eq_nil_or_concat' w).resolve_left hw.ne_nil
  exact Text.not_endsBlank_append Text.not_endsBlank_nil
    (Text.isFirm_of_wordByte (hbytes b (by simp))) before

section ParamList

variable {pads : List (Text × Text)} {ps : List Text}

theorem not_mem_paramList {b : UInt8} (hpads : ∀ pad ∈ pads, pad.1.Blank ∧ pad.2.Blank)
    (hps : ∀ p ∈ ps, IsWord p) (hb : Text.IsFirm b) (hword : isWordByte b = false) :
    ∀ piece ∈ (pads.zip ps).map fun e => e.1.1 ++ e.2 ++ e.1.2, b ∉ piece := by
  intro piece hpiece hmem
  obtain ⟨⟨pad, p⟩, he, rfl⟩ := List.mem_map.mp hpiece
  obtain ⟨hpad, hp⟩ := List.of_mem_zip he
  simp only [List.mem_append] at hmem
  rcases hmem with (hmem | hmem) | hmem
  · exact (hpads pad hpad).1.not_mem hb hmem
  · have hbyte := (hps p hp).wordBytes b hmem
    rw [hword] at hbyte
    cases hbyte
  · exact (hpads pad hpad).2.not_mem hb hmem

theorem parameters_paramList (hlength : pads.length = ps.length)
    (hpads : ∀ pad ∈ pads, pad.1.Blank ∧ pad.2.Blank) (hps : ∀ p ∈ ps, IsWord p) (hne : ps ≠ []) :
    Directive.parameters (paramList pads ps) = ps := by
  have hsplit : (paramList pads ps).split ','.toUInt8 =
      (pads.zip ps).map fun e => e.1.1 ++ e.2 ++ e.1.2 := by
    refine Text.split_join ?_ (not_mem_paramList hpads hps (by decide) rfl)
    obtain ⟨p, ps, rfl⟩ := List.exists_cons_of_ne_nil hne
    cases pads with
    | nil => cases hlength
    | cons pad pads => simp
  have htrim : ((pads.zip ps).map fun e => e.1.1 ++ e.2 ++ e.1.2).map Text.trim = ps := by
    have hsnd : (pads.zip ps).map Prod.snd = ps := List.map_snd_zip hlength.ge
    rw [List.map_map]
    conv_rhs => rw [← hsnd]
    refine List.map_congr_left fun e he => ?_
    obtain ⟨hpad, hp⟩ := List.of_mem_zip he
    obtain ⟨hleft, hright⟩ := hpads e.1 hpad
    exact Text.trim_eq_of_split hleft hright (hps _ hp).not_startsBlank (hps _ hp).not_endsBlank
  -- The list is not blank, or it would be taken for an empty one.
  have hempty : (paramList pads ps).trim ≠ [] := by
    obtain ⟨p, ps, rfl⟩ := List.exists_cons_of_ne_nil hne
    obtain ⟨b, more, hp, hstart, -⟩ := hps p List.mem_cons_self
    cases pads with
    | nil => cases hlength
    | cons pad pads =>
      refine Text.trim_ne_nil (b := b) ?_ (Text.isFirm_of_wordByte (isWordByte_of_start hstart))
      exact Text.mem_join_of_mem List.mem_cons_self (by simp [hp])
  rw [Directive.parameters, if_neg (by simpa using hempty), hsplit, htrim]

end ParamList

theorem ofLine_withList {lead gap name : Text} (hlead : lead.Blank) (hgap : gap.Blank)
    (hname : ¬name.StartsBlank) (list body : Text) : ∃ kept,
      Directive.ofLine (lead ++ "#define" ++ gap ++ Directive.withList name list body) =
        .definition (Directive.withList name list kept) ∧ kept.trim = body.trim := by
  obtain ⟨kept, r, rfl, hr, hend⟩ := body.exists_end_split
  have hstop : ∀ x : Text, ¬Text.EndsBlank (x ++ Directive.withList name list kept) := by
    intro x
    have h := Text.not_endsBlank_append hend (b := ')'.toUInt8) (by decide) (x ++ (name ++ '('.toUInt8 :: list))
    simpa [Directive.withList] using h
  have hline : (lead ++ "#define" ++ gap ++ Directive.withList name list (kept ++ r)).trim =
      "#define" ++ (gap ++ Directive.withList name list kept) := by
    have h := Text.trim_eq_of_split hlead hr (x := "#define" ++ (gap ++ Directive.withList name list kept))
      (Text.not_startsBlank_append Text.not_startsBlank_nil (b := '#'.toUInt8) (by decide) _)
      (by simpa using hstop ("#define" ++ gap))
    rw [← h]
    simp [Directive.withList]
  have hself : (Directive.withList name list kept).trim = Directive.withList name list kept :=
    Text.trim_eq_self (Text.not_startsBlank_append hname (by decide) _) (hstop [])
  refine ⟨kept, ?_, (Text.trim_append_blank hr kept).symm⟩
  rw [Directive.ofLine, hline, Text.after?_eq_some_iff.mpr rfl]
  dsimp only
  rw [Text.trim_blank_append hgap, hself]

/-- A line that defines a macro with parameters. -/
structure ParamLine where
  lead : Text
  gap : Text
  name : Text
  pads : List (Text × Text)
  params : List Text
  body : Text
  lead_blank : lead.Blank
  gap_blank : gap.Blank
  name_ends : ∀ c ∈ name, Directive.endsName c = false
  name_starts : ¬name.StartsBlank
  pads_blank : ∀ pad ∈ pads, pad.1.Blank ∧ pad.2.Blank
  pads_length : pads.length = params.length
  params_ne_nil : params ≠ []
  params_words : ∀ p ∈ params, IsWord p

namespace ParamLine

def text (d : ParamLine) : Text :=
  d.lead ++ "#define" ++ d.gap ++ Directive.withList d.name (paramList d.pads d.params) d.body

theorem action_eq (d : ParamLine) {disk : Disk} {depth : Nat} {dir : Text} {reading : List Place} {s : State}
    (hs : s.region = .code) : action disk depth dir reading s d.text =
      .write [] { s with macros := s.macros.define d.name ⟨d.params, d.body.trim⟩ } := by
  obtain ⟨kept, hline, hkept⟩ := ofLine_withList d.lead_blank d.gap_blank d.name_starts
    (paramList d.pads d.params) d.body
  have hparams := parameters_paramList d.pads_length d.pads_blank d.params_words d.params_ne_nil
  have hlist : ')'.toUInt8 ∉ paramList d.pads d.params := by
    intro hmem
    rcases Text.mem_join hmem with hmem | ⟨piece, hpiece, hmem⟩
    · exact absurd hmem (by decide)
    · exact not_mem_paramList d.pads_blank d.params_words (by decide) rfl piece hpiece hmem
  have hrole : s.role d.text = .definition (Directive.withList d.name (paramList d.pads d.params) kept) := by
    rw [State.role, roleIn, if_pos hs]
    exact hline
  have hmacros : Directive.macrosAfter s.macros depth
      (Directive.withList d.name (paramList d.pads d.params) kept) =
        .ok (s.macros.define d.name ⟨d.params, d.body.trim⟩) := by
    rw [Directive.macrosAfter, Directive.readDefinition_list d.name_ends hlist, hparams, hkept]
    change (if d.params.isEmpty then _ else _) = _
    rw [if_neg (by simpa using d.params_ne_nil)]
  rw [action, hrole]
  dsimp only
  rw [hmacros]

end ParamLine

/-- Names that may be given to the parameters of a macro with a body of some parts: they are words that
are no words of the body. -/
structure NewNames (ps : List Text) (parts : List CodePart) (qs : List Text) : Prop where
  length : qs.length = ps.length
  words : ∀ q ∈ qs, IsWord q
  nodup : qs.Nodup
  fresh : ∀ w, .run w ∈ parts → w.dropWhile Text.isDigitByte ∉ qs

/-- The line with its parameters renamed, in the list and, in every run of the body outside string
literals, in the word behind the leading digits. -/
def ParamLine.renamed (d : ParamLine) {parts : List CodePart} {qs : List Text}
    (h : NewNames d.params parts qs) : ParamLine :=
  { d with
    params := qs
    body := parts.flatMap (CodePart.expanded (newName d.params qs))
    pads_length := d.pads_length.trans h.length.symm
    params_ne_nil := fun hnil => d.params_ne_nil (List.eq_nil_of_length_eq_zero (by rw [← h.length, hnil]; rfl))
    params_words := h.words }

/-- Renaming the parameters of a macro where it is defined leaves the outcome of preprocessing as it is,
whatever is defined, included and called with whatever arguments. -/
theorem parameters_renamed {disk : Disk} {depth : Nat} {dir : Text} {given : List (Text × Text)}
    {source source' : Text} {front back : List Text} (d : ParamLine) {parts : List CodePart} {qs : List Text}
    (hdistinct : d.params.Nodup) (hparts : d.body.Parts parts) (hqs : NewNames d.params parts qs)
    (hsource : source.lines = front ++ d.text :: back)
    (hsource' : source'.lines = front ++ (d.renamed hqs).text :: back)
    (hopen : leftOpen .code front = .code) :
    preprocess disk depth dir given source' = preprocess disk depth dir given source := by
  have halike : Macro.Alike ⟨d.params, d.body.trim⟩ ⟨qs, Text.trim (d.renamed hqs).body⟩ := by
    refine ⟨hqs.length, fun hnil => absurd hnil d.params_ne_nil, fun args hargs => ?_⟩
    rw [ParamLine.renamed, ← hparts.replaceWords_eq]
    exact instantiate_renamed hdistinct hqs.nodup hqs.length hqs.words hparts hqs.fresh hargs
  have hline : ∀ s : State, s.Alike s → s.region = .code → ∃ text t t',
      action disk depth dir [] s d.text = .write text t ∧
      action disk depth dir [] s (d.renamed hqs).text = .write text t' ∧ t.Alike t' := by
    intro s _ hs
    refine ⟨_, _, _, d.action_eq hs, (d.renamed hqs).action_eq hs, ?_⟩
    exact ⟨(Macros.Alike.refl s.macros).define halike d.name, rfl, rfl⟩
  have hstart : State.Alike ⟨seed given, [], .code⟩ ⟨seed given, [], .code⟩ := ⟨.refl _, rfl, rfl⟩
  rw [preprocess_eq_outcome, preprocess_eq_outcome, hsource, hsource']
  exact ((kept_alike disk depth).swap hstart (fun _ _ => trivial) hline (fun _ _ => trivial) hopen).texts

theorem pairWord : IsWord "PAIR" :=
  ⟨_, _, rfl, rfl, List.all_eq_true.mp rfl⟩

theorem letterWord {b : UInt8} (hb : isWordStart b = true) : IsWord [b] :=
  ⟨b, [], rfl, hb, nofun⟩

/-- A macro that has a parameter also in a string literal and behind a digit. -/
def pairLine : ParamLine where
  lead := []
  gap := " "
  name := "PAIR"
  pads := [(" ", " "), ([], [])]
  params := ["a", "b"]
  body := " a+b \"a\" 1a"
  lead_blank := Text.blank_nil
  gap_blank := Text.blank_ofChar (c := ' ') rfl
  name_ends := pairWord.endsName
  name_starts := pairWord.not_startsBlank
  pads_blank := List.forall_mem_cons.mpr
    ⟨⟨Text.blank_ofChar (c := ' ') rfl, Text.blank_ofChar (c := ' ') rfl⟩,
      List.forall_mem_singleton.mpr ⟨Text.blank_nil, Text.blank_nil⟩⟩
  pads_length := rfl
  params_ne_nil := List.cons_ne_nil _ _
  params_words := List.forall_mem_cons.mpr ⟨letterWord rfl, List.forall_mem_singleton.mpr (letterWord rfl)⟩

def pairParts : List CodePart :=
  [.byte ' '.toUInt8, .run "a", .byte '+'.toUInt8, .run "b", .byte ' '.toUInt8, .literal "\"a\"",
    .byte ' '.toUInt8, .run "1a"]

theorem pairLine_parts : pairLine.body.Parts pairParts := by
  have hletter : LiteralBody "a" := .byte (by decide) (by decide) .nil
  refine .byte (by decide) rfl (.checkedRun (w := "a") rfl rfl ?_)
  refine .byte (by decide) rfl (.checkedRun (w := "b") rfl rfl ?_)
  refine .byte (by decide) rfl (.literal hletter ?_)
  exact .byte (by decide) rfl (.checkedRun (w := "1a") rfl rfl .nil)

theorem pairLine_names : NewNames pairLine.params pairParts ["x", "y"] where
  length := rfl
  words := List.forall_mem_cons.mpr ⟨letterWord rfl, List.forall_mem_singleton.mpr (letterWord rfl)⟩
  nodup := by decide
  fresh w hw := by
    have hruns : w = "a" ∨ w = "b" ∨ w = "1a" := by simpa [pairParts] using hw
    rcases hruns with rfl | rfl | rfl <;> decide

/-- The arguments hold an old name and a new one. -/
theorem parameters_renamed_pair :
    preprocess ⟨[], []⟩ 1 [] [] "#define PAIR( x ,y) x+y \"a\" 1x\nPAIR(b, x)" =
      preprocess ⟨[], []⟩ 1 [] [] "#define PAIR( a ,b) a+b \"a\" 1a\nPAIR(b, x)" := by
  have hsource : Text.lines "#define PAIR( a ,b) a+b \"a\" 1a\nPAIR(b, x)" =
      [] ++ pairLine.text :: [Text.ofString "PAIR(b, x)"] := rfl
  have hsource' : Text.lines "#define PAIR( x ,y) x+y \"a\" 1x\nPAIR(b, x)" =
      [] ++ (pairLine.renamed pairLine_names).text :: [Text.ofString "PAIR(b, x)"] := rfl
  exact parameters_renamed pairLine (by decide) pairLine_parts pairLine_names hsource hsource' rfl

end Pocket

import Mathlib
import Pocket.Proofs.Calls
import Pocket.Proofs.Reading
import Pocket.Proofs.Trimming

/-!
# Directives

How directives are written, told without reading them: a definition is a name alone, a name with a body,
or a name with a parameter list and a body. A comment behind a line makes no directive of it; a comment
behind a definition is part of the body.
-/

namespace Pocket

open Preprocess

/-! ### Definitions -/

theorem Text.cut?_eq_some {sep : UInt8} {t before after : Text} (h : cut? sep t = some (before, after)) :
    t = before ++ sep :: after ∧ sep ∉ before := by
  unfold cut? at h
  split at h
  · cases h
  · next b rest hdrop =>
    cases h
    have hhead := List.head?_dropWhile_not (· != sep) t
    rw [hdrop] at hhead
    obtain rfl : b = sep := by simpa using hhead
    refine ⟨?_, fun hmem => ?_⟩
    · rw [← hdrop, List.takeWhile_append_dropWhile]
    · simpa using List.mem_takeWhile_imp hmem

namespace Directive

variable {line d name : Text} {m : Macro}

theorem exists_split_of_definition (h : ofLine line = .definition d) : ∃ l gap r : Text,
    line = l ++ "#define" ++ gap ++ d ++ r ∧ l.Blank ∧ gap.Blank ∧ r.Blank ∧
      ¬d.StartsBlank ∧ ¬d.EndsBlank := by
  unfold ofLine at h
  dsimp only at h
  split at h
  · next rest hrest =>
    cases h
    obtain ⟨l, r, hline, hl, hr, -⟩ := line.exists_trim_split
    obtain ⟨gap, r', hgap, hblank, hr', hstart, hend⟩ := rest.exists_trim_split
    refine ⟨l, gap, r' ++ r, ?_, hl, hblank, hr'.append hr, hstart, hend⟩
    rw [Text.after?_eq_some_iff.mp hrest] at hline
    rw [hline]
    nth_rewrite 1 [hgap]
    simp
  · split at h <;> cases h

/-- The ways to write a definition: a name alone, one with a body, one with a parameter list and a body. -/
inductive Defines (name : Text) : Text → Macro → Prop where
  | bare : Defines name name ⟨[], []⟩
  | body {b : UInt8} (after : Text) (hb : endsName b = true) (hparen : b ≠ '('.toUInt8) :
      Defines name (name ++ b :: after) ⟨[], Text.trim (b :: after)⟩
  | list {list : Text} (body : Text) (hlist : ')'.toUInt8 ∉ list) :
      Defines name (withList name list body) ⟨parameters list, body.trim⟩

theorem Defines.read (h : Defines name d m) (hname : ∀ c ∈ name, endsName c = false) (hd : d ≠ []) :
    readDefinition d = .ok (name, m) := by
  have hkept : ∀ c ∈ name, (!endsName c) = true := fun c hc => by rw [hname c hc]; rfl
  cases h with
  | bare =>
    rw [readDefinition, if_neg hd, List.takeWhile_eq_self_iff.mpr hkept,
      List.dropWhile_eq_nil_iff.mpr hkept]
  | @body b after hb hparen =>
    have hstop : ¬(!endsName b) = true := by rw [hb]; decide
    rw [readDefinition, if_neg hd]
    dsimp only
    rw [List.takeWhile_append_of_pos hkept, List.dropWhile_append_of_pos hkept,
      List.takeWhile_cons_of_neg (p := fun b => !endsName b) hstop,
      List.dropWhile_cons_of_neg (p := fun b => !endsName b) hstop]
    dsimp only
    rw [if_neg hparen, List.append_nil]
  | list body hlist => exact readDefinition_list hname hlist

theorem defines_of_read (h : readDefinition d = .ok (name, m)) :
    Defines name d m ∧ ∀ c ∈ name, endsName c = false := by
  unfold readDefinition at h
  split at h
  · cases h
  · dsimp only at h
    have hsplit := List.takeWhile_append_dropWhile (p := fun b => !endsName b) (l := d)
    have hname : ∀ c ∈ d.takeWhile (fun b => !endsName b), endsName c = false := by
      intro c hc
      simpa using List.mem_takeWhile_imp hc
    split at h
    -- The name goes on to the end: there is neither a list nor a body.
    · next hdrop =>
      cases h
      rw [hdrop, List.append_nil] at hsplit
      exact ⟨by nth_rewrite 2 [← hsplit]; exact .bare, hname⟩
    · next b after hdrop =>
      -- The byte behind the name is the first that ends it.
      have hends : endsName b = true := by
        have hhead := List.head?_dropWhile_not (fun b => !endsName b) d
        rw [hdrop] at hhead
        simpa using hhead
      rw [hdrop] at hsplit
      split at h
      · next hparen =>
        split at h
        · cases h
        · next list body hcut =>
          cases h
          subst hparen
          obtain ⟨rfl, hlist⟩ := Text.cut?_eq_some hcut
          refine ⟨?_, hname⟩
          nth_rewrite 2 [← hsplit]
          exact .list body hlist
      · next hparen =>
        cases h
        refine ⟨?_, hname⟩
        nth_rewrite 2 [← hsplit]
        exact .body after hends hparen

/-- A definition that can be read defines its name, or its body expands too deep. -/
theorem macrosAfter_of_read (hread : readDefinition d = .ok (name, m)) (ms : Macros) (depth : Nat) :
    (∃ body, macrosAfter ms depth d = .ok (ms.define name ⟨m.params, body⟩)) ∨
      m.params = [] ∧ macrosAfter ms depth d = .error (.tooDeep depth) := by
  rw [macrosAfter, hread]
  change (∃ body, (if m.params.isEmpty then _ else _) = _) ∨ _ ∧ (if m.params.isEmpty then _ else _) = _
  split
  · next hempty =>
    have hnil := List.isEmpty_iff.mp hempty
    rw [hnil]
    cases ms.expand depth m.body with
    | none => exact .inr ⟨rfl, rfl⟩
    | some body => exact .inl ⟨body, rfl⟩
  · exact .inl ⟨m.body, rfl⟩

end Directive

/-! ### Comments behind directives -/

theorem Directive.ofLine_eq_plain_iff {line : Text} : ofLine line = .plain ↔
    ¬("#define" : Text) <+: line.trim ∧ ¬("#include" : Text) <+: line.trim := by
  rw [ofLine]
  split
  · next rest hrest =>
    have hdefine : ("#define" : Text) <+: line.trim := ⟨rest, (Text.after?_eq_some_iff.mp hrest).symm⟩
    simp [hdefine]
  · next hnone =>
    have hdefine : ¬("#define" : Text) <+: line.trim := by
      rintro ⟨rest, hrest⟩
      rw [Text.after?_eq_some_iff.mpr hrest.symm] at hnone
      cases hnone
    split
    · next hinclude => simp [Text.startsWith_iff.mp hinclude]
    · next hinclude => simp [hdefine, mt Text.startsWith_iff.mpr hinclude]

/-- A comment behind a line makes no directive of it. -/
theorem prefix_trim_commented {start line text : Text} (hne : start ≠ []) (hstart : ∀ b ∈ start, Text.IsFirm b)
    (hslash : ∀ b ∈ start.head?, b ≠ '/'.toUInt8) (h : start <+: (line ++ " // " ++ text).trim) :
    start <+: line.trim := by
  have hblank : ' '.toUInt8 ∉ start := fun hmem => absurd (hstart _ hmem) (by decide)
  obtain ⟨b, more, hfirst⟩ := List.exists_cons_of_ne_nil hne
  rw [Text.prefix_trim_iff hne hstart] at h ⊢
  obtain ⟨l, rest, hl, hsplit⟩ := h
  rw [List.append_assoc] at hsplit
  change line ++ ' '.toUInt8 :: '/'.toUInt8 :: '/'.toUInt8 :: ' '.toUInt8 :: text = _ at hsplit
  rcases List.append_eq_append_iff.mp hsplit with ⟨z, hline, hz⟩ | ⟨z, rfl, hz⟩
  · -- The directive would begin in the comment, of which only the blank can be trimmed away.
    rw [hfirst] at hz hblank hslash
    cases z with
    | nil => exact absurd (by simp [(List.cons.inj hz).1]) hblank
    | cons c z =>
      obtain ⟨-, htail⟩ := List.cons.inj hz
      cases z with
      | nil => exact absurd (List.cons.inj htail).1.symm (hslash b rfl)
      | cons d z =>
        obtain ⟨rfl, -⟩ := List.cons.inj htail
        exact absurd (by simp [hline]) (hl.not_mem (b := '/'.toUInt8) (by decide))
  -- The directive lies in the line as a whole, since it has no blank in it.
  · rcases List.append_eq_append_iff.mp hz with ⟨u, rfl, -⟩ | ⟨u, hu, hrest⟩
    · exact ⟨l, u, hl, rfl⟩
    · cases u with
      | nil => exact ⟨l, [], hl, by simp [hu]⟩
      | cons c u =>
        obtain ⟨rfl, -⟩ := List.cons.inj hrest
        exact absurd (by simp [hu]) hblank

theorem roleIn_commented {region : Region} {line : Text} (h : roleIn region line = .plain) (text : Text) :
    roleIn region (line ++ " // " ++ text) = .plain := by
  rw [roleIn] at h ⊢
  split at h
  · next hcode =>
    obtain ⟨hdefine, hinclude⟩ := Directive.ofLine_eq_plain_iff.mp h
    rw [if_pos hcode, Directive.ofLine_eq_plain_iff]
    refine ⟨fun hprefix => hdefine ?_, fun hprefix => hinclude ?_⟩
    · exact prefix_trim_commented (by decide) (by decide +kernel) (by decide +kernel) hprefix
    · exact prefix_trim_commented (by decide) (by decide +kernel) (by decide +kernel) hprefix
  · next hcode => rw [if_neg hcode]

namespace Directive

variable {line d name : Text} {m : Macro}

/-- A comment behind a definition is part of it. -/
theorem ofLine_commented {l gap r : Text} (hl : l.Blank) (hgap : gap.Blank) (hr : r.Blank) (hd : d ≠ [])
    (hstart : ¬d.StartsBlank) (text : Text) : ∃ kept r',
      ofLine (l ++ "#define" ++ gap ++ d ++ r ++ " // " ++ text) = .definition (d ++ (r ++ " //" ++ kept)) ∧
        r'.Blank ∧ " // " ++ text = " //" ++ kept ++ r' := by
  obtain ⟨kept, r', hkept, hr', hend⟩ := Text.exists_end_split (' '.toUInt8 :: text)
  have hcomment : " // " ++ text = " //" ++ kept ++ r' := by
    rw [List.append_assoc, ← hkept]
    rfl
  -- The comment begins with a blank of its own, whatever glyphs stand before it.
  have hfresh : Glyph.Fresh (r ++ " //" ++ kept) := by
    rw [List.append_assoc]
    refine hr.fresh_append fun b hb => ?_
    obtain rfl : ' '.toUInt8 = b := Option.some.inj hb
    decide
  have hbegins : ¬Text.StartsBlank (d ++ (r ++ " //" ++ kept)) := Text.not_startsBlank_fresh hd hstart hfresh
  have hends : ∀ x : Text, ¬Text.EndsBlank (x ++ (d ++ (r ++ " //" ++ kept))) := by
    intro x
    have hmark : (" //" : Text) = " /" ++ ['/'.toUInt8] := rfl
    have h := Text.not_endsBlank_append hend (b := '/'.toUInt8) (by decide) (x ++ (d ++ (r ++ " /")))
    rw [hmark]
    simpa using h
  -- The comment keeps its slashes when the line is trimmed, even if nothing follows them.
  have htrim : Text.trim (l ++ "#define" ++ gap ++ d ++ r ++ " // " ++ text) =
      "#define" ++ (gap ++ (d ++ (r ++ " //" ++ kept))) := by
    have h := Text.trim_eq_of_split hl hr' (x := "#define" ++ (gap ++ (d ++ (r ++ " //" ++ kept))))
      (Text.not_startsBlank_append Text.not_startsBlank_nil (b := '#'.toUInt8) (by decide) _)
      (by simpa using hends ("#define" ++ gap))
    rw [← h, List.append_assoc _ _ text, hcomment]
    simp
  refine ⟨kept, r', ?_, hr', hcomment⟩
  rw [ofLine, htrim, Text.after?_eq_some_iff.mpr rfl]
  dsimp only
  rw [Text.trim_blank_append hgap, Text.trim_eq_self hbegins (hends [])]

/-- Where a name ends that blanks and a space follow. -/
theorem exists_name_end {r : Text} (hr : r.Blank) (x : Text) : ∃ r₁ b y, r ++ ' '.toUInt8 :: x = r₁ ++ b :: y ∧
    (∀ c ∈ r₁, endsName c = false ∧ c ∈ r) ∧ endsName b = true ∧ b ≠ '('.toUInt8 := by
  have hsplit := List.takeWhile_append_dropWhile (p := fun b => !endsName b) (l := r)
  have hkept : ∀ c ∈ r.takeWhile (fun b => !endsName b), endsName c = false ∧ c ∈ r := by
    intro c hc
    exact ⟨by simpa using List.mem_takeWhile_imp hc, (List.takeWhile_prefix _).subset hc⟩
  cases hdrop : r.dropWhile (fun b => !endsName b) with
  | nil =>
    rw [hdrop, List.append_nil] at hsplit
    rw [hsplit] at hkept
    exact ⟨r, _, x, rfl, hkept, rfl, by decide⟩
  | cons b more =>
    rw [hdrop] at hsplit
    refine ⟨_, b, more ++ ' '.toUInt8 :: x, ?_, hkept, ?_, ?_⟩
    · nth_rewrite 1 [← hsplit]
      simp
    · have hhead := List.head?_dropWhile_not (fun b => !endsName b) r
      rw [hdrop] at hhead
      simpa using hhead
    · rintro rfl
      refine hr.not_mem (b := '('.toUInt8) (by decide) ?_
      rw [← hsplit]
      simp

/-- What follows a definition goes into its body. Blanks other than spaces and tabs that follow a name
directly go into the name, which then is no word. -/
theorem Defines.followed (h : Defines name d m) (hname : ∀ c ∈ name, endsName c = false) {r : Text} (hr : r.Blank)
    (x : Text) : ∃ name' m', Defines name' (d ++ (r ++ ' '.toUInt8 :: x)) m' ∧
      (∀ c ∈ name', endsName c = false) ∧ (IsWord name' → name' = name) ∧ m'.params = m.params ∧
      (r = [] → name' = name ∧ (¬d.EndsBlank → m'.body = Text.trim (m.body ++ ' '.toUInt8 :: x))) := by
  cases h with
  | bare =>
    obtain ⟨r₁, b, y, hsplit, hr₁, hb, hparen⟩ := exists_name_end hr x
    refine ⟨d ++ r₁, ⟨[], Text.trim (b :: y)⟩, ?_, ?_, fun hword => ?_, rfl, ?_⟩
    · rw [hsplit, ← List.append_assoc]
      exact .body y hb hparen
    · simp only [List.mem_append]
      rintro c (hc | hc)
      · exact hname c hc
      · exact (hr₁ c hc).1
    · -- A blank byte is no byte of a word.
      cases r₁ with
      | nil => rw [List.append_nil]
      | cons c r₁ =>
        have hbyte := hword.wordBytes c (by simp)
        rw [(hr.not_wordByte c (hr₁ c List.mem_cons_self).2).1] at hbyte
        cases hbyte
    · rintro rfl
      cases r₁ with
      | nil =>
        obtain ⟨rfl, rfl⟩ := List.cons.inj hsplit
        refine ⟨List.append_nil _, fun _ => ?_⟩
        dsimp only
        rw [List.nil_append]
      | cons c r₁ => cases (hr₁ c List.mem_cons_self).2
  | @body b after hb hparen =>
    refine ⟨name, ⟨[], Text.trim (b :: (after ++ (r ++ ' '.toUInt8 :: x)))⟩, ?_, hname, fun _ => rfl, rfl, ?_⟩
    · rw [List.append_assoc]
      exact .body _ hb hparen
    · rintro rfl
      refine ⟨rfl, fun hend => ?_⟩
      have hbody : ¬Text.EndsBlank (b :: after) := fun hblank => hend (hblank.append name)
      dsimp only
      rw [Text.trim_trim_append hbody, List.cons_append, List.nil_append]
  | @list list body hlist =>
    refine ⟨name, ⟨parameters list, Text.trim (body ++ (r ++ ' '.toUInt8 :: x))⟩, ?_, hname, fun _ => rfl, rfl, ?_⟩
    · have hdefines : Defines name (withList name list (body ++ (r ++ ' '.toUInt8 :: x))) _ := .list _ hlist
      simpa [withList] using hdefines
    · rintro rfl
      refine ⟨rfl, fun hend => ?_⟩
      have hbody : ¬body.EndsBlank := by
        intro hblank
        have h := hblank.append (name ++ '('.toUInt8 :: (list ++ [')'.toUInt8]))
        exact hend (by simpa [withList] using h)
      dsimp only
      rw [Text.trim_trim_append hbody, List.nil_append]

/-- A comment behind a definition goes into the body of the macro. -/
theorem readDefinition_commented (h : ofLine line = .definition d) (hread : readDefinition d = .ok (name, m))
    (text : Text) : ∃ d' name' m', ofLine (line ++ " // " ++ text) = .definition d' ∧
      readDefinition d' = .ok (name', m') ∧ (IsWord name' → name' = name) ∧ m'.params = m.params ∧
      (¬line.EndsBlank → name' = name ∧ m'.body = (m.body ++ " // " ++ text).trim) := by
  obtain ⟨l, gap, r, rfl, hl, hgap, hr, hstart, hend⟩ := exists_split_of_definition h
  obtain ⟨hdefines, hname⟩ := defines_of_read hread
  have hd : d ≠ [] := by
    rintro rfl
    cases hread
  obtain ⟨kept, r', hline, hr', hcomment⟩ := ofLine_commented hl hgap hr hd hstart text
  obtain ⟨name', m', hdefines', hname', hword, hparams, hexact⟩ := hdefines.followed hname hr ("//" ++ kept)
  have hread' := hdefines'.read hname' (by simp [hd])
  refine ⟨d ++ (r ++ " //" ++ kept), name', m', hline, ?_, hword, hparams, fun hblank => ?_⟩
  · rw [← hread', List.append_assoc r]
    rfl
  · have hnil : r = [] := by
      by_contra hne
      exact hblank (hr.endsBlank hne _)
    obtain ⟨rfl, hbody⟩ := hexact hnil
    refine ⟨rfl, ?_⟩
    rw [hbody hend, List.append_assoc, hcomment, ← List.append_assoc, Text.trim_append_blank hr']
    rfl

end Directive

end Pocket

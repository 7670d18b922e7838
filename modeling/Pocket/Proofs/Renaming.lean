import Mathlib
import Pocket.Proofs.Calls
import Pocket.Proofs.RawKept
import Pocket.Proofs.Trimming

/-!
# Renaming words

Words of a code text are replaced by other words. The text falls into the same parts as before, with other
words in its runs, blanks at its ends stay where they are, and replacing the new words gives what replacing
the old ones gave, as long as the new ones were not there before. For a macro this means that its
parameters may be renamed in its list and in its body.
-/

namespace Pocket

open Text (isDigitByte)

/-- Every word that is replaced is replaced by a word. -/
def Renames (value : Text → Option Text) : Prop :=
  ∀ w v, value w = some v → IsWord v

theorem IsWord.ne_nil {w : Text} (hw : IsWord w) : w ≠ [] := by
  obtain ⟨b, more, rfl, -⟩ := hw
  exact List.cons_ne_nil _ _

theorem Renames.getD {value : Text → Option Text} (h : Renames value) {w : Text} (hw : IsWord w) :
    IsWord ((value w).getD w) := by
  cases hvalue : value w with
  | none => exact hw
  | some v => exact h w v hvalue

/-! ### Bytes that are neither in words nor in literals -/

/-- A text of bytes that stand in no word and begin no literal. -/
def Text.IsGap (t : Text) : Prop :=
  ∀ b ∈ t, isWordByte b = false ∧ b ≠ '"'.toUInt8

theorem Text.IsGap.head {t : Text} (h : t.IsGap) : ∀ b ∈ t.head?, isWordByte b = false :=
  fun b hb => (h b (List.mem_of_mem_head? hb)).1

theorem Text.head_append_gap {t r : Text} (hr : r.IsGap) (ht : ∀ b ∈ t.head?, isWordByte b = false) :
    ∀ b ∈ (t ++ r).head?, isWordByte b = false := by
  cases t with
  | nil => exact hr.head
  | cons c t => exact ht

section Gaps

variable {t l r x z body : Text} {ps : List CodePart} {value : Text → Option Text}

/-- Without a quote an open literal goes on to the end. -/
theorem LiteralBody.exists_unclosed (h : LiteralBody body) (hr : ∀ b ∈ r, b ≠ '"'.toUInt8) :
    ∃ body' tail, LiteralBody body' ∧ (tail = [] ∨ tail = ['\\'.toUInt8]) ∧ body ++ r = body' ++ tail := by
  induction h with
  | nil =>
    obtain ⟨body', hbody', ⟨rest, rfl⟩ | ⟨tail, htail, heq⟩⟩ := literalBody_cases r
    · exact absurd rfl (hr '"'.toUInt8 (by simp))
    · exact ⟨body', tail, hbody', htail, heq⟩
  | escape b _ ih =>
    obtain ⟨body', tail, hbody', htail, heq⟩ := ih
    exact ⟨_, tail, .escape b hbody', htail, by simp [heq]⟩
  | byte hquote hescape _ ih =>
    obtain ⟨body', tail, hbody', htail, heq⟩ := ih
    exact ⟨_, tail, .byte hquote hescape hbody', htail, by simp [heq]⟩

/-- Behind a gap a text falls into the same parts. -/
theorem Text.Parts.behind_gap (h : t.Parts ps) (hl : l.IsGap) :
    Text.Parts (l ++ t) (l.map .byte ++ ps) := by
  induction l with
  | nil => exact h
  | cons b l ih =>
    obtain ⟨⟨hword, hquote⟩, hl⟩ := List.forall_mem_cons.mp hl
    exact .byte hquote hword (ih hl)

/-- The parts of a text and those of the text with a gap behind it. -/
structure SameBut (r : Text) (ps qs : List CodePart) : Prop where
  expanded : ∀ value, qs.flatMap (CodePart.expanded value) = ps.flatMap (CodePart.expanded value) ++ r
  runs : ∀ w, .run w ∈ ps → .run w ∈ qs

theorem SameBut.cons {qs : List CodePart} (h : SameBut r ps qs) (p : CodePart) :
    SameBut r (p :: ps) (p :: qs) := by
  refine ⟨fun value => ?_, fun w hw => ?_⟩
  · rw [List.flatMap_cons, List.flatMap_cons, h.expanded, List.append_assoc]
  · rcases List.mem_cons.mp hw with heq | hw
    · exact heq ▸ List.mem_cons_self
    · exact List.mem_cons_of_mem _ (h.runs w hw)

/-- Before a gap a text falls into the same parts, but for a literal that is open at the end. -/
theorem Text.Parts.before_gap (h : t.Parts ps) (hr : r.IsGap) :
    ∃ qs, Text.Parts (t ++ r) qs ∧ SameBut r ps qs := by
  induction h with
  | nil =>
    refine ⟨r.map .byte, ?_, fun value => ?_, nofun⟩
    · have h := Text.Parts.behind_gap .nil hr
      rwa [List.append_nil, List.append_nil] at h
    · rw [List.flatMap_map]
      exact List.flatMap_singleton' r
  | literal hbody _ ih =>
    obtain ⟨qs, hqs, hsame⟩ := ih
    exact ⟨_, by simpa using Parts.literal hbody hqs, hsame.cons _⟩
  | @unclosed body tail hbody htail =>
    -- The gap has no quote either, so that the literal stays open to the end.
    have hquoteless : ∀ b ∈ tail ++ r, b ≠ '"'.toUInt8 := by
      intro b hb
      rcases List.mem_append.mp hb with hb | hb
      · rcases htail with rfl | rfl
        · cases hb
        · obtain rfl := List.mem_singleton.mp hb
          decide
      · exact (hr b hb).2
    obtain ⟨body', tail', hbody', htail', heq⟩ := hbody.exists_unclosed hquoteless
    refine ⟨[.literal ('"'.toUInt8 :: (body' ++ tail'))], ?_, fun value => ?_, by simp⟩
    · have h := Parts.unclosed hbody' htail'
      rw [← heq] at h ⊢
      simpa using h
    · simp [CodePart.expanded, ← heq]
  | @run w rest ps hne hw hstop _ ih =>
    obtain ⟨qs, hqs, hsame⟩ := ih
    refine ⟨.run w :: qs, ?_, hsame.cons _⟩
    rw [List.append_assoc]
    exact .run hne hw (Text.head_append_gap hr hstop) hqs
  | byte hquote hb _ ih =>
    obtain ⟨qs, hqs, hsame⟩ := ih
    exact ⟨_, .byte hquote hb hqs, hsame.cons _⟩

theorem Text.replaceWords_between (hl : l.IsGap) (hr : r.IsGap) (x : Text) :
    (l ++ x ++ r).replaceWords value = l ++ x.replaceWords value ++ r := by
  obtain ⟨ps, hps⟩ := x.exists_parts
  obtain ⟨qs, hqs, hsame⟩ := hps.before_gap hr
  rw [List.append_assoc, (hqs.behind_gap hl).replaceWords_eq, hps.replaceWords_eq, List.flatMap_append,
    hsame.expanded, List.flatMap_map, List.append_assoc]
  congr 1
  exact List.flatMap_singleton' l

/-- The runs of a text between gaps are runs of the whole. -/
theorem Text.Parts.run_between (hl : l.IsGap) (hr : r.IsGap) {qs : List CodePart} (hx : x.Parts ps)
    (h : Text.Parts (l ++ x ++ r) qs) {w : Text} (hw : .run w ∈ ps) : .run w ∈ qs := by
  obtain ⟨ps', hps', hsame⟩ := hx.before_gap hr
  rw [List.append_assoc] at h
  rw [(hps'.behind_gap hl).unique h]
  exact List.mem_append_right _ (hsame.runs w hw)

end Gaps

/-! ### Renamed parts -/

section Renamed

variable {t w z : Text} {ps : List CodePart} {value : Text → Option Text}

theorem takeWhile_digits (h : w.dropWhile isDigitByte = []) : w.takeWhile isDigitByte = w := by
  have hsplit := List.takeWhile_append_dropWhile (p := isDigitByte) (l := w)
  rwa [h, List.append_nil] at hsplit

/-- What a run is written as is a run again, with the same digits before the word. -/
theorem Renames.run (hvalue : Renames value) (hne : w ≠ []) (hw : ∀ b ∈ w, isWordByte b = true) :
    CodePart.expanded value (.run w) ≠ [] ∧
      (∀ b ∈ CodePart.expanded value (.run w), isWordByte b = true) := by
  obtain ⟨hdigits, hnil | ⟨b, more, hcons, hstart, hmore⟩⟩ := digits_split hw
  · have hall := takeWhile_digits hnil
    simp only [CodePart.expanded, hnil, hall, if_true, List.append_nil]
    exact ⟨hne, hw⟩
  · have hword := hvalue.getD (w := w.dropWhile isDigitByte) ⟨b, more, hcons, hstart, hmore⟩
    simp only [CodePart.expanded]
    rw [if_neg (by simp [hcons])]
    refine ⟨by simp [hword.ne_nil], fun c hc => ?_⟩
    rcases List.mem_append.mp hc with hc | hc
    · exact hw c ((List.takeWhile_subset _) hc)
    · exact hword.wordBytes c hc

/-- A part with its word renamed. -/
def CodePart.renamed (value : Text → Option Text) : CodePart → CodePart
  | .run w => .run (expanded value (.run w))
  | p => p

theorem Text.Parts.head_expanded (h : t.Parts ps) (ht : ∀ b ∈ t.head?, isWordByte b = false) :
    ∀ b ∈ (ps.flatMap (CodePart.expanded value)).head?, isWordByte b = false := by
  cases h with
  | nil => simp
  | literal => exact ht
  | unclosed => simpa [CodePart.expanded] using ht
  | @run w rest ps hne hw =>
    obtain ⟨c, more, rfl⟩ := List.exists_cons_of_ne_nil hne
    have hc := ht c rfl
    rw [hw c List.mem_cons_self] at hc
    cases hc
  | byte => exact ht

/-- A text with its words renamed falls into the renamed parts. -/
theorem Text.Parts.renamed (hvalue : Renames value) (h : t.Parts ps) :
    Text.Parts (t.replaceWords value) (ps.map (CodePart.renamed value)) := by
  rw [h.replaceWords_eq]
  induction h with
  | nil => exact .nil
  | literal hbody _ ih => simpa [CodePart.expanded, CodePart.renamed] using Parts.literal hbody ih
  | unclosed hbody htail => simpa [CodePart.expanded, CodePart.renamed] using Parts.unclosed hbody htail
  | run hne hw hstop hrest ih =>
    obtain ⟨hne', hw'⟩ := hvalue.run hne hw
    exact .run hne' hw' (hrest.head_expanded hstop) ih
  | byte hquote hb _ ih => exact .byte hquote hb ih

/-! ### Blanks at the ends -/

theorem Text.IsGap.not_begins {b : UInt8} (hz : Text.IsGap (b :: z))
    (ht : ∀ c ∈ t.head?, isWordByte c = true ∨ c = '"'.toUInt8) : ¬b :: z <+: t := by
  rintro ⟨more, rfl⟩
  obtain ⟨hword, hquote⟩ := hz b List.mem_cons_self
  rcases ht b rfl with h | h
  · rw [hword] at h
    cases h
  · exact hquote h

theorem Text.Parts.start_of_expanded (hvalue : Renames value) (h : t.Parts ps) (hz : z.IsGap)
    (hstart : z <+: ps.flatMap (CodePart.expanded value)) : z <+: t := by
  induction h generalizing z with
  | nil => exact hstart
  | literal | unclosed =>
    cases z with
    | nil => exact List.nil_prefix
    | cons b z =>
      refine absurd hstart (hz.not_begins fun c hc => .inr ?_)
      simpa [CodePart.expanded] using hc.symm
  | run hne hw hstop _ ih =>
    cases z with
    | nil => exact List.nil_prefix
    | cons b z =>
      obtain ⟨hne', hw'⟩ := hvalue.run hne hw
      obtain ⟨d, more, hcons⟩ := List.exists_cons_of_ne_nil hne'
      refine absurd hstart (hz.not_begins fun c hc => .inl (hw' c ?_))
      rw [List.flatMap_cons, hcons] at hc
      obtain rfl : d = c := by simpa using hc
      simp [hcons]
  | byte hquote hb _ ih =>
    cases z with
    | nil => exact List.nil_prefix
    | cons c z =>
      obtain ⟨rfl, htail⟩ := List.cons_prefix_cons.mp hstart
      exact List.cons_prefix_cons.mpr ⟨rfl, ih (List.forall_mem_cons.mp hz).2 htail⟩

theorem Text.Parts.eq_of_wordless (hvalue : Renames value) (h : t.Parts ps)
    (hword : ∀ b ∈ ps.flatMap (CodePart.expanded value), isWordByte b = false) :
    ps.flatMap (CodePart.expanded value) = t := by
  induction h with
  | nil => rfl
  | literal _ _ ih =>
    rw [List.flatMap_cons, ih fun b hb => hword b (List.mem_append_right _ hb)]
    simp [CodePart.expanded]
  | unclosed => simp [CodePart.expanded]
  | run hne hw _ _ _ =>
    obtain ⟨hne', hw'⟩ := hvalue.run hne hw
    obtain ⟨d, more, hcons⟩ := List.exists_cons_of_ne_nil hne'
    have hd := hw' d (by simp [hcons])
    rw [hword d (by simp [hcons])] at hd
    cases hd
  | byte _ _ _ ih =>
    rw [List.flatMap_cons, ih fun b hb => hword b (List.mem_append_right _ hb)]
    rfl

theorem suffix_append_cases {a b : Text} (h : z <:+ a ++ b) :
    z <:+ b ∨ ∃ y, y <:+ a ∧ z = y ++ b := by
  obtain ⟨before, hsplit⟩ := h
  rcases List.append_eq_append_iff.mp hsplit with ⟨y, ha, hz⟩ | ⟨y, -, hb⟩
  · exact .inr ⟨y, ⟨before, ha.symm⟩, hz⟩
  · exact .inl ⟨y, hb.symm⟩

theorem Text.Parts.end_of_expanded (hvalue : Renames value) (h : t.Parts ps)
    (hz : ∀ b ∈ z, isWordByte b = false) (hend : z <:+ ps.flatMap (CodePart.expanded value)) : z <:+ t := by
  -- A part that stays: what stands behind it in the gap was not renamed either.
  have hkept : ∀ {a rest : Text} {qs : List CodePart}, rest.Parts qs →
      (z <:+ qs.flatMap (CodePart.expanded value) → z <:+ rest) →
      z <:+ a ++ qs.flatMap (CodePart.expanded value) → z <:+ a ++ rest := by
    intro a rest qs hrest ih hend
    rcases suffix_append_cases hend with hend | ⟨y, hy, rfl⟩
    · exact (ih hend).trans (List.suffix_append a rest)
    · rw [hrest.eq_of_wordless hvalue fun b hb => hz b (List.mem_append_right _ hb)]
      obtain ⟨before, rfl⟩ := hy
      exact ⟨before, by simp⟩
  induction h with
  | nil => exact hend
  | literal _ hrest ih =>
    rw [List.flatMap_cons] at hend
    have h := hkept hrest ih hend
    simpa [CodePart.expanded] using h
  | unclosed => simpa [CodePart.expanded] using hend
  | run hne hw _ _ ih =>
    rw [List.flatMap_cons] at hend
    rcases suffix_append_cases hend with hend | ⟨y, hy, rfl⟩
    · exact (ih hend).trans (List.suffix_append _ _)
    · cases y with
      | nil => exact (ih List.suffix_rfl).trans (List.suffix_append _ _)
      | cons d y =>
        have hd := (hvalue.run hne hw).2 d (hy.subset List.mem_cons_self)
        rw [hz d (by simp)] at hd
        cases hd
  | byte _ _ hrest ih => exact hkept (a := [_]) hrest ih hend

theorem Text.Blank.isGap (h : t.Blank) : t.IsGap :=
  h.not_wordByte

/-- Words are renamed before or after trimming. -/
theorem Text.trim_replaceWords (hvalue : Renames value) (t : Text) :
    (t.replaceWords value).trim = t.trim.replaceWords value := by
  obtain ⟨l, r, hsplit, hl, hr, hstart, hend⟩ := exists_trim_split t
  obtain ⟨ps, hps⟩ := t.trim.exists_parts
  conv_lhs => rw [hsplit, replaceWords_between hl.isGap hr.isGap]
  rw [hps.replaceWords_eq]
  refine trim_eq_of_split hl hr ?_ ?_
  · rintro ⟨c, hc, hbegins⟩
    exact hstart ⟨c, hc, hps.start_of_expanded hvalue (blank_ofChar hc).isGap hbegins⟩
  · rintro ⟨c, hc, hsuffix⟩
    refine hend ⟨c, hc, hps.end_of_expanded hvalue (fun b hb => ?_) hsuffix⟩
    exact ((blank_ofChar hc).isGap b hb).1

/-! ### Renaming and replacing -/

/-- Replacing the words of renamed parts, if the new words stand for what the old ones stood for. -/
theorem CodePart.expanded_renamed {σ σ' : Text → Option Text} (hvalue : Renames value)
    (hw : ∀ b ∈ w, isWordByte b = true)
    (hsame : IsWord (w.dropWhile isDigitByte) →
      (σ' ((value (w.dropWhile isDigitByte)).getD (w.dropWhile isDigitByte))).getD
          ((value (w.dropWhile isDigitByte)).getD (w.dropWhile isDigitByte)) =
        (σ (w.dropWhile isDigitByte)).getD (w.dropWhile isDigitByte)) :
    expanded σ' (.run (expanded value (.run w))) = expanded σ (.run w) := by
  obtain ⟨hdigits, hnil | ⟨b, more, hcons, hstart, hmore⟩⟩ := digits_split hw
  -- A run of digits holds no word, and no name is replaced in it.
  · have hall := takeWhile_digits hnil
    have hrun : expanded value (.run w) = w := by
      simp [expanded, hnil, hall]
    rw [hrun]
    simp [expanded, hnil]
  · have hword : IsWord (w.dropWhile isDigitByte) := ⟨b, more, hcons, hstart, hmore⟩
    obtain ⟨d, new, hnew, hdstart, hdmore⟩ := hvalue.getD hword
    -- The new word does not begin with a digit, so the digits in front of it are the same as before.
    have hd : isDigitByte d = false := by
      rw [← Bool.not_eq_true]
      intro hdigit
      rw [(digit_class hdigit).2] at hdstart
      cases hdstart
    have hrun : expanded value (.run w) = w.takeWhile isDigitByte ++ d :: new := by
      rw [expanded, if_neg hword.ne_nil, hnew]
    have htake : (w.takeWhile isDigitByte ++ d :: new).takeWhile isDigitByte = w.takeWhile isDigitByte := by
      rw [List.takeWhile_append_of_pos hdigits, List.takeWhile_cons_of_neg (by simp [hd]), List.append_nil]
    have hdrop : (w.takeWhile isDigitByte ++ d :: new).dropWhile isDigitByte = d :: new := by
      rw [List.dropWhile_append_of_pos hdigits, List.dropWhile_cons_of_neg (by simp [hd])]
    have hsame := hsame hword
    rw [hnew] at hsame
    rw [hrun, expanded, expanded, htake, hdrop, if_neg (List.cons_ne_nil _ _), if_neg hword.ne_nil, hsame]

theorem Text.Parts.replaceWords_renamed {σ σ' : Text → Option Text} (hvalue : Renames value)
    (h : t.Parts ps)
    (hsame : ∀ v, .run v ∈ ps → IsWord (v.dropWhile isDigitByte) →
      (σ' ((value (v.dropWhile isDigitByte)).getD (v.dropWhile isDigitByte))).getD
          ((value (v.dropWhile isDigitByte)).getD (v.dropWhile isDigitByte)) =
        (σ (v.dropWhile isDigitByte)).getD (v.dropWhile isDigitByte)) :
    (t.replaceWords value).replaceWords σ' = t.replaceWords σ := by
  rw [(h.renamed hvalue).replaceWords_eq, h.replaceWords_eq, List.flatMap_map, List.flatMap_def,
    List.flatMap_def, List.map_congr_left fun p hp => ?_]
  cases p with
  | literal t => rfl
  | byte b => rfl
  | run w =>
    obtain ⟨_, _, _, hrun⟩ := h.hasRun hp
    exact CodePart.expanded_renamed hvalue hrun.word (hsame w hp)

end Renamed

/-! ### Parameters -/

section Parameters

variable {ps qs args : List Text} {body : Text} {parts : List CodePart}

/-- What stands in one list where a word stands in another. -/
def newName (ps qs : List Text) (w : Text) : Option Text :=
  (ps.zip qs).lookup w

theorem lookup_of_mem {l : List (Text × Text)} (hnodup : (l.map Prod.fst).Nodup) {a b : Text}
    (h : (a, b) ∈ l) : l.lookup a = some b := by
  induction l with
  | nil => cases h
  | cons e l ih =>
    obtain ⟨hfirst, hrest⟩ := List.nodup_cons.mp hnodup
    rcases List.mem_cons.mp h with rfl | h
    · exact List.lookup_cons_self
    · have hne : (a == e.1) = false := by
        rw [beq_eq_false_iff_ne]
        rintro rfl
        exact hfirst (List.mem_map.mpr ⟨_, h, rfl⟩)
      rw [List.lookup_cons, hne, ih hrest h]

theorem lookup_zip {p a : Text} {i : Nat} (hps : ps.Nodup) (hlength : args.length = ps.length)
    (hp : ps[i]? = some p) (ha : args[i]? = some a) :
    (ps.zip args).lookup p = some a ∧ (ps.zip args).reverse.lookup p = some a := by
  have hnodup : ((ps.zip args).map Prod.fst).Nodup := by
    rwa [List.map_fst_zip hlength.ge]
  have hmem : (p, a) ∈ ps.zip args := by
    refine List.mem_of_getElem? (i := i) ?_
    rw [List.getElem?_zip_eq_some]
    exact ⟨hp, ha⟩
  refine ⟨lookup_of_mem hnodup hmem, lookup_of_mem ?_ (List.mem_reverse.mpr hmem)⟩
  rw [List.map_reverse]
  exact List.nodup_reverse.mpr hnodup

theorem lookup_zip_eq_none {p : Text} (hp : p ∉ ps) :
    (ps.zip args).lookup p = none ∧ (ps.zip args).reverse.lookup p = none := by
  have hne : ∀ e ∈ ps.zip args, p ≠ e.1 := by
    rintro e he rfl
    exact hp (List.of_mem_zip he).1
  constructor
  · rw [List.lookup_eq_none_iff]
    exact fun e he => bne_iff_ne.mpr (hne e he)
  · rw [List.lookup_eq_none_iff]
    exact fun e he => bne_iff_ne.mpr (hne e (List.mem_reverse.mp he))

theorem renames_newName (hqs : ∀ q ∈ qs, IsWord q) : Renames (newName ps qs) := by
  intro w v hv
  exact hqs v (List.of_mem_zip (mem_of_lookup hv)).2

/-- With its parameters renamed, in its list and in its body, a macro has the same instances. -/
theorem instantiate_renamed (hps : ps.Nodup) (hqs : qs.Nodup) (hlength : qs.length = ps.length)
    (hwords : ∀ q ∈ qs, IsWord q) (hparts : body.Parts parts)
    (hfresh : ∀ w, .run w ∈ parts → w.dropWhile isDigitByte ∉ qs) (hargs : args.length = ps.length) :
    Macro.instantiate ⟨qs, (body.replaceWords (newName ps qs)).trim⟩ args =
      Macro.instantiate ⟨ps, body.trim⟩ args := by
  obtain ⟨l, r, hsplit, hl, hr, -⟩ := body.exists_trim_split
  obtain ⟨parts', hparts'⟩ := body.trim.exists_parts
  have hruns : ∀ w, .run w ∈ parts' → .run w ∈ parts := by
    intro w hw
    rw [hsplit] at hparts
    exact hparts'.run_between hl.isGap hr.isGap hparts hw
  have hvalue : Renames (newName ps qs) := renames_newName hwords
  rw [Macro.instantiate, Macro.instantiate, Text.trim_replaceWords hvalue]
  refine hparts'.replaceWords_renamed hvalue fun v hv _ => ?_
  have hnew := hfresh v (hruns v hv)
  generalize v.dropWhile isDigitByte = word at hnew
  by_cases hmem : word ∈ ps
  · obtain ⟨i, hi⟩ := List.mem_iff_getElem?.mp hmem
    have hlt := (List.getElem?_eq_some_iff.mp hi).1
    obtain ⟨q, hq⟩ : ∃ q, qs[i]? = some q := ⟨_, List.getElem?_eq_getElem (by omega)⟩
    obtain ⟨a, ha⟩ : ∃ a, args[i]? = some a := ⟨_, List.getElem?_eq_getElem (by omega)⟩
    rw [newName, (lookup_zip hps hlength hi hq).1, Option.getD_some,
      (lookup_zip hqs (hargs.trans hlength.symm) hq ha).2, (lookup_zip hps hargs hi ha).2]
    rfl
  · rw [newName, (lookup_zip_eq_none hmem).1, Option.getD_none, (lookup_zip_eq_none hnew).2,
      (lookup_zip_eq_none hmem).2]

end Parameters

end Pocket

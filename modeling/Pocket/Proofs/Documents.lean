import Mathlib
import Pocket.Proofs.Layouts

/-!
# Documents that are written

A mapping from words to texts, flags and lists of texts is written entry by entry. Every entry is read back up to
the line where the next one begins, so the whole document is read back as the mapping it was written from.
-/

namespace Pocket.Yaml

variable {t u w rest next : Text} {b c : UInt8} {isPlain : Bool}

/-! ### Written texts -/

theorem isWritten_of_mem (ht : t.Printed) (h : t.glyphs.all isWritten = true) : (127 : UInt8) ∉ t := by
  intro hmem
  have hglyphs := ht.glyphs []
  rw [List.append_nil] at hglyphs
  rw [hglyphs, List.all_append, List.all_map] at h
  have hlast := List.all_eq_true.mp (Bool.and_eq_true_iff.mp h).1 127 hmem
  exact absurd hlast (by decide)

/-- How a printed text is written. -/
theorem style_cases (ht : t.Printed) : style t = .double ∨
    ((127 : UInt8) ∉ t ∧ (style t = .single ∨ style t = .plain ∧ meansText t = true ∧ isPlainShape t = true)) := by
  have hline : t.contains '\n'.toUInt8 = false :=
    Bool.eq_false_iff.mpr fun hmem => ht.oneLine (List.contains_iff_mem.mp hmem)
  unfold style
  rw [hline]
  cases hwritten : t.glyphs.all isWritten with
  | false => exact .inl rfl
  | true =>
    have hlast := isWritten_of_mem ht hwritten
    cases meansText t with
    | false => exact .inl rfl
    | true =>
      cases isPlainShape t with
      | false => exact .inr ⟨hlast, .inl rfl⟩
      | true => exact .inr ⟨hlast, .inr ⟨rfl, rfl, rfl⟩⟩

/-- A text as it is written up to the start of the next line, plain or in quotes. -/
inductive WrittenAs (t : Text) : Bool → Text → Prop where
  | plain {w : Text} (hlast : (127 : UInt8) ∉ t) (hshape : isPlainShape t = true)
    (h : Laid (spelling false) false false t w) : WrittenAs t true (w ++ "\n")
  | single {w : Text} (hlast : (127 : UInt8) ∉ t) (h : Laid (spelling true) false false t w) :
    WrittenAs t false ("'" ++ w ++ "'\n")
  | double {w : Text} (h : Laid escapedSpelling true false t w) : WrittenAs t false ("\"" ++ w ++ "\"\n")

theorem writtenAs_writeText (ht : t.Printed) (column : Nat) :
    WrittenAs t (style t == .plain) (writeText column t) := by
  unfold writeText
  rcases style_cases ht with hstyle | ⟨hlast, hstyle | ⟨hstyle, -, hshape⟩⟩
  · rw [hstyle]
    exact .double (laid_wrapEscaped ht)
  · rw [hstyle]
    exact .single hlast (laid_wrap ht)
  · rw [hstyle]
    exact .plain hlast hshape (laid_wrap ht)

theorem isPlainShape_cons (h : isPlainShape t = true) (ht : t.Printed) : PlainTail false t ∧
    ∃ b u, t = b :: u ∧ b ≠ ' '.toUInt8 ∧ isPlainStart b u = true := by
  unfold isPlainShape at h
  split at h
  · cases h
  · next b u =>
    simp only [Bool.and_eq_true, bne_iff_ne] at h
    obtain ⟨⟨⟨⟨⟨hstart, hfree⟩, hspace⟩, hlast⟩, -⟩, -⟩ := h
    exact ⟨⟨ht, hlast, hfree⟩, b, u, rfl, hspace, hstart⟩

/-- The signs that begin something else than a plain text. -/
def signs : Text :=
  ",[]\x7b\x7d#&*!|>'\"%@`"

theorem ne_of_not_sign (hb : b ∉ signs) (hc : c ∈ signs) : b ≠ c :=
  fun heq => hb (heq ▸ hc)

/-- A plain text begins with none of the signs that begin something else. -/
theorem isPlainStart_cases (h : isPlainStart b u = true) :
    b ∉ signs ∧
    (b = '-'.toUInt8 ∨ b = '?'.toUInt8 ∨ b = ':'.toUInt8 → blankFollows u = false) := by
  unfold isPlainStart at h
  split at h
  · cases h
  · next hsign =>
    refine ⟨fun hmem => hsign (List.contains_iff_mem.mpr hmem), fun hb => ?_⟩
    rw [if_pos (by simpa [or_assoc] using hb)] at h
    simpa using h

/-- A plain layout begins as a plain text may begin. -/
theorem startsPlain_laid (hstart : isPlainStart b u = true) (hb : b ≠ ' '.toUInt8) (ht : Text.Printed (b :: u))
    (h : Laid (spelling false) false false u w) (rest : Text) : startsPlain false (b :: (w ++ rest)) = true := by
  obtain ⟨hprinted, hu⟩ := List.forall_mem_cons.mp ht
  obtain ⟨hsign, hblank⟩ := isPlainStart_cases hstart
  have hends (hb : b = '-'.toUInt8 ∨ b = '?'.toUInt8 ∨ b = ':'.toUInt8) : (!endsHere (w ++ rest)) = true := by
    rw [h.endsHere hu (hblank hb)]
    rfl
  unfold startsPlain
  dsimp only
  rw [if_neg (by simp [isGapByte_printed hprinted.1 hb])]
  split
  · next hdash => exact hends (.inl hdash)
  · split
    · next hmark => exact hends (.inr (by simpa using hmark))
    · simpa [signs] using hsign

/-- A text found at its first byte, with the rest of the document from the next line on. -/
inductive Found (t rest : Text) : Bool → Text → Prop where
  | plain {b : UInt8} {u s v : Text} (hb : isGapByte b = false) (hsign : b ∉ signs)
    (hstart : startsPlain false (b :: u) = true) (hread : plain (.block 1) (b :: u) = (t, newline :: rest))
    (hkey : plain .key (b :: u) = (s, newline :: v)) : Found t rest true (b :: u)
  | single {u : Text} (hread : single? u = some (t, newline :: rest)) : Found t rest false ('\''.toUInt8 :: u)
  | double {u : Text} (hread : double? u = some (t, newline :: rest)) : Found t rest false ('"'.toUInt8 :: u)

theorem WrittenAs.found (h : WrittenAs t isPlain w) (ht : t.Printed) (hrest : Solid rest) :
    Found t rest isPlain (w ++ rest) := by
  cases h with
  | plain hlast hshape h =>
    obtain ⟨htail, b, u, rfl, hb, hstart⟩ := isPlainShape_cons hshape ht
    have hread := plain_laid h htail hrest
    obtain ⟨s, v, hkey⟩ := plain_key_laid h htail rest
    obtain ⟨w, rfl, hu⟩ := h.byte_inv hb
    rw [List.append_assoc]
    exact .plain (isGapByte_printed htail.head.1 hb) (isPlainStart_cases hstart).1
      (startsPlain_laid hstart hb ht hu (newline :: rest)) hread hkey
  | single hlast h =>
    have hread := unquotes_single.laid (single?_end rest) rfl h ht
    rw [List.append_assoc, List.append_assoc]
    exact .single hread
  | double h =>
    have hread := unquotes_double.laid (double?_end (newline :: rest)) rfl h ht
    rw [List.append_assoc, List.append_assoc]
    exact .double hread

theorem Found.inlineValue? (h : Found t rest isPlain w) :
    Yaml.inlineValue? 0 w = some (.scalar ⟨isPlain, t⟩, rest) := by
  unfold Yaml.inlineValue?
  cases h with
  | plain hb hsign hstart hread hkey =>
    have hne {c : UInt8} (hc : c ∈ signs) := ne_of_not_sign hsign hc
    have hopen := And.intro (@hne '['.toUInt8 (by decide)) (@hne '\x7b'.toUInt8 (by decide))
    dsimp only
    rw [if_neg (hne (by decide)), if_neg (hne (by decide)), if_neg (by simpa using hopen),
      if_neg (hne (by decide)), if_pos hstart, hread]
    rfl
  | single hread =>
    dsimp only
    rw [if_neg (by decide), if_pos rfl, hread]
    rfl
  | double hread =>
    dsimp only
    rw [if_pos rfl, hread]
    rfl

/-- A written text is no key. -/
theorem Found.key? (h : Found t rest isPlain w) : Yaml.key? w = none := by
  unfold Yaml.key?
  cases h with
  | plain hb hsign hstart hread hkey =>
    have hne {c : UInt8} (hc : c ∈ signs) := ne_of_not_sign hsign hc
    dsimp only
    rw [if_neg (hne (by decide)), if_neg (hne (by decide)), if_pos hstart, hkey]
    rfl
  | single hread =>
    dsimp only
    rw [if_neg (by decide), if_pos rfl, hread]
    rfl
  | double hread =>
    dsimp only
    rw [if_pos rfl, hread]
    rfl

/-- A written text is no item of a list. -/
theorem Found.atItem (h : Found t rest isPlain w) : Yaml.atItem w = false := by
  cases h with
  | @plain b u s v hb hsign hstart hread hkey =>
    by_cases hdash : b = '-'.toUInt8
    · subst hdash
      have hends : endsHere u = false := by simpa [startsPlain, hb] using hstart
      simpa [Yaml.atItem] using hends
    · simp [Yaml.atItem, hdash]
  | single hread => rfl
  | double hread => rfl

theorem Found.head (h : Found t rest isPlain w) : ∃ b u, w = b :: u ∧ isGapByte b = false ∧ b ≠ '#'.toUInt8 := by
  cases h with
  | plain hb hsign => exact ⟨_, _, rfl, hb, ne_of_not_sign hsign (by decide)⟩
  | single => exact ⟨_, _, rfl, rfl, by decide⟩
  | double => exact ⟨_, _, rfl, rfl, by decide⟩

theorem Found.deeperValue? (h : Found t rest isPlain w) :
    Yaml.deeperValue? 0 w = some (.scalar ⟨isPlain, t⟩, rest) := by
  rw [Yaml.deeperValue?, h.atItem, h.key?, h.inlineValue?]
  rfl

/-! ### Lines -/

/-- The rest of a document from a line on that begins in the first column. -/
structure AtLine (u : Text) : Prop where
  solid : Solid u
  content : content? u = some (0, u)

theorem ne_of_not_gap (hb : isGapByte b = false) (hc : isGapByte c = true) : b ≠ c := by
  rintro rfl
  rw [hb] at hc
  cases hc

theorem spaces_cons (hb : isGapByte b = false) (u : Text) : (b :: u).dropWhile (· == ' '.toUInt8) = b :: u ∧
    (b :: u).takeWhile (· == ' '.toUInt8) = [] := by
  have hspace : (b == ' '.toUInt8) = false := beq_eq_false_iff_ne.mpr (ne_of_not_gap hb rfl)
  simp [hspace]

theorem content?_cons (hb : isGapByte b = false) (hsign : b ≠ '#'.toUInt8) (hmarker : atMarker (b :: u) = false) :
    content? (b :: u) = some (0, b :: u) := by
  obtain ⟨hdrop, htake⟩ := spaces_cons hb u
  rw [content?, if_neg (by simp [hmarker])]
  split
  · next h =>
    rw [hdrop] at h
    cases h
  · next h =>
    rw [hdrop] at h
    cases h
    rw [if_neg (ne_of_not_gap hb rfl), if_neg hsign, if_neg (ne_of_not_gap hb rfl), htake]
    rfl

theorem atLine_nil : AtLine [] :=
  ⟨by simp [Solid], by rw [content?]; rfl⟩

theorem atLine_cons (hb : isGapByte b = false) (hsign : b ≠ '#'.toUInt8) (hmarker : atMarker (b :: u) = false) :
    AtLine (b :: u) :=
  ⟨solid_cons hb u, content?_cons hb hsign hmarker⟩

/-! ### Lists -/

/-- The scalar that a text is read back as. -/
def Scalar.of (t : Text) : Scalar :=
  ⟨style t == .plain, t⟩

theorem found_writeText (ht : t.Printed) (hrest : Solid rest) (column : Nat) :
    Found t rest (style t == .plain) (writeText column t ++ rest) :=
  (writtenAs_writeText ht column).found ht hrest

theorem blockItem?_writeText (ht : t.Printed) (hrest : Solid rest) :
    blockItem? 0 (' '.toUInt8 :: (writeText 2 t ++ rest)) = some (some (.of t), rest) := by
  have hfound := found_writeText ht hrest 2
  obtain ⟨b, u, hw, hb, hsign⟩ := hfound.head
  have hcomment : ¬(decide (b = '\n'.toUInt8) || decide (b = '#'.toUInt8)) = true := by
    simpa using And.intro (ne_of_not_gap hb rfl) hsign
  unfold blockItem?
  rw [List.dropWhile_cons_of_pos (by rfl), hw, (spaces_cons hb u).1]
  dsimp only
  rw [if_neg hcomment, ← hw, hfound.deeperValue?]
  rfl

theorem atLine_item (u : Text) : AtLine ("- " ++ u) :=
  atLine_cons rfl (by decide) rfl

theorem atLine_items {ts : List Text} (hrest : AtLine rest) : AtLine (ts.flatMap writeItem ++ rest) := by
  cases ts with
  | nil => exact hrest
  | cons t ts =>
    rw [List.flatMap_cons, writeItem, List.append_assoc, List.append_assoc]
    exact atLine_item _

theorem blockList?_item {item : Option Scalar} {items : List (Option Scalar)}
    (hitem : blockItem? 0 (' '.toUInt8 :: u) = some (item, next)) (hless : next.length ≤ u.length)
    (hitems : blockList? 0 true next = some (items, rest)) :
    blockList? 0 true ("- " ++ u) = some (item :: items, rest) := by
  rw [blockList?, (atLine_item u).content]
  have hat : atItem ("- " ++ u) = true := rfl
  have hdrop : (("- " : Text) ++ u).drop 1 = ' '.toUInt8 :: u := rfl
  have hempty : (("- " : Text) ++ u).isEmpty = false := rfl
  have hlength : next.length < (("- " : Text) ++ u).length := Nat.lt_succ_of_le (Nat.le_succ_of_le hless)
  simp only [Option.bind_eq_bind, Option.bind_some, hempty, hat, hdrop, hitem, hlength, hitems]
  rfl

theorem blockList?_writeItems {ts : List Text} (hts : ∀ t ∈ ts, t.Printed) (hrest : AtLine rest)
    (hitem : atItem rest = false) :
    blockList? 0 true (ts.flatMap writeItem ++ rest) = some (ts.map fun t => some (.of t), rest) := by
  induction ts with
  | nil =>
    rw [List.flatMap_nil, List.nil_append, blockList?, hrest.content]
    simp [hitem]
  | cons t ts ih =>
    obtain ⟨ht, hts⟩ := List.forall_mem_cons.mp hts
    have hafter : AtLine (ts.flatMap writeItem ++ rest) := atLine_items hrest
    rw [List.flatMap_cons, writeItem, List.append_assoc, List.append_assoc, List.map_cons]
    exact blockList?_item (blockItem?_writeText ht hafter.solid) (by simp) (ih hts)

/-! ### Keys -/

/-- Whether a byte is a small letter or an underscore. -/
def isKeyByte (b : UInt8) : Bool :=
  ('a'.toUInt8 ≤ b && b ≤ 'z'.toUInt8) || b == '_'.toUInt8

/-- Whether a text is a word that can be a key. -/
def isKey (key : Text) : Bool :=
  !key.isEmpty && key.all isKeyByte

variable {key : Text}

theorem ne_of_keyByte (hb : isKeyByte b = true) (hc : isKeyByte c = false) : b ≠ c := by
  rintro rfl
  rw [hb] at hc
  cases hc

theorem isGapByte_key (hb : isKeyByte b = true) : isGapByte b = false := by
  have hspace : b ≠ ' '.toUInt8 := ne_of_keyByte hb rfl
  have htab : b ≠ '\t'.toUInt8 := ne_of_keyByte hb rfl
  have hline : b ≠ '\n'.toUInt8 := ne_of_keyByte hb rfl
  simp [isGapByte, isBlankByte, hspace, htab, hline]

theorem plain_colon (hu : endsHere u = true) : plain .key (':'.toUInt8 :: u) = ([], ':'.toUInt8 :: u) := by
  have hrun : plainRun false (':'.toUInt8 :: u) = ([], ':'.toUInt8 :: u) := by
    rw [plainRun, if_pos (by simp [hu])]
  have hgap : (':'.toUInt8 :: u).takeWhile isGapByte = [] := List.takeWhile_cons_of_neg (by decide)
  rw [plain_eq, show (Plain.key == .flow) = false from rfl, hrun]
  dsimp only
  rw [hgap, if_neg (by simp [plainGoesOn])]

theorem plain_keyed (hkey : ∀ b ∈ key, isKeyByte b = true) (hu : endsHere u = true) :
    plain .key (key ++ ':'.toUInt8 :: u) = (key, ':'.toUInt8 :: u) := by
  induction key with
  | nil => exact plain_colon hu
  | cons b key ih =>
    obtain ⟨hb, hkey⟩ := List.forall_mem_cons.mp hkey
    have hcons := @plain_cons (key ++ ':'.toUInt8 :: u) b .key (by simp) (isGapByte_key hb)
      fun heq => absurd heq (ne_of_keyByte hb rfl)
    rwa [ih hkey] at hcons

theorem isKey_cons (h : isKey key = true) :
    ∃ b u, key = b :: u ∧ isKeyByte b = true ∧ ∀ c ∈ key, isKeyByte c = true := by
  unfold isKey at h
  cases key with
  | nil => cases h
  | cons b u =>
    have hall : ∀ c ∈ b :: u, isKeyByte c = true := by simpa using h
    exact ⟨b, u, rfl, hall b List.mem_cons_self, hall⟩

theorem startsWith_cons_ne (h : b ≠ c) (u s : Text) : Text.startsWith (b :: u) (c :: s) = false := by
  simp [Text.startsWith, Text.after?, h.symm]

theorem atMarker_key (hb : isKeyByte b = true) (u : Text) : atMarker (b :: u) = false := by
  have hdashes : Text.startsWith (b :: u) "---" = false := startsWith_cons_ne (ne_of_keyByte hb rfl) _ _
  have hdots : Text.startsWith (b :: u) "..." = false := startsWith_cons_ne (ne_of_keyByte hb rfl) _ _
  rw [atMarker, hdashes, hdots]
  rfl

theorem atLine_key (hkey : isKey key = true) (u : Text) : AtLine (key ++ u) ∧ atItem (key ++ u) = false := by
  obtain ⟨b, v, rfl, hb, -⟩ := isKey_cons hkey
  have hdash : b ≠ '-'.toUInt8 := ne_of_keyByte hb rfl
  exact ⟨atLine_cons (isGapByte_key hb) (ne_of_keyByte hb rfl) (atMarker_key hb _), by simp [atItem, hdash]⟩

theorem startsPlain_key (hb : isKeyByte b = true) (u : Text) : startsPlain false (b :: u) = true := by
  have hsigns : signs.all (fun c => !isKeyByte c) = true := rfl
  have hsign : b ∉ signs := by
    intro hmem
    have hnot := List.all_eq_true.mp hsigns b hmem
    rw [hb] at hnot
    cases hnot
  have hmark : ¬(decide (b = '?'.toUInt8) || decide (b = ':'.toUInt8)) = true := by
    simpa using And.intro (ne_of_keyByte (c := '?'.toUInt8) hb rfl) (ne_of_keyByte (c := ':'.toUInt8) hb rfl)
  rw [startsPlain, if_neg (by simp [isGapByte_key hb]), if_neg (ne_of_keyByte hb rfl), if_neg hmark]
  simpa [signs] using hsign

theorem key?_keyed (hkey : isKey key = true) (hu : endsHere u = true) :
    key? (key ++ ':'.toUInt8 :: u) = some (key, u) := by
  obtain ⟨b, v, hcons, hb, hall⟩ := isKey_cons hkey
  have hline : key.contains '\n'.toUInt8 = false :=
    Bool.eq_false_iff.mpr fun hmem => ne_of_keyByte (hall _ (List.contains_iff_mem.mp hmem)) rfl rfl
  have hread : (key ++ ':'.toUInt8 :: u).take
      ((key ++ ':'.toUInt8 :: u).length - (':'.toUInt8 :: u).length) = key := by
    rw [List.length_append, Nat.add_sub_cancel]
    exact List.take_left
  have hplain := plain_keyed hall hu
  subst hcons
  have hcolon : (':'.toUInt8 :: u).dropWhile isBlankByte = ':'.toUInt8 :: u := List.dropWhile_cons_of_neg (by decide)
  unfold key?
  rw [List.cons_append] at hread hplain ⊢
  dsimp only
  rw [if_neg (ne_of_keyByte hb rfl), if_neg (ne_of_keyByte hb rfl), if_pos (startsPlain_key hb _), hplain]
  simp only [Option.bind_eq_bind, Option.bind_some, hread, hcolon, hu, hline]
  rfl

/-! ### Values -/

/-- The texts in a value. -/
def Datum.texts : Datum → List Text
  | .text t => [t]
  | .flag _ => []
  | .list ts => ts

/-- What a value is read back as. -/
def Datum.value : Datum → Value
  | .text t => .scalar (.of t)
  | .flag b => .scalar ⟨true, if b then "true" else "false"⟩
  | .list ts => .list (ts.map fun t => some (.of t))

theorem isBlankByte_of_not_gap (hb : isGapByte b = false) : isBlankByte b = false :=
  (Bool.or_eq_false_iff.mp hb).1

theorem Found.blockValue? (h : Found t rest isPlain w) :
    Yaml.blockValue? 0 (' '.toUInt8 :: w) = some (.scalar ⟨isPlain, t⟩, rest) := by
  obtain ⟨b, u, rfl, hb, hsign⟩ := h.head
  have hcomment : ¬(decide (b = '\n'.toUInt8) || decide (b = '#'.toUInt8)) = true := by
    simpa using And.intro (ne_of_not_gap hb rfl) hsign
  unfold Yaml.blockValue?
  rw [List.dropWhile_cons_of_pos (by rfl), List.dropWhile_cons_of_neg (by simp [isBlankByte_of_not_gap hb])]
  dsimp only
  rw [if_neg hcomment, h.inlineValue?]

theorem laid_word (ht : ' '.toUInt8 ∉ t) (afterSpace : Bool) : Laid (spelling false) false afterSpace t t := by
  induction t generalizing afterSpace with
  | nil => exact .nil
  | cons b t ih =>
    obtain ⟨hb, ht⟩ := not_or.mp (mt List.mem_cons.mpr ht)
    exact .byte (Ne.symm hb) (ih ht false)

theorem found_flag (flag : Bool) (hrest : Solid rest) :
    Found (if flag then "true" else "false") rest true ((if flag then "true" else "false") ++ "\n" ++ rest) := by
  cases flag with
  | false => exact (WrittenAs.plain (by decide) rfl (laid_word (by decide) false)).found (by decide +kernel) hrest
  | true => exact (WrittenAs.plain (by decide) rfl (laid_word (by decide) false)).found (by decide +kernel) hrest

theorem flowGap?_cons (hb : isGapByte b = false) (hsign : b ≠ '#'.toUInt8) : flowGap? (b :: u) = some (b :: u) := by
  have hsolid := solid_cons hb u
  rw [flowGap?]
  split
  · next h =>
    rw [hsolid.dropWhile] at h
    cases h
  · next h =>
    rw [hsolid.dropWhile] at h
    cases h
    rw [hsolid.takeWhile, if_neg (by simp [breaksOff]), if_neg hsign]

theorem blockValue?_nil (rest : Text) : blockValue? 0 (" []\n" ++ rest) = some (.list [], rest) := by
  have hlist : flowList? ("]\n" ++ rest) = some ([], "\n" ++ rest) := by
    rw [flowList?]
    have hgap : flowGap? (("]\n" : Text) ++ rest) = some ("]\n" ++ rest) := flowGap?_cons rfl (by decide)
    rw [hgap]
    rfl
  have hvalue : flowValue? ("[]\n" ++ rest) = some (.list [], "\n" ++ rest) := by
    change (flowList? ("]\n" ++ rest)).map _ = _
    rw [hlist]
    rfl
  change inlineValue? 0 ("[]\n" ++ rest) = _
  unfold inlineValue?
  change (flowValue? ("[]\n" ++ rest)).bind _ = _
  rw [hvalue]
  rfl

theorem blockValue?_items {ts : List Text} (hts : ∀ t ∈ ts, t.Printed) (hne : ts ≠ []) (hrest : AtLine rest)
    (hitem : atItem rest = false) :
    blockValue? 0 ("\n" ++ (ts.flatMap writeItem ++ rest)) = some (.list (ts.map fun t => some (.of t)), rest) := by
  have hlist := blockList?_writeItems hts hrest hitem
  have hat : atItem (ts.flatMap writeItem ++ rest) = true := by
    obtain ⟨t, ts, rfl⟩ := List.exists_cons_of_ne_nil hne
    rfl
  change (content? (ts.flatMap writeItem ++ rest)).bind _ = _
  rw [(atLine_items hrest).content]
  dsimp only [Option.bind_some]
  rw [if_pos (by simp [hat])]
  change (blockList? 0 true (ts.flatMap writeItem ++ rest)).bind _ = _
  rw [hlist]
  rfl

/-! ### Entries -/

/-- After the colon of an entry its value is read, up to where the next entry begins. -/
theorem exists_writeEntry {value : Datum} (hvalue : ∀ t ∈ value.texts, t.Printed) (hrest : AtLine rest)
    (hitem : atItem rest = false) (key : Text) : ∃ after, writeEntry key value ++ rest = key ++ ':'.toUInt8 :: after ∧
      rest.length ≤ after.length ∧ endsHere after = true ∧ blockValue? 0 after = some (value.value, rest) := by
  cases value with
  | text t =>
    obtain ⟨ht, -⟩ := List.forall_mem_cons.mp hvalue
    refine ⟨' '.toUInt8 :: (writeText (key.length + 2) t ++ rest), ?_, ?_, rfl,
      (found_writeText ht hrest.solid _).blockValue?⟩
    · rw [writeEntry, List.append_assoc, List.append_assoc]
      rfl
    · rw [List.length_cons, List.length_append]
      omega
  | flag b =>
    refine ⟨_, ?_, ?_, rfl, (found_flag b hrest.solid).blockValue?⟩
    · rw [writeEntry]
      simp only [List.append_assoc]
      rfl
    · rw [List.length_cons, List.length_append]
      omega
  | list ts =>
    cases ts with
    | nil =>
      refine ⟨_, ?_, ?_, rfl, blockValue?_nil rest⟩
      · rw [writeEntry, List.append_assoc]
        rfl
      · rw [List.length_append]
        omega
    -- The items end where the next entry begins, which is no item.
    | cons t ts =>
      refine ⟨_, ?_, ?_, rfl, blockValue?_items hvalue (List.cons_ne_nil t ts) hrest hitem⟩
      · rw [writeEntry]
        · simp only [List.append_assoc]
          rfl
        · simp
      · rw [List.length_append, List.length_append]
        omega

theorem blockMapping?_entry {value : Value} {entries : List (Text × Value)} (hkey : isKey key = true)
    (hends : endsHere u = true) (hvalue : blockValue? 0 u = some (value, next)) (hless : next.length ≤ u.length)
    (hentries : blockMapping? 0 next = some entries) :
    blockMapping? 0 (key ++ ':'.toUInt8 :: u) = some ((key, value) :: entries) := by
  obtain ⟨hline, -⟩ := atLine_key hkey (':'.toUInt8 :: u)
  have hempty : (key ++ ':'.toUInt8 :: u).isEmpty = false := by simp
  have hlength : next.length < (key ++ ':'.toUInt8 :: u).length := by
    rw [List.length_append, List.length_cons]
    omega
  rw [blockMapping?, hline.content]
  simp only [Option.bind_eq_bind, Option.bind_some, hempty, key?_keyed hkey hends, hvalue, hlength, hentries]
  rfl

variable {entries : List (Text × Datum)}

theorem atLine_writeMapping (hkeys : ∀ e ∈ entries, isKey e.1 = true)
    (hvalues : ∀ e ∈ entries, ∀ t ∈ e.2.texts, t.Printed) :
    AtLine (writeMapping entries) ∧ atItem (writeMapping entries) = false ∧
      blockMapping? 0 (writeMapping entries) = some (entries.map fun e => (e.1, e.2.value)) := by
  induction entries with
  | nil =>
    refine ⟨atLine_nil, rfl, ?_⟩
    rw [blockMapping?, show writeMapping [] = [] from rfl, atLine_nil.content]
    rfl
  | cons entry entries ih =>
    obtain ⟨hkey, hkeys⟩ := List.forall_mem_cons.mp hkeys
    obtain ⟨hvalue, hvalues⟩ := List.forall_mem_cons.mp hvalues
    obtain ⟨hline, hitem, hentries⟩ := ih hkeys hvalues
    obtain ⟨after, hentry, hless, hends, hread⟩ := exists_writeEntry hvalue hline hitem entry.1
    obtain ⟨hline, hitem⟩ := atLine_key hkey (':'.toUInt8 :: after)
    change AtLine (writeEntry entry.1 entry.2 ++ writeMapping entries) ∧
      atItem (writeEntry entry.1 entry.2 ++ writeMapping entries) = false ∧
      blockMapping? 0 (writeEntry entry.1 entry.2 ++ writeMapping entries) = _
    rw [hentry]
    exact ⟨hline, hitem, blockMapping?_entry hkey hends hread hless hentries⟩

/-! ### Characters -/

/-- Whether a byte is a newline or a printable character. -/
def isTypeset (b : UInt8) : Bool :=
  b == newline || (32 ≤ b.toNat && b.toNat ≤ 126)

theorem isTypeset_iff : isTypeset b = true ↔ b = newline ∨ 32 ≤ b.toNat ∧ b.toNat ≤ 126 := by
  simp [isTypeset]

theorem isTypeset_printed (hb : 32 ≤ b.toNat ∧ b.toNat < 128) (hlast : b ≠ 127) : isTypeset b = true := by
  have hne : b.toNat ≠ 127 := fun h => hlast (UInt8.toNat_inj.mp h)
  exact isTypeset_iff.mpr (.inr ⟨hb.1, by omega⟩)

theorem Laid.typeset {spell : UInt8 → Text} {slashed afterSpace : Bool} (h : Laid spell slashed afterSpace t w)
    (hspell : ∀ b ∈ t, (spell b).all isTypeset = true) : w.all isTypeset = true := by
  induction h with
  | nil => rfl
  | byte hb h ih =>
    obtain ⟨hb, ht⟩ := List.forall_mem_cons.mp hspell
    rw [List.all_append, hb, ih ht]
    rfl
  | space h ih => exact ih (List.forall_mem_cons.mp hspell).2
  | fold hb h ih =>
    rw [List.all_append, ih (List.forall_mem_cons.mp hspell).2]
    rfl
  | foldMore hslashed h ih =>
    rw [List.all_append, List.all_append, ih (List.forall_mem_cons.mp (List.forall_mem_cons.mp hspell).2).2]
    rfl

theorem WrittenAs.typeset (h : WrittenAs t isPlain w) (ht : t.Printed) : w.all isTypeset = true := by
  -- A text with a delete character is never written plain or between single quotes.
  have hspelling (hlast : (127 : UInt8) ∉ t) (quoted : Bool) : ∀ b ∈ t, (spelling quoted b).all isTypeset = true := by
    intro b hb
    unfold spelling
    split
    · rfl
    · simpa using isTypeset_printed (ht b hb) (ne_of_mem_of_not_mem hb hlast)
  have hescaped : ∀ b ∈ t, (escapedSpelling b).all isTypeset = true := by
    intro b hb
    rcases escapedSpelling_cases (ht b hb) with ⟨-, h⟩ | ⟨-, h⟩ | ⟨-, h⟩ | ⟨-, -, hlast, h⟩
    · rw [h]
      rfl
    · rw [h]
      rfl
    · rw [h]
      rfl
    · rw [h]
      simpa using isTypeset_iff.mpr (.inr ⟨(ht b hb).1, hlast⟩)
  cases h with
  | plain hlast hshape h =>
    rw [List.all_append, h.typeset (hspelling hlast false)]
    rfl
  | single hlast h =>
    rw [List.all_append, List.all_append, h.typeset (hspelling hlast true)]
    rfl
  | double h =>
    rw [List.all_append, List.all_append, h.typeset hescaped]
    rfl

theorem typeset_key (hkey : isKey key = true) : key.all isTypeset = true := by
  obtain ⟨-, -, -, -, hall⟩ := isKey_cons hkey
  rw [List.all_eq_true]
  intro b hb
  have hbyte := hall b hb
  simp only [isKeyByte, Bool.or_eq_true, Bool.and_eq_true, decide_eq_true_eq, beq_iff_eq,
    UInt8.le_iff_toNat_le] at hbyte
  rcases hbyte with ⟨hlow, hhigh⟩ | rfl
  · have ha : 'a'.toUInt8.toNat = 97 := rfl
    have hz : 'z'.toUInt8.toNat = 122 := rfl
    exact isTypeset_iff.mpr (.inr (by omega))
  · rfl

theorem typeset_writeEntry {value : Datum} (hkey : isKey key = true) (hvalue : ∀ t ∈ value.texts, t.Printed) :
    (writeEntry key value).all isTypeset = true := by
  have hkey := typeset_key hkey
  cases value with
  | text t =>
    obtain ⟨ht, -⟩ := List.forall_mem_cons.mp hvalue
    rw [writeEntry, List.all_append, List.all_append, hkey, (writtenAs_writeText ht _).typeset ht]
    rfl
  | flag b =>
    rw [writeEntry, List.all_append, List.all_append, List.all_append, hkey]
    cases b <;> rfl
  | list ts =>
    have hitems : (ts.flatMap writeItem).all isTypeset = true := by
      rw [List.all_flatMap, List.all_eq_true]
      intro t ht
      rw [writeItem, List.all_append, (writtenAs_writeText (hvalue t ht) 2).typeset (hvalue t ht)]
      rfl
    cases ts with
    | nil =>
      rw [writeEntry, List.all_append, hkey]
      rfl
    | cons t ts =>
      rw [writeEntry]
      · rw [List.all_append, List.all_append, hkey, hitems]
        rfl
      · simp

theorem typeset_writeMapping (hkeys : ∀ e ∈ entries, isKey e.1 = true)
    (hvalues : ∀ e ∈ entries, ∀ t ∈ e.2.texts, t.Printed) : (writeMapping entries).all isTypeset = true := by
  rw [writeMapping, List.all_flatMap, List.all_eq_true]
  intro e he
  exact typeset_writeEntry (hkeys e he) (hvalues e he)

/-! ### Whole documents -/

theorem isTypeset_lt (hb : isTypeset b = true) : b.toNat < 128 := by
  rcases isTypeset_iff.mp hb with rfl | ⟨-, hle⟩
  · decide
  · omega

theorem char_ne_of_typeset (hb : isTypeset b = true) {c : Char} (hc : c.toNat ≠ 10 ∧ (c.toNat < 32 ∨ 126 < c.toNat)) :
    (Glyph.of (Char.ofNat b.toNat)).char ≠ c := by
  rintro rfl
  rw [toNat_byte (isTypeset_lt hb)] at hc
  rcases isTypeset_iff.mp hb with rfl | hrange
  · exact hc.1 rfl
  · omega

theorem withNewlines_typeset (ht : t.all isTypeset = true) : withNewlines t.glyphs = t := by
  induction t with
  | nil => rfl
  | cons b t ih =>
    obtain ⟨hb, ht⟩ := Bool.and_eq_true_iff.mp ht
    have hlt := isTypeset_lt hb
    rw [glyphs_ascii hlt, withNewlines.eq_def]
    dsimp only
    have hbreaks : ∀ c ∈ ['\u0085', '\u2028', '\u2029'], (Glyph.of (Char.ofNat b.toNat)).char ≠ c := by
      simp only [List.forall_mem_cons]
      exact ⟨char_ne_of_typeset hb (by decide), char_ne_of_typeset hb (by decide), char_ne_of_typeset hb (by decide),
        by simp⟩
    rw [if_neg (char_ne_of_typeset hb (by decide)), if_neg (by simpa [and_assoc] using hbreaks), bytes_byte hlt, ih ht]
    rfl

theorem isAllowed_typeset (ht : t.all isTypeset = true) : t.glyphs.all isAllowed = true := by
  induction t with
  | nil => rfl
  | cons b t ih =>
    obtain ⟨hb, ht⟩ := Bool.and_eq_true_iff.mp ht
    have hlt := isTypeset_lt hb
    have hallowed : allowedRanges.contains b.toNat = true := by
      rcases isTypeset_iff.mp hb with rfl | hrange
      · rfl
      · rw [allowedRanges, Ranges.contains, if_neg (by omega), if_neg (by omega), Ranges.contains, if_neg (by omega),
          if_neg (by omega), Ranges.contains, if_neg (by omega), if_pos (by omega)]
    rw [glyphs_ascii hlt, List.all_cons, ih ht, isAllowed, toNat_byte hlt, Pattern.isIllFormed_of, hallowed]
    rfl

theorem dropByteOrderMark_typeset (ht : t.all isTypeset = true) : dropByteOrderMark t.glyphs = t.glyphs := by
  cases t with
  | nil => rfl
  | cons b t =>
    obtain ⟨hb, -⟩ := Bool.and_eq_true_iff.mp ht
    rw [glyphs_ascii (isTypeset_lt hb)]
    exact if_neg (char_ne_of_typeset hb (by decide))

theorem firstLine_cons (hb : isGapByte b = false) (hsign : b ≠ '#'.toUInt8) : firstLine (b :: u) = b :: u := by
  obtain ⟨hdrop, -⟩ := spaces_cons hb u
  rw [firstLine]
  split
  · next h =>
    rw [hdrop] at h
    cases h
  · next h =>
    rw [hdrop] at h
    cases h
    rw [if_neg (ne_of_not_gap hb rfl), if_neg hsign]

theorem ofText?_keyed {entries : List (Text × Value)} (hkey : isKey key = true) (hends : endsHere u = true)
    (htypeset : (key ++ ':'.toUInt8 :: u).all isTypeset = true)
    (hmapping : blockMapping? 0 (key ++ ':'.toUInt8 :: u) = some entries) :
    Document.ofText? (key ++ ':'.toUInt8 :: u) = some (.mapping entries) := by
  have hcontent := (atLine_key hkey (':'.toUInt8 :: u)).1.content
  have hread := key?_keyed hkey hends
  obtain ⟨b, v, rfl, hb, -⟩ := isKey_cons hkey
  rw [List.cons_append] at *
  have hbrace : ((b :: (v ++ ':'.toUInt8 :: u)).head? == some '\x7b'.toUInt8) = false := by
    simpa using ne_of_keyByte (c := '\x7b'.toUInt8) hb rfl
  unfold Document.ofText?
  dsimp only
  rw [dropByteOrderMark_typeset htypeset, isAllowed_typeset htypeset, withNewlines_typeset htypeset,
    firstLine_cons (isGapByte_key hb) (ne_of_keyByte hb rfl), atMarker_key hb, hcontent]
  change document? (b :: (v ++ ':'.toUInt8 :: u)) 0 (b :: (v ++ ':'.toUInt8 :: u)) = _
  rw [document?, hbrace, hread, hmapping]
  rfl

/-- A mapping is read back from the document it was written to. -/
theorem ofText?_writeMapping (hne : entries ≠ []) (hkeys : ∀ e ∈ entries, isKey e.1 = true)
    (hvalues : ∀ e ∈ entries, ∀ t ∈ e.2.texts, t.Printed) :
    Document.ofText? (writeMapping entries) = some (.mapping (entries.map fun e => (e.1, e.2.value))) := by
  have htypeset := typeset_writeMapping hkeys hvalues
  obtain ⟨-, -, hmapping⟩ := atLine_writeMapping hkeys hvalues
  obtain ⟨entry, entries, rfl⟩ := List.exists_cons_of_ne_nil hne
  obtain ⟨hkey, hkeys⟩ := List.forall_mem_cons.mp hkeys
  obtain ⟨hvalue, hvalues⟩ := List.forall_mem_cons.mp hvalues
  obtain ⟨hline, hitem, -⟩ := atLine_writeMapping hkeys hvalues
  obtain ⟨after, hentry, -, hends, -⟩ := exists_writeEntry hvalue hline hitem entry.1
  have hwritten : writeMapping (entry :: entries) = entry.1 ++ ':'.toUInt8 :: after := hentry
  rw [hwritten] at htypeset hmapping ⊢
  exact ofText?_keyed hkey hends htypeset hmapping

end Pocket.Yaml

import Mathlib
import Pocket.Proofs.Reading
import Pocket.Proofs.WordRuns

/-!
# Calls of macros

The arguments of a call stand in parentheses behind the name, separated by the commas that are in no
further parentheses. A macro with parameters is replaced only where it is called with as many arguments;
everywhere else its name stays. A macro whose parameter list is empty is no such macro: its name alone is
replaced, and a list behind it stays.
-/

namespace Pocket

/-! ### Lists of arguments -/

/-- A text in which every parenthesis has its partner. -/
inductive Balanced : Text → Prop where
  | nil : Balanced []
  | byte {b : UInt8} {t : Text} (hopen : b ≠ '('.toUInt8) (hclose : b ≠ ')'.toUInt8) (ht : Balanced t) :
      Balanced (b :: t)
  | group {s t : Text} (hs : Balanced s) (ht : Balanced t) :
      Balanced ('('.toUInt8 :: (s ++ ')'.toUInt8 :: t))

/-- A text that may be an argument: its parentheses are balanced, and commas stand inside them only. -/
inductive Argument : Text → Prop where
  | nil : Argument []
  | byte {b : UInt8} {t : Text} (hopen : b ≠ '('.toUInt8) (hclose : b ≠ ')'.toUInt8)
      (hcomma : b ≠ ','.toUInt8) (ht : Argument t) : Argument (b :: t)
  | group {s t : Text} (hs : Balanced s) (ht : Argument t) :
      Argument ('('.toUInt8 :: (s ++ ')'.toUInt8 :: t))

/-- Blanks that may stand between the name of a macro and its arguments. -/
def IsCallGap (gap : Text) : Prop :=
  ∀ b ∈ gap, b = ' '.toUInt8 ∨ b = '\t'.toUInt8

/-- An opening parenthesis stands in front, perhaps behind blanks. -/
def OpensList (t : Text) : Prop :=
  ∃ gap more, IsCallGap gap ∧ t = gap ++ '('.toUInt8 :: more

/-- A whole list of arguments stands in front of some text, perhaps behind blanks; the arguments are
trimmed. -/
def ListsArguments (t : Text) (args : List Text) (beyond : Text) : Prop :=
  ∃ gap raws, IsCallGap gap ∧ raws ≠ [] ∧ (∀ raw ∈ raws, Argument raw) ∧
    t = gap ++ '('.toUInt8 :: (Text.join "," raws ++ ')'.toUInt8 :: beyond) ∧ args = raws.map Text.trim

namespace Macro

variable {n : Nat} {current t x after beyond : Text} {b : UInt8} {args raws : List Text}

theorem takeArguments_open (n : Nat) (current t : Text) :
    takeArguments n current ('('.toUInt8 :: t) = takeArguments (n + 1) ('('.toUInt8 :: current) t := by
  rw [takeArguments.eq_def]
  exact if_pos rfl

theorem takeArguments_close (current t : Text) :
    takeArguments 0 current (')'.toUInt8 :: t) = some ([Text.trim current.reverse], t) := by
  rw [takeArguments, if_neg (by decide), if_pos rfl]

theorem takeArguments_close_nested (n : Nat) (current t : Text) :
    takeArguments (n + 1) current (')'.toUInt8 :: t) = takeArguments n (')'.toUInt8 :: current) t := by
  rw [takeArguments, if_neg (by decide), if_pos rfl]

theorem takeArguments_comma (current t : Text) :
    takeArguments 0 current (','.toUInt8 :: t) =
      (takeArguments 0 [] t).map fun (args, after) => (Text.trim current.reverse :: args, after) := by
  rw [takeArguments, if_neg (by decide), if_neg (by decide), if_pos (by decide)]

theorem takeArguments_byte (hopen : b ≠ '('.toUInt8) (hclose : b ≠ ')'.toUInt8)
    (hcomma : b ≠ ','.toUInt8 ∨ n ≠ 0) :
    takeArguments n current (b :: t) = takeArguments n (b :: current) t := by
  have hseparator : (b = ','.toUInt8 && n = 0 : Bool) = false := by
    rcases hcomma with h | h <;> simp [h]
  rw [takeArguments.eq_def]
  dsimp only
  rw [if_neg hopen, if_neg hclose, hseparator]
  rfl

/-- Inside parentheses a balanced text is read as it stands. -/
theorem takeArguments_balanced (hx : Balanced x) (n : Nat) (current t : Text) :
    takeArguments (n + 1) current (x ++ t) = takeArguments (n + 1) (x.reverse ++ current) t := by
  induction hx generalizing n current t with
  | nil => rfl
  | byte hopen hclose _ ih =>
    rw [List.cons_append, takeArguments_byte hopen hclose (.inr (Nat.succ_ne_zero n)), ih]
    simp
  | group _ _ ihs iht =>
    simp only [List.cons_append, List.append_assoc]
    rw [takeArguments_open, ihs, takeArguments_close_nested, iht]
    simp

theorem takeArguments_argument (hx : Argument x) (current t : Text) :
    takeArguments 0 current (x ++ t) = takeArguments 0 (x.reverse ++ current) t := by
  induction hx generalizing current t with
  | nil => rfl
  | byte hopen hclose hcomma _ ih =>
    rw [List.cons_append, takeArguments_byte hopen hclose (.inl hcomma), ih]
    simp
  | group hs _ ih =>
    simp only [List.cons_append, List.append_assoc]
    rw [takeArguments_open, takeArguments_balanced hs, takeArguments_close_nested, ih]
    simp

theorem takeArguments_complete (hne : raws ≠ []) (hraws : ∀ raw ∈ raws, Argument raw) (beyond : Text) :
    takeArguments 0 [] (Text.join "," raws ++ ')'.toUInt8 :: beyond) =
      some (raws.map Text.trim, beyond) := by
  induction raws with
  | nil => exact absurd rfl hne
  | cons raw more ih =>
    obtain ⟨hraw, hmore⟩ := List.forall_mem_cons.mp hraws
    cases more with
    | nil =>
      rw [Text.join, List.intercalate_singleton, takeArguments_argument hraw, takeArguments_close]
      simp
    | cons next more =>
      have hjoin : Text.join "," (raw :: next :: more) ++ ')'.toUInt8 :: beyond =
          raw ++ ','.toUInt8 :: (Text.join "," (next :: more) ++ ')'.toUInt8 :: beyond) := by
        rw [Text.join, Text.join, List.intercalate_cons_cons]
        simp only [List.append_assoc]
        rfl
      rw [hjoin, takeArguments_argument hraw, takeArguments_comma, ih (List.cons_ne_nil _ _) hmore]
      simp

/-- Reading inside parentheses comes to the one that closes the innermost of them. -/
theorem takeArguments_nested {r : List Text × Text} (h : takeArguments (n + 1) current t = some r) :
    ∃ x u, Balanced x ∧ t = x ++ ')'.toUInt8 :: u ∧
      takeArguments n ((x ++ [')'.toUInt8]).reverse ++ current) u = some r := by
  generalize hlength : t.length = k
  induction k using Nat.strongRecOn generalizing n current t with
  | ind k ih =>
    cases t with
    | nil =>
      rw [takeArguments] at h
      cases h
    | cons b t =>
      rw [List.length_cons] at hlength
      by_cases hopen : b = '('.toUInt8
      · -- Another group is opened: it is closed first, and then the one around it.
        subst hopen
        rw [takeArguments_open] at h
        obtain ⟨x, u, hx, rfl, hu⟩ := ih t.length (by omega) h rfl
        rw [List.length_append, List.length_cons] at hlength
        obtain ⟨y, v, hy, rfl, hv⟩ := ih u.length (by omega) hu rfl
        refine ⟨_, v, .group hx hy, by simp, ?_⟩
        simpa using hv
      · by_cases hclose : b = ')'.toUInt8
        · subst hclose
          rw [takeArguments_close_nested] at h
          exact ⟨[], t, .nil, rfl, h⟩
        -- At a depth above zero a comma is like any other byte.
        · rw [takeArguments_byte hopen hclose (.inr (Nat.succ_ne_zero n))] at h
          obtain ⟨x, u, hx, rfl, hu⟩ := ih t.length (by omega) h rfl
          refine ⟨b :: x, u, .byte hopen hclose hx, rfl, ?_⟩
          simpa using hu

theorem takeArguments_sound (h : takeArguments 0 current t = some (args, after)) :
    ∃ raw raws, Argument raw ∧ (∀ raw ∈ raws, Argument raw) ∧
      t = Text.join "," (raw :: raws) ++ ')'.toUInt8 :: after ∧
      args = Text.trim (current.reverse ++ raw) :: raws.map Text.trim := by
  generalize hlength : t.length = k
  induction k using Nat.strongRecOn generalizing current t args with
  | ind k ih =>
    cases t with
    | nil =>
      rw [takeArguments] at h
      cases h
    | cons b t =>
      rw [List.length_cons] at hlength
      by_cases hopen : b = '('.toUInt8
      -- A group belongs to the argument as a whole, with the commas in it.
      · subst hopen
        rw [takeArguments_open] at h
        obtain ⟨x, u, hx, rfl, hu⟩ := takeArguments_nested h
        rw [List.length_append, List.length_cons] at hlength
        obtain ⟨raw, raws, hraw, hraws, rfl, rfl⟩ := ih u.length (by omega) hu rfl
        refine ⟨_, raws, .group hx hraw, hraws, ?_, by simp⟩
        cases raws <;> simp [Text.join, List.intercalate]
      · by_cases hclose : b = ')'.toUInt8
        · subst hclose
          rw [takeArguments_close] at h
          cases h
          exact ⟨[], [], .nil, by simp, rfl, by simp⟩
        -- A comma ends the argument, and the rest are the further ones.
        · by_cases hcomma : b = ','.toUInt8
          · subst hcomma
            rw [takeArguments_comma] at h
            obtain ⟨⟨more, after'⟩, hmore, heq⟩ := Option.map_eq_some_iff.mp h
            cases heq
            obtain ⟨raw, raws, hraw, hraws, rfl, rfl⟩ := ih t.length (by omega) hmore rfl
            refine ⟨[], raw :: raws, .nil, List.forall_mem_cons.mpr ⟨hraw, hraws⟩, ?_, by simp⟩
            rw [Text.join, Text.join, List.intercalate_cons_cons]
            rfl
          · rw [takeArguments_byte hopen hclose (.inl hcomma)] at h
            obtain ⟨raw, raws, hraw, hraws, rfl, rfl⟩ := ih t.length (by omega) h rfl
            refine ⟨b :: raw, raws, .byte hopen hclose hcomma hraw, hraws, ?_, by simp⟩
            cases raws <;> simp [Text.join, List.intercalate]

theorem arguments?_eq_some_iff : arguments? t = some (args, beyond) ↔ ListsArguments t args beyond := by
  have hgap : ∀ b : UInt8, (b == ' '.toUInt8 || b == '\t'.toUInt8) = true ↔
      b = ' '.toUInt8 ∨ b = '\t'.toUInt8 := by simp
  constructor
  · intro h
    -- Spaces and tabs may stand before the list, and nothing else.
    have hsplit := List.takeWhile_append_dropWhile (p := fun b => b == ' '.toUInt8 || b == '\t'.toUInt8)
      (l := t)
    have hblank : IsCallGap (t.takeWhile fun b => b == ' '.toUInt8 || b == '\t'.toUInt8) :=
      fun b hb => (hgap b).mp (List.all_eq_true.mp List.all_takeWhile b hb)
    unfold arguments? at h
    split at h
    · cases h
    · next b rest hdrop =>
      split at h
      · next hopen =>
        obtain ⟨raw, raws, hraw, hraws, rfl, rfl⟩ := takeArguments_sound h
        rw [hdrop, hopen] at hsplit
        exact ⟨_, raw :: raws, hblank, List.cons_ne_nil _ _, List.forall_mem_cons.mpr ⟨hraw, hraws⟩,
          hsplit.symm, by simp⟩
      · cases h
  · rintro ⟨gap, raws, hblank, hne, hraws, rfl, rfl⟩
    have hdrop : List.dropWhile (fun b => b == ' '.toUInt8 || b == '\t'.toUInt8)
        (gap ++ '('.toUInt8 :: (Text.join "," raws ++ ')'.toUInt8 :: beyond)) =
          '('.toUInt8 :: (Text.join "," raws ++ ')'.toUInt8 :: beyond) := by
      rw [List.dropWhile_append_of_pos fun b hb => (hgap b).mpr (hblank b hb),
        List.dropWhile_cons_of_neg (by decide)]
    unfold arguments?
    rw [hdrop]
    dsimp only
    rw [if_pos rfl, takeArguments_complete hne hraws]

theorem call?_eq_some_iff {m : Macro} : m.call? t = some (args, beyond) ↔
    ListsArguments t args beyond ∧ args.length = m.params.length := by
  rw [call?, Option.filter_eq_some_iff, arguments?_eq_some_iff, decide_eq_true_iff]

theorem call?_eq_none_iff {m : Macro} : m.call? t = none ↔
    ∀ args beyond, ListsArguments t args beyond → args.length ≠ m.params.length := by
  rw [Option.eq_none_iff_forall_ne_some]
  constructor
  · intro h args beyond hargs hlength
    exact h (args, beyond) (call?_eq_some_iff.mpr ⟨hargs, hlength⟩)
  · rintro h ⟨args, beyond⟩ hcall
    obtain ⟨hargs, hlength⟩ := call?_eq_some_iff.mp hcall
    exact h args beyond hargs hlength

end Macro

/-! ### Expansion step by step -/

/-- A word: a letter or an underscore, and then letters, digits and underscores. -/
def IsWord (w : Text) : Prop :=
  ∃ b more, w = b :: more ∧ isWordStart b = true ∧ ∀ c ∈ more, isWordByte c = true

theorem IsWord.cut {w rest : Text} (hw : IsWord w) (hrest : ∀ b ∈ rest.head?, isWordByte b = false) :
    ∃ b tail, w ++ rest = b :: tail ∧ Front.cut b tail = (.word w, rest) := by
  obtain ⟨b, more, rfl, hstart, hmore⟩ := hw
  exact ⟨b, more ++ rest, rfl, Front.cut_word hstart hmore hrest⟩

namespace Macros

variable {ms : Macros} {depth : Nat} {t out piece rest after w : Text} {b : UInt8} {m : Macro}

theorem expand_plain (hcut : Front.cut b rest = (.plain t, after)) :
    ms.expand depth (b :: rest) = (ms.expand depth after).map (t ++ ·) := by
  rw [expand]
  split
  · next hcut' =>
    rw [hcut] at hcut'
    cases hcut'
    rfl
  · next hcut' =>
    rw [hcut] at hcut'
    cases hcut'

theorem expand_word (hcut : Front.cut b rest = (.word w, after)) :
    ms.expand depth (b :: rest) =
      match ms.lookup w with
      | none => (ms.expand depth after).map (w ++ ·)
      | some m =>
        if m.params.isEmpty then (ms.expand depth after).map (m.body ++ ·)
        else match m.call? after with
          | none => (ms.expand depth after).map (w ++ ·)
          | some (args, beyond) =>
            match depth with
            | 0 => none
            | d + 1 => (do
              let inner ← ms.expand d (m.instantiate args)
              let tail ← ms.expand (d + 1) beyond
              some (inner ++ tail)) := by
  rw [expand]
  split
  -- The cut is known, so just one of the two branches is left.
  · next hcut' =>
    rw [hcut] at hcut'
    cases hcut'
  · next hcut' =>
    rw [hcut] at hcut'
    cases hcut'
    cases hm : ms.lookup w with
    | none => rfl
    | some m =>
      dsimp only
      split
      · rfl
      · split
        · next hcall => rw [hcall]
        · next args beyond hcall =>
          cases depth with
          | zero => simp only [hcall]
          | succ d => simp only [hcall]

/-- Expanding a text writes `piece` first and goes on with `rest`. -/
inductive Step (ms : Macros) (depth : Nat) : Text → Text → Text → Prop where
  | plain {b : UInt8} {rest t after : Text} (hcut : Front.cut b rest = (.plain t, after)) :
      Step ms depth (b :: rest) t after
  | word {b : UInt8} {rest w after : Text} (hcut : Front.cut b rest = (.word w, after))
      (hw : ms.lookup w = none) : Step ms depth (b :: rest) w after
  | value {b : UInt8} {rest w after : Text} {m : Macro} (hcut : Front.cut b rest = (.word w, after))
      (hm : ms.lookup w = some m) (hparams : m.params = []) : Step ms depth (b :: rest) m.body after
  | name {b : UInt8} {rest w after : Text} {m : Macro} (hcut : Front.cut b rest = (.word w, after))
      (hm : ms.lookup w = some m) (hparams : m.params ≠ [])
      (hcall : ∀ args beyond, ListsArguments after args beyond → args.length ≠ m.params.length) :
      Step ms depth (b :: rest) w after
  | call {b : UInt8} {rest w after beyond inner : Text} {m : Macro} {args : List Text} {d : Nat}
      (hcut : Front.cut b rest = (.word w, after)) (hm : ms.lookup w = some m) (hparams : m.params ≠ [])
      (hargs : ListsArguments after args beyond) (hlength : args.length = m.params.length)
      (hdepth : depth = d + 1) (hinner : ms.expand d (m.instantiate args) = some inner) :
      Step ms depth (b :: rest) inner beyond

theorem Step.expand (h : ms.Step depth t piece rest) :
    ms.expand depth t = (ms.expand depth rest).map (piece ++ ·) := by
  cases h with
  | plain hcut => exact expand_plain hcut
  | word hcut hw => rw [expand_word hcut, hw]
  | value hcut hm hparams =>
    rw [expand_word hcut, hm]
    dsimp only
    rw [hparams]
    rfl
  | name hcut hm hparams hcall =>
    rw [expand_word hcut, hm]
    dsimp only
    rw [if_neg (by simpa using hparams), Macro.call?_eq_none_iff.mpr hcall]
  | call hcut hm hparams hargs hlength hdepth hinner =>
    subst hdepth
    rw [expand_word hcut, hm]
    dsimp only
    rw [if_neg (by simpa using hparams), Macro.call?_eq_some_iff.mpr ⟨hargs, hlength⟩]
    dsimp only
    rw [hinner]
    cases ms.expand (_ + 1) _ <;> rfl

/-- In expanding a text, what stands before `rest` has been written as `out`. -/
inductive Reaches (ms : Macros) (depth : Nat) (t : Text) : Text → Text → Prop where
  | start : Reaches ms depth t [] t
  | step {out piece s rest : Text} (h : Reaches ms depth t out s) (hstep : ms.Step depth s piece rest) :
      Reaches ms depth t (out ++ piece) rest

theorem Reaches.expand (h : ms.Reaches depth t out rest) :
    ms.expand depth t = (ms.expand depth rest).map (out ++ ·) := by
  induction h with
  | start => simp
  | step _ hstep ih =>
    rw [ih, hstep.expand, Option.map_map]
    congr 1
    funext tail
    simp

end Macros

/-! ### Macros defined with a parameter list -/

theorem IsWord.wordBytes {w : Text} (hw : IsWord w) : ∀ c ∈ w, isWordByte c = true := by
  obtain ⟨b, more, rfl, hstart, hmore⟩ := hw
  exact List.forall_mem_cons.mpr ⟨isWordByte_of_start hstart, hmore⟩

theorem endsName_of_wordByte {c : UInt8} (h : isWordByte c = true) : Directive.endsName c = false := by
  by_contra hends
  rw [Bool.not_eq_false, Directive.endsName, Bool.or_eq_true, Bool.or_eq_true, beq_iff_eq, beq_iff_eq,
    beq_iff_eq] at hends
  rcases hends with (rfl | rfl) | rfl <;> exact absurd h (by decide)

theorem IsWord.endsName {w : Text} (hw : IsWord w) : ∀ c ∈ w, Directive.endsName c = false :=
  fun c hc => endsName_of_wordByte (hw.wordBytes c hc)

theorem Text.split_length (sep : UInt8) (t : Text) : (t.split sep).length = t.count sep + 1 := by
  induction t with
  | nil => rfl
  | cons b t ih =>
    rw [Text.split]
    split
    · next hb => rw [hb, List.count_cons_self, List.length_cons, ih]
    · next hb =>
      rw [List.count_cons_of_ne hb]
      split
      · next hsplit =>
        rw [hsplit] at ih
        simp at ih
      · next hsplit =>
        rw [hsplit] at ih
        exact ih

theorem Text.cut?_append {sep : UInt8} {before after : Text} (h : sep ∉ before) :
    Text.cut? sep (before ++ sep :: after) = some (before, after) := by
  have hbefore : ∀ b ∈ before, (b != sep) = true :=
    fun b hb => bne_iff_ne.mpr fun heq => h (heq ▸ hb)
  rw [Text.cut?, List.dropWhile_append_of_pos hbefore, List.dropWhile_cons_of_neg (by simp),
    List.takeWhile_append_of_pos hbefore, List.takeWhile_cons_of_neg (by simp), List.append_nil]

/-- The number of parameters that a list between the parentheses of a definition names. -/
def parameterCount (list : Text) : Nat :=
  if list.trim = [] then 0 else list.count ','.toUInt8 + 1

namespace Directive

theorem parameters_length (list : Text) : (parameters list).length = parameterCount list := by
  rw [parameters, parameterCount]
  split
  · next h => rw [if_pos (List.isEmpty_iff.mp h)]; rfl
  · next h => rw [if_neg (fun heq => h (List.isEmpty_iff.mpr heq)), List.length_map, Text.split_length]

variable {name list body : Text} {ms ms' : Macros} {depth : Nat}

/-- A definition whose name an opening parenthesis follows directly, as it is written. -/
def withList (name list body : Text) : Text :=
  name ++ '('.toUInt8 :: (list ++ ')'.toUInt8 :: body)

theorem readDefinition_list (hname : ∀ c ∈ name, endsName c = false) (hlist : ')'.toUInt8 ∉ list) :
    readDefinition (withList name list body) = .ok (name, ⟨parameters list, body.trim⟩) := by
  have hkept : ∀ c ∈ name, (!endsName c) = true := fun c hc => by rw [hname c hc]; rfl
  have hparen : ¬(!endsName '('.toUInt8) = true := by decide
  rw [readDefinition, withList, if_neg (by simp)]
  dsimp only
  rw [List.takeWhile_append_of_pos hkept, List.dropWhile_append_of_pos hkept,
    List.takeWhile_cons_of_neg (p := fun b => !endsName b) hparen,
    List.dropWhile_cons_of_neg (p := fun b => !endsName b) hparen]
  dsimp only
  rw [if_pos rfl, Text.cut?_append hlist]
  simp

/-- A parameter list that names parameters is kept with the body; one that names none leaves a macro
without parameters, whose body is expanded at once. -/
theorem lookup_macrosAfter_list (hname : ∀ c ∈ name, endsName c = false) (hlist : ')'.toUInt8 ∉ list)
    (h : macrosAfter ms depth (withList name list body) = .ok ms') :
    (parameters list ≠ [] → ms'.lookup name = some ⟨parameters list, body.trim⟩) ∧
    (parameters list = [] → ∃ value, ms.expand depth body.trim = some value ∧
      ms'.lookup name = some ⟨[], value⟩) := by
  rw [macrosAfter, readDefinition_list hname hlist] at h
  change (if (parameters list).isEmpty then _ else _) = _ at h
  constructor
  · intro hne
    rw [if_neg (by simpa using hne)] at h
    cases h
    simp [Macros.define]
  · intro hnil
    rw [if_pos (by simpa using hnil)] at h
    change (Preprocess.withinDepth depth (ms.expand depth body.trim) >>= _) = _ at h
    cases hvalue : ms.expand depth body.trim with
    | none => rw [hvalue] at h; cases h
    | some value =>
      rw [hvalue] at h
      cases h
      exact ⟨value, rfl, by simp [Macros.define]⟩

end Directive

/-! ### Where a macro with parameters is replaced -/

namespace Macros

variable {ms : Macros} {depth : Nat} {t out name rest total : Text} {m : Macro}

/-- From a step at a place that expanding reaches: what is written before, at and behind it. -/
theorem Reaches.expand_step {piece s : Text} (h : ms.Reaches depth t out s)
    (htotal : ms.expand depth t = some total) (hstep : ms.Step depth s piece rest) :
    ∃ tail, ms.expand depth rest = some tail ∧ total = out ++ piece ++ tail := by
  rw [(h.step hstep).expand] at htotal
  obtain ⟨tail, htail, heq⟩ := Option.map_eq_some_iff.mp htotal
  exact ⟨tail, htail, heq.symm⟩

/-- A call that is expanded has its body expanded within the bound. -/
theorem Reaches.expand_call {beyond : Text} {args : List Text}
    (h : ms.Reaches depth t out (name ++ rest)) (htotal : ms.expand depth t = some total)
    (hname : IsWord name) (hrest : ∀ b ∈ rest.head?, isWordByte b = false)
    (hm : ms.lookup name = some m) (hparams : m.params ≠ [])
    (hargs : ListsArguments rest args beyond) (hlength : args.length = m.params.length) :
    ∃ d inner tail, depth = d + 1 ∧ ms.expand d (m.instantiate args) = some inner ∧
      ms.expand depth beyond = some tail ∧ total = out ++ inner ++ tail := by
  obtain ⟨b, more, hsplit, hcut⟩ := hname.cut hrest
  rw [hsplit] at h
  have hexpand := htotal
  rw [h.expand, expand_word hcut, hm] at hexpand
  dsimp only at hexpand
  rw [if_neg (by simpa using hparams), Macro.call?_eq_some_iff.mpr ⟨hargs, hlength⟩] at hexpand
  dsimp only at hexpand
  cases depth with
  | zero => cases hexpand
  | succ d =>
    dsimp only at hexpand
    cases hinner : ms.expand d (m.instantiate args) with
    | none => rw [hinner] at hexpand; cases hexpand
    | some inner =>
      obtain ⟨tail, htail, heq⟩ :=
        h.expand_step htotal (.call hcut hm hparams hargs hlength rfl hinner)
      exact ⟨d, inner, tail, rfl, hinner, htail, heq⟩

end Macros

/-- A macro defined with a list of at least one parameter is replaced exactly where it is called with as
many arguments, name and list together, by its expanded body with the arguments put in; without a list,
with a list that is not closed and with any other number of arguments its name stays. A macro defined
with an empty list is replaced by its value wherever its name stands, and what follows stays. -/
theorem replaced_only_if_called {ms₀ ms₁ ms : Macros} {depth₀ depth : Nat}
    {name list body t out rest total : Text}
    (hname : IsWord name) (hlist : ')'.toUInt8 ∉ list)
    (hdefine : Directive.macrosAfter ms₀ depth₀ (Directive.withList name list body) = .ok ms₁)
    (hms : ms.lookup name = ms₁.lookup name)
    (htotal : ms.expand depth t = some total)
    (hreach : ms.Reaches depth t out (name ++ rest))
    (hrest : ∀ b ∈ rest.head?, isWordByte b = false) :
    (0 < parameterCount list →
      (¬OpensList rest → ∃ tail, ms.expand depth rest = some tail ∧ total = out ++ name ++ tail) ∧
      (∀ args beyond, ListsArguments rest args beyond → args.length = parameterCount list →
        ∃ d inner tail, depth = d + 1 ∧
          ms.expand d (Macro.instantiate ⟨Directive.parameters list, body.trim⟩ args) = some inner ∧
          ms.expand depth beyond = some tail ∧ total = out ++ inner ++ tail) ∧
      ((∀ args beyond, ListsArguments rest args beyond → args.length ≠ parameterCount list) →
        ∃ tail, ms.expand depth rest = some tail ∧ total = out ++ name ++ tail)) ∧
    (parameterCount list = 0 → ∃ value tail, ms₀.expand depth₀ body.trim = some value ∧
      ms.expand depth rest = some tail ∧ total = out ++ value ++ tail) := by
  obtain ⟨hsome, hnone⟩ := Directive.lookup_macrosAfter_list hname.endsName hlist hdefine
  rw [← hms] at hsome
  simp only [← hms] at hnone
  rw [← Directive.parameters_length]
  have hreach' := hreach
  obtain ⟨b, more, hsplit, hcut⟩ := hname.cut hrest
  rw [hsplit] at hreach
  constructor
  · intro hpos
    have hne := List.ne_nil_of_length_pos hpos
    -- A name that is not followed by a list of the right length stays, for whatever reason.
    have hkept : (∀ args beyond, ListsArguments rest args beyond →
        args.length ≠ (Directive.parameters list).length) →
        ∃ tail, ms.expand depth rest = some tail ∧ total = out ++ name ++ tail :=
      fun h => hreach.expand_step htotal (.name hcut (hsome hne) hne h)
    refine ⟨fun hopen => hkept fun args beyond hargs => ?_, fun args beyond hargs hlength => ?_, hkept⟩
    · obtain ⟨gap, raws, hgap, -, -, ht, -⟩ := hargs
      exact absurd ⟨gap, _, hgap, ht⟩ hopen
    · exact hreach'.expand_call htotal hname hrest (hsome hne) hne hargs hlength
  · intro hzero
    have hnil := List.eq_nil_of_length_eq_zero hzero
    obtain ⟨value, hvalue, hlookup⟩ := hnone hnil
    obtain ⟨tail, htail, heq⟩ := hreach.expand_step htotal (.value hcut hlookup rfl)
    exact ⟨value, tail, hvalue, htail, heq⟩

/-- The macros behind the definition of a macro with two parameters. -/
def sumMacros : Macros := [("SUM", ⟨["a", "b"], "(a+b)"⟩)]

/-- A call with a comma in inner parentheses is replaced with its list; a call with one argument stays. -/
theorem replaced_only_if_called_sum :
    Directive.macrosAfter [] 0 (Directive.withList "SUM" "a, b" " (a+b)") = .ok sumMacros ∧
    sumMacros.Reaches 1 ('+'.toUInt8 :: ("SUM" ++ Text.ofString " (f(x,y), 2);")) ['+'.toUInt8]
      ("SUM" ++ Text.ofString " (f(x,y), 2);") ∧
    ListsArguments " (f(x,y), 2);" ["f(x,y)", "2"] ";" ∧
    (∃ d inner tail, 1 = d + 1 ∧
      sumMacros.expand d (Macro.instantiate ⟨["a", "b"], "(a+b)"⟩ ["f(x,y)", "2"]) = some inner ∧
      sumMacros.expand 1 ";" = some tail ∧ Text.ofString "+(f(x,y)+2);" = ['+'.toUInt8] ++ inner ++ tail) ∧
    ∃ tail, sumMacros.expand 1 "(1)" = some tail ∧
      Text.ofString "SUM" ++ Text.ofString "(1)" = [] ++ Text.ofString "SUM" ++ tail := by
  have hword : IsWord "SUM" := ⟨_, _, rfl, rfl, List.all_eq_true.mp rfl⟩
  have hdefine : Directive.macrosAfter [] 0 (Directive.withList "SUM" "a, b" " (a+b)") = .ok sumMacros := by
    cbv
  have hargs : ListsArguments " (f(x,y), 2);" ["f(x,y)", "2"] ";" :=
    Macro.arguments?_eq_some_iff.mp (by cbv)
  have hreach : sumMacros.Reaches 1 ('+'.toUInt8 :: ("SUM" ++ Text.ofString " (f(x,y), 2);"))
      ['+'.toUInt8] ("SUM" ++ Text.ofString " (f(x,y), 2);") :=
    .step .start (.plain (Front.cut_byte (by decide) (by decide)))
  have hcalled : ∀ b ∈ List.head? (Text.ofString " (f(x,y), 2);"), isWordByte b = false := by
    rintro b ⟨⟩
    rfl
  have hmissing : ∀ b ∈ List.head? (Text.ofString "(1)"), isWordByte b = false := by
    rintro b ⟨⟩
    rfl
  have hone : Macro.arguments? "(1)" = some ([Text.ofString "1"], []) := by cbv
  refine ⟨hdefine, hreach, hargs, ?_, ?_⟩
  · exact ((replaced_only_if_called hword (by decide) hdefine rfl (by cbv) hreach hcalled).1
      (by decide)).2.1 _ _ hargs (by decide)
  · refine ((replaced_only_if_called hword (by decide) hdefine rfl (by cbv) .start hmissing).1
      (by decide)).2.2 fun args beyond h => ?_
    rw [Macro.arguments?_eq_some_iff.mpr h] at hone
    cases hone
    decide

/-- A macro defined with an empty list is replaced where it is not called, and where it is called its list
stays. -/
theorem empty_list_needs_no_call : ∃ ms,
    Directive.macrosAfter [] 0 (Directive.withList "F" [] " 1") = .ok ms ∧ ¬OpensList [] ∧
      ms.expand 0 "F" = some "1" ∧ ms.expand 0 "F()" = some "1()" := by
  refine ⟨[("F", ⟨[], "1"⟩)], by cbv, ?_, by cbv, by cbv⟩
  rintro ⟨gap, more, -, h⟩
  cases gap <;> cases h

end Pocket

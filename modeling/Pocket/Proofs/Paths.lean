import Mathlib
import Pocket.Path
import Pocket.Proofs.Emission
import Pocket.Proofs.InstructionLines

/-!
# Cleaned paths

A path is cleaned by taking its steps one after the other and writing down the names that are left. These can
be read off the cleaned path again, so two paths are cleaned alike if both or neither of them starts at the
root and the same names are left. The last name is the base of the cleaned path, and the others make its
folder. A new extension changes nothing but the last piece of a path, and makes a name of it.
-/

namespace Pocket

theorem Text.split_between (sep : UInt8) (u v : Text) :
    split sep (u ++ sep :: v) = split sep u ++ split sep v := by
  induction u with
  | nil => simp [split]
  | cons b u ih =>
    obtain ⟨first, more, hsplit⟩ := Asm.exists_split_eq_cons sep u
    rw [hsplit] at ih
    by_cases hb : b = sep
    · simp [split, hb, ih, hsplit]
    · simp [split, hb, ih, hsplit]

theorem Text.not_mem_of_mem_split {sep : UInt8} {t piece : Text} (h : piece ∈ split sep t) : sep ∉ piece := by
  induction t generalizing piece with
  | nil =>
    obtain rfl := List.mem_singleton.mp h
    exact List.not_mem_nil
  | cons b t ih =>
    obtain ⟨first, more, hsplit⟩ := Asm.exists_split_eq_cons sep t
    rw [hsplit] at ih
    rw [split, hsplit] at h
    split at h
    · rcases List.mem_cons.mp h with rfl | h
      · exact List.not_mem_nil
      · exact ih h
    · next hb =>
      rcases List.mem_cons.mp h with rfl | h
      · exact List.not_mem_cons_of_ne_of_not_mem (Ne.symm hb) (ih List.mem_cons_self)
      · exact ih (List.mem_cons_of_mem _ h)

namespace Path

variable {path piece n : Text} {ns : List Text} {rooted : Bool}

/-! ### Steps -/

/-- The names that are left when all steps of a path are taken, the last of them first. -/
def names (path : Text) : List Text :=
  (pieces path).foldl (step (isAbsolute path)) []

/-- A piece of a path that leads to a file or a folder of that name. -/
structure IsName (n : Text) : Prop where
  ne_nil : n ≠ []
  ne_here : n ≠ "."
  ne_above : n ≠ ".."
  no_slash : '/'.toUInt8 ∉ n

/-- Names that no step takes away any more: those that lead upwards come before all others, and there are
none behind the root. -/
inductive Reduced (rooted : Bool) : List Text → Prop where
  | nil : Reduced rooted []
  | name {n : Text} {ns : List Text} (hn : IsName n) (hns : Reduced rooted ns) : Reduced rooted (n :: ns)
  | above {ns : List Text} (hrooted : rooted = false) (hlast : ∀ n ∈ ns.head?, n = "..")
      (hns : Reduced rooted ns) : Reduced rooted (".." :: ns)

theorem step_push (hhere : ¬(piece = [] ∨ piece = ".")) (habove : piece ≠ "..") :
    step rooted ns piece = piece :: ns := by
  unfold step
  rw [if_neg (by simpa using hhere), if_neg habove]

theorem step_name (hn : IsName n) : step rooted ns n = n :: ns :=
  step_push (not_or.mpr ⟨hn.ne_nil, hn.ne_here⟩) hn.ne_above

theorem step_here (h : piece = [] ∨ piece = ".") : step rooted ns piece = ns := by
  rcases h with rfl | rfl <;> rfl

/-- What is left by a step upwards was below the name that the step has taken away. -/
theorem names_before_above {u v : List Text}
    (h : step rooted ns ".." = u ++ n :: v) (hu : ∀ x ∈ u, x ≠ "..") (hn : n ≠ "..") :
    ∃ last : Text, last ≠ ".." ∧ ns = last :: (u ++ n :: v) := by
  have hhead (rest : List Text) : (".." : Text) :: rest ≠ u ++ n :: v := by
    intro hrest
    cases u with
    | nil => exact hn (List.cons.inj hrest).1.symm
    | cons x u => exact hu x List.mem_cons_self (List.cons.inj hrest).1.symm
  cases ns with
  | nil =>
    cases rooted with
    | false => exact absurd h (hhead [])
    | true => exact absurd h.symm (by simp [step])
  | cons last before =>
    by_cases hlast : last = ".."
    · exact absurd ((if_pos hlast).symm.trans h) (hhead (last :: before))
    · exact ⟨last, hlast, congrArg (last :: ·) ((if_neg hlast).symm.trans h)⟩

theorem Reduced.step_above (h : Reduced rooted ns) : Reduced rooted (step rooted ns "..") := by
  cases h with
  | nil =>
    cases rooted
    · exact .above rfl (by simp) .nil
    · exact .nil
  | name hn hns => rwa [show step rooted (_ :: _) ".." = _ from if_neg hn.ne_above]
  | above hrooted hlast hns => exact .above hrooted (by simp) (.above hrooted hlast hns)

theorem Reduced.step (h : Reduced rooted ns) (hpiece : '/'.toUInt8 ∉ piece) :
    Reduced rooted (step rooted ns piece) := by
  by_cases hhere : piece = [] ∨ piece = "."
  · rwa [step_here hhere]
  · obtain ⟨hnil, hdot⟩ := not_or.mp hhere
    by_cases habove : piece = ".."
    · exact habove ▸ h.step_above
    · have hn : IsName piece := ⟨hnil, hdot, habove, hpiece⟩
      exact step_name hn ▸ .name hn h

theorem reduced_names (path : Text) : Reduced (isAbsolute path) (names path) := by
  have hsteps (ps : List Text) (hps : ∀ p ∈ ps, '/'.toUInt8 ∉ p) {ns : List Text}
      (hns : Reduced (isAbsolute path) ns) :
      Reduced (isAbsolute path) (ps.foldl (Path.step (isAbsolute path)) ns) := by
    induction ps generalizing ns with
    | nil => exact hns
    | cons p ps ih =>
      obtain ⟨hp, hps⟩ := List.forall_mem_cons.mp hps
      exact ih hps (hns.step hp)
  exact hsteps _ (fun _ => Text.not_mem_of_mem_split) .nil

/-- Names that no step takes away are left as they are. -/
theorem Reduced.foldl_step (h : Reduced rooted ns) : ns.reverse.foldl (Path.step rooted) [] = ns := by
  induction h with
  | nil => rfl
  | name hn hns ih => rw [List.reverse_cons, List.foldl_append, ih, List.foldl_cons, List.foldl_nil, step_name hn]
  | @above ns hrooted hlast hns ih =>
    rw [List.reverse_cons, List.foldl_append, ih, List.foldl_cons, List.foldl_nil]
    cases ns with
    | nil => rw [hrooted]; rfl
    | cons n ns => exact if_pos (hlast n rfl)

theorem Reduced.no_slash (h : Reduced rooted ns) : ∀ n ∈ ns, '/'.toUInt8 ∉ n := by
  induction h with
  | nil => simp
  | name hn _ ih => exact List.forall_mem_cons.mpr ⟨hn.no_slash, ih⟩
  | above _ _ _ ih => exact List.forall_mem_cons.mpr ⟨by decide, ih⟩

theorem Reduced.tail (h : Reduced rooted (n :: ns)) : Reduced rooted ns := by
  cases h with
  | name _ hns => exact hns
  | above _ _ hns => exact hns

theorem Reduced.ne_nil (h : Reduced rooted ns) : ∀ n ∈ ns, n ≠ [] := by
  induction h with
  | nil => simp
  | name hn _ ih => exact List.forall_mem_cons.mpr ⟨hn.ne_nil, ih⟩
  | above _ _ _ ih => exact List.forall_mem_cons.mpr ⟨by decide, ih⟩

/-! ### Cleaning -/

/-- A path written from its names. -/
def render (rooted : Bool) (ns : List Text) : Text :=
  if rooted then "/" ++ Text.join "/" ns.reverse
  else if ns.isEmpty then "."
  else Text.join "/" ns.reverse

theorem clean_eq (path : Text) : clean path = render (isAbsolute path) (names path) := by
  rw [clean, render, ← names, List.isEmpty_reverse]

theorem isAbsolute_cons_iff {b : UInt8} : isAbsolute (b :: path) = true ↔ b = '/'.toUInt8 := by
  rw [isAbsolute, Text.startsWith_iff]
  exact List.cons_prefix_cons.trans ⟨fun h => h.1.symm, fun h => ⟨h.symm, List.nil_prefix⟩⟩

theorem isAbsolute_append (hn : n ≠ []) (path : Text) : isAbsolute (n ++ path) = isAbsolute n := by
  cases n with
  | nil => exact absurd rfl hn
  | cons b n => rw [Bool.eq_iff_iff, List.cons_append, isAbsolute_cons_iff, isAbsolute_cons_iff]

theorem isAbsolute_of_no_slash (h : '/'.toUInt8 ∉ n) : isAbsolute n = false := by
  cases n with
  | nil => rfl
  | cons b n =>
    rw [← Bool.not_eq_true, isAbsolute_cons_iff]
    rintro rfl
    exact h List.mem_cons_self

theorem Reduced.isAbsolute_render (h : Reduced rooted ns) : isAbsolute (render rooted ns) = rooted := by
  cases rooted with
  | true => exact isAbsolute_cons_iff.mpr rfl
  | false =>
    rcases hns : ns.reverse with _ | ⟨first, more⟩
    · rw [List.reverse_eq_nil_iff.mp hns]
      rfl
    · have hfirst : first ∈ ns := List.mem_reverse.mp (hns ▸ List.mem_cons_self)
      have hslash := isAbsolute_of_no_slash (h.no_slash first hfirst)
      have hne : ns ≠ [] := List.ne_nil_of_mem hfirst
      rw [render, if_neg Bool.false_ne_true, if_neg (by simpa using hne), hns]
      cases more with
      | nil => rwa [Asm.join_singleton]
      | cons second more => rwa [Asm.join_cons _ _ (List.cons_ne_nil _ _), isAbsolute_append (h.ne_nil first hfirst)]

theorem Reduced.names_render (h : Reduced rooted ns) : names (render rooted ns) = ns := by
  rw [names, h.isAbsolute_render]
  rcases eq_or_ne ns [] with rfl | hne
  · cases rooted <;> rfl
  · have hpieces : Text.split '/'.toUInt8 (Text.join "/" ns.reverse) = ns.reverse :=
      Text.split_join (by simpa using hne) fun n hn => h.no_slash n (List.mem_reverse.mp hn)
    cases rooted with
    | false =>
      rw [render, if_neg Bool.false_ne_true, if_neg (by simpa using hne), pieces, hpieces, h.foldl_step]
    | true =>
      rw [render, if_pos rfl, pieces, show (Text.ofString "/" ++ Text.join "/" ns.reverse) =
        [] ++ '/'.toUInt8 :: Text.join "/" ns.reverse from rfl, Text.split_between, hpieces,
        List.foldl_append]
      exact h.foldl_step

@[simp] theorem isAbsolute_clean (path : Text) : isAbsolute (clean path) = isAbsolute path := by
  rw [clean_eq, (reduced_names path).isAbsolute_render]

@[simp] theorem names_clean (path : Text) : names (clean path) = names path := by
  rw [clean_eq, (reduced_names path).names_render]

theorem clean_eq_clean_iff {p q : Text} :
    clean p = clean q ↔ isAbsolute p = isAbsolute q ∧ names p = names q := by
  constructor
  · intro h
    exact ⟨by rw [← isAbsolute_clean p, h, isAbsolute_clean], by rw [← names_clean p, h, names_clean]⟩
  · rintro ⟨hrooted, hnames⟩
    rw [clean_eq, clean_eq, hrooted, hnames]

@[simp] theorem clean_clean (path : Text) : clean (clean path) = clean path :=
  clean_eq_clean_iff.mpr ⟨isAbsolute_clean path, names_clean path⟩

/-! ### The last piece -/

/-- What stands before the last piece of a path. -/
def front (path : Text) : Text :=
  path.take (path.length - (lastPiece path).length)

/-- Nothing, or a text that a slash ends: the parts of a path that a last piece may follow. -/
def IsFront (f : Text) : Prop :=
  f = [] ∨ ∃ d, f = d ++ ['/'.toUInt8]

section LastPiece

variable {f last : Text}

theorem lastPiece_append (hf : IsFront f) (hlast : '/'.toUInt8 ∉ last) : lastPiece (f ++ last) = last := by
  have hpass : ∀ b ∈ last.reverse, (b != '/'.toUInt8) = true := by
    intro b hb
    rw [bne_iff_ne]
    rintro rfl
    exact hlast (List.mem_reverse.mp hb)
  have hstop : f.reverse.takeWhile (· != '/'.toUInt8) = [] := by
    rcases hf with rfl | ⟨d, rfl⟩
    · rfl
    · rw [List.reverse_append]
      rfl
  rw [lastPiece, List.reverse_append, List.takeWhile_append_of_pos hpass, hstop, List.append_nil,
    List.reverse_reverse]

theorem lastPiece_no_slash (path : Text) : '/'.toUInt8 ∉ lastPiece path := by
  intro hmem
  have hpass := List.mem_takeWhile_imp (List.mem_reverse.mp hmem)
  exact absurd hpass (by decide)

theorem front_append (hf : IsFront f) (hlast : '/'.toUInt8 ∉ last) : front (f ++ last) = f := by
  rw [front, lastPiece_append hf hlast, List.length_append, Nat.add_sub_cancel, List.take_left]

/-- Every path is a front and a last piece. -/
theorem exists_front (path : Text) : ∃ f last, IsFront f ∧ '/'.toUInt8 ∉ last ∧ path = f ++ last := by
  by_cases h : '/'.toUInt8 ∈ path.reverse
  · obtain ⟨u, v, hsplit, hu⟩ := List.eq_append_cons_of_mem h
    refine ⟨v.reverse ++ ['/'.toUInt8], u.reverse, .inr ⟨_, rfl⟩, by simpa using hu, ?_⟩
    rw [← List.reverse_reverse path, hsplit]
    simp
  · exact ⟨[], path, .inl rfl, by simpa using h, rfl⟩

theorem isAbsolute_front (hf : IsFront f) (hlast : '/'.toUInt8 ∉ last) : isAbsolute (f ++ last) = isAbsolute f := by
  rcases hf with rfl | ⟨d, rfl⟩
  · exact isAbsolute_of_no_slash hlast
  · exact isAbsolute_append (by simp) last

theorem exists_pieces (path : Text) : ∃ before, pieces path = before ++ [lastPiece path] := by
  obtain ⟨f, last, hf, hlast, rfl⟩ := exists_front path
  have hpieces : pieces last = [last] := Asm.split_not_mem hlast
  rw [lastPiece_append hf hlast]
  rcases hf with rfl | ⟨d, rfl⟩
  · exact ⟨[], hpieces⟩
  · refine ⟨pieces d, ?_⟩
    rw [List.append_assoc, ← hpieces]
    exact Text.split_between _ d last

/-- The steps of a path are those of its front and then the last piece. -/
theorem names_append (hf : IsFront f) (hlast : '/'.toUInt8 ∉ last) :
    names (f ++ last) = step (isAbsolute f) (names f) last := by
  have hpieces : pieces last = [last] := Asm.split_not_mem hlast
  rw [names, names, isAbsolute_front hf hlast]
  rcases hf with rfl | ⟨d, rfl⟩
  · rw [List.nil_append, hpieces]
    rfl
  · have hbetween (t : Text) : pieces (d ++ '/'.toUInt8 :: t) = pieces d ++ pieces t := Text.split_between _ d t
    rw [List.append_assoc, List.singleton_append, hbetween, hbetween, hpieces, List.foldl_append, List.foldl_append]
    rfl

theorem dir_append (hf : IsFront f) (hlast : '/'.toUInt8 ∉ last) : dir (f ++ last) = clean f :=
  congrArg clean (front_append hf hlast)

theorem base_append (hf : IsFront f) (hlast : '/'.toUInt8 ∉ last) (hne : last ≠ []) : base (f ++ last) = last := by
  obtain ⟨b, more, hreverse⟩ := List.exists_cons_of_ne_nil (List.reverse_ne_nil_iff.mpr hne)
  have hb : (b == '/'.toUInt8) = false := by
    rw [beq_eq_false_iff_ne]
    rintro rfl
    exact hlast (List.mem_reverse.mp (hreverse ▸ List.mem_cons_self))
  have hbody : ((f ++ last).reverse.dropWhile (· == '/'.toUInt8)).reverse = f ++ last := by
    rw [List.reverse_append, hreverse, List.cons_append, List.dropWhile_cons_of_neg (by simp [hb]), ← List.cons_append,
      ← hreverse, ← List.reverse_append, List.reverse_reverse]
  rw [base, hbody, if_neg (by simp [hne]), if_neg (by simp [hne]), lastPiece_append hf hlast]

/-! ### Extensions -/

theorem ext_append (hf : IsFront f) (hlast : '/'.toUInt8 ∉ last) : ext (f ++ last) = ext last := by
  have hpiece : lastPiece last = last := lastPiece_append (.inl rfl) hlast
  rw [ext, ext, lastPiece_append hf hlast, hpiece]

/-- The extension ends the last piece. -/
theorem exists_stem (hlast : '/'.toUInt8 ∉ last) : ∃ stem, stem ++ ext last = last := by
  have hpiece : lastPiece last = last := lastPiece_append (.inl rfl) hlast
  have hsplit := last.reverse.takeWhile_append_dropWhile (p := (· != '.'.toUInt8))
  rw [ext, hpiece]
  split
  · exact ⟨last, List.append_nil last⟩
  · next dot more hdrop =>
    rw [hdrop] at hsplit
    exact ⟨more.reverse, by simpa using congrArg List.reverse hsplit⟩

/-- A new extension is put behind all of a path or in the place of another one. -/
theorem exists_withExt (hlast : '/'.toUInt8 ∉ last) {e : Text} (he : e ≠ []) : ∃ stem, stem <+: last ∧
    stem ++ e ≠ last ∧ ∀ f, IsFront f → withExt (f ++ last) e = f ++ (stem ++ e) := by
  obtain ⟨stem, hstem⟩ := exists_stem hlast
  by_cases hold : ext last = [] ∨ ext last = e
  · refine ⟨last, List.prefix_rfl, by simpa using he, fun f hf => ?_⟩
    rw [withExt, ext_append hf hlast, if_pos (by simpa using hold), List.append_assoc]
  · refine ⟨stem, ⟨_, hstem⟩, fun h => ?_, fun f hf => ?_⟩
    · rw [← hstem, List.append_cancel_left_eq] at h
      exact hold (.inr h.symm)
    · have hpath : f ++ last = f ++ stem ++ ext last := by rw [List.append_assoc, hstem]
      have hdrop : Text.dropEnding (f ++ last) (ext last) = f ++ stem := by
        have hkept := Text.dropEnding_append (Asm.endsWith_iff.mpr ⟨f ++ stem, hpath⟩)
        exact List.append_cancel_right (hkept.trans hpath)
      rw [withExt, ext_append hf hlast, if_neg (by simpa using hold), hdrop, List.append_assoc]

end LastPiece

/-! ### Names of cleaned paths -/

theorem join_concat {ts : List Text} (sep t : Text) (h : ts ≠ []) :
    Text.join sep (ts ++ [t]) = Text.join sep ts ++ (sep ++ t) := by
  induction ts with
  | nil => exact absurd rfl h
  | cons u ts ih =>
    rw [List.cons_append, Asm.join_cons _ _ (by simp)]
    cases ts with
    | nil => rw [List.nil_append, Asm.join_singleton, Asm.join_singleton]
    | cons v ts => rw [ih (List.cons_ne_nil _ _), Asm.join_cons _ _ (List.cons_ne_nil _ _)]; simp

theorem clean_slash (h : path ≠ []) : clean (path ++ ['/'.toUInt8]) = clean path := by
  rw [clean_eq_clean_iff, names, names, isAbsolute_append h]
  have hpieces : pieces (path ++ ['/'.toUInt8]) = pieces path ++ [[]] := Text.split_between _ path []
  rw [hpieces, List.foldl_append]
  exact ⟨rfl, rfl⟩

theorem Reduced.clean_render (h : Reduced rooted ns) : clean (render rooted ns) = render rooted ns := by
  rw [clean_eq, h.isAbsolute_render, h.names_render]

/-- A path written from names is that of the names before the last one, followed by the last one. -/
theorem exists_render_front (h : Reduced rooted ns) (n : Text) :
    ∃ f, IsFront f ∧ render rooted (n :: ns) = f ++ n ∧ clean f = render rooted ns := by
  rcases eq_or_ne ns [] with rfl | hne
  · cases rooted with
    | false => exact ⟨[], .inl rfl, Asm.join_singleton "/" n, rfl⟩
    | true => exact ⟨"/", .inr ⟨[], rfl⟩, congrArg (Text.ofString "/" ++ ·) (Asm.join_singleton "/" n), rfl⟩
  · have hrender : render rooted ns ≠ [] := by
      intro hnil
      have hnames := h.names_render
      rw [hnil] at hnames
      exact hne hnames.symm
    refine ⟨render rooted ns ++ ['/'.toUInt8], .inr ⟨_, rfl⟩, ?_, (clean_slash hrender).trans h.clean_render⟩
    have hjoin := join_concat (Text.ofString "/") n (List.reverse_ne_nil_iff.mpr hne)
    rw [render, render, List.reverse_cons, hjoin]
    cases rooted <;> simp [hne] <;> rfl

/-- The last of the names that are left is the base of the cleaned path, and the others make its folder. -/
theorem clean_name (hn : '/'.toUInt8 ∉ n) (hne : n ≠ []) (h : Reduced rooted ns) :
    base (render rooted (n :: ns)) = n ∧ dir (render rooted (n :: ns)) = render rooted ns := by
  obtain ⟨f, hf, hrender, hclean⟩ := exists_render_front h n
  rw [hrender]
  exact ⟨base_append hf hn hne, (dir_append hf hn).trans hclean⟩

end Path

end Pocket

import Mathlib
import Pocket.Proofs.Diagnosed
import Pocket.Proofs.Emission
import Pocket.Proofs.InstructionLines

/-!
# Listings that are read again

A listing of labels, instructions, comments and empty lines is written with one line for each item. Reading
the lines gives the labels and the instructions back, with one exception: where the first argument of an
instruction without parentheses begins with a colon, the mnemonic is taken for a label.
-/

namespace Pocket.Asm

open Text

/-! ### Lines of a listing -/

section Lines

variable {l : Listing}

theorem lines_flatMap_line (l : Listing) :
    Text.lines (l.flatMap Item.line) = (l.flatMap fun it => it.render.lines) ++ [[]] := by
  induction l with
  | nil => rfl
  | cons it l ih =>
    rw [List.flatMap_cons, List.flatMap_cons, Item.line, List.append_assoc, List.append_assoc, ← ih]
    exact lines_newline_between it.render _

/-- Items of one line each are as many lines, and behind the last newline there is an empty one. -/
theorem lines_render (h : ∀ it ∈ l, it.render.OneLine) : l.render.lines = l.map Item.render ++ [[]] := by
  have hlines : ∀ it ∈ l, it.render.lines = [it.render] := fun it hit => (h it hit).lines
  rw [Listing.render, Listing.emit_written, lines_flatMap_line, List.flatMap_congr hlines, ← List.map_eq_flatMap]

theorem filter_mapIdx {α β : Type} {xs : List α} {f : Nat → α → β} {g : Nat → α → Option β} {p : β → Bool}
    (h : ∀ i, ∀ x ∈ xs, Option.guard p (f i x) = g i x) :
    (xs.mapIdx f).filter p = (xs.mapIdx g).filterMap id := by
  induction xs generalizing f g with
  | nil => rfl
  | cons x xs ih =>
    obtain ⟨hx, hxs⟩ : (∀ i, Option.guard p (f i x) = g i x) ∧ ∀ i, ∀ y ∈ xs, Option.guard p (f i y) = g i y :=
      ⟨fun i => h i x (by simp), fun i y hy => h i y (by simp [hy])⟩
    rw [List.mapIdx_cons, List.mapIdx_cons, List.filter_cons, List.filterMap_cons, ih fun i => hxs (i + 1), ← hx 0,
      Option.guard]
    split <;> rfl

end Lines

/-! ### Well-formed items -/

/-- A text that is written as one operand. -/
structure IsArgument (a : Text) : Prop where
  filled : a ≠ []
  trimmed : a.trim = a
  balanced : Argument a
  unquoted : '"'.toUInt8 ∉ a ∧ '\''.toUInt8 ∉ a
  uncommented : ';'.toUInt8 ∉ a
  oneLine : a.OneLine

theorem balanced_of_not_mem {t : Text} (hopen : '('.toUInt8 ∉ t) (hclose : ')'.toUInt8 ∉ t) : Balanced t := by
  induction t with
  | nil => exact .nil
  | cons b t ih =>
    rw [List.mem_cons, not_or] at hopen hclose
    exact .byte (Ne.symm hopen.1) (Ne.symm hclose.1) (ih hopen.2 hclose.2)

theorem argument_of_not_mem {t : Text} (hopen : '('.toUInt8 ∉ t) (hclose : ')'.toUInt8 ∉ t)
    (hcomma : ','.toUInt8 ∉ t) : Argument t := by
  induction t with
  | nil => exact .nil
  | cons b t ih =>
    rw [List.mem_cons, not_or] at hopen hclose hcomma
    exact .byte (Ne.symm hopen.1) (Ne.symm hclose.1) (Ne.symm hcomma.1) (ih hopen.2 hclose.2 hcomma.2)

/-- A label, an instruction, a comment or an empty line: names are names, mnemonics in lower case, and
arguments single operands. -/
def Item.WellFormed (it : Item) : Prop :=
  match it.kind with
  | .label => isName it.text = true
  | .instr => isName it.op = true ∧ it.op.toLower = it.op ∧ ∀ a ∈ it.args, IsArgument a
  | .comment => it.text.OneLine
  | .blank => True
  | _ => False

/-- An instruction without parentheses whose first argument begins with a colon. -/
def Item.LedByColon (it : Item) : Prop :=
  it.kind = .instr ∧ it.parens = false ∧ it.args.head?.bind List.head? = some ':'.toUInt8

instance (it : Item) : Decidable it.LedByColon :=
  inferInstanceAs (Decidable (_ ∧ _))

/-- What an item shows when it is read: its label or its instruction, on a line with a number. -/
def Item.line? (number : Int) (it : Item) : Option Line :=
  match it.kind with
  | .label => some ⟨number, [it.text], [], [], false⟩
  | .instr => some ⟨number, [], it.op, it.args, it.parens⟩
  | _ => none

/-- The labels and instructions of a listing, with the lines they stand on. -/
def Listing.shape (l : Listing) : List Line :=
  (l.mapIdx fun i it => it.line? (i + 1)).filterMap id

/-- A line with neither a label nor a mnemonic. -/
def Line.isEmpty (line : Line) : Bool :=
  line.labels.isEmpty && line.mnemonic.isEmpty

section Items

variable {it : Item} {l : Listing} {t op name text : Text} {args : List Text} {b : UInt8} {n : Int}

theorem read_label (h : isName name = true) (n : Int) :
    Line.ofText n (Item.label name).render = ⟨n, [name], [], [], false⟩ := by
  have hcomment : withoutComment false (name ++ ":") = name ++ ":" := by
    rw [withoutComment_eq_self_iff, marks_append, marks_eq_nil fun b hb => ?_]
    · rfl
    · constructor <;> rintro rfl <;> exact isName_not_mem h (by decide) hb
  have htrim : (name ++ ":").trim = name ++ ":" :=
    trim_eq_self (not_startsBlank_append (not_blank_of_trim (isName_trim h)).1 (by decide) [])
      (not_endsBlank_append not_endsBlank_nil (by decide) name)
  have hlabels := takeLabels_name (u := name) (isName_not_mem h (by decide)) (by rwa [isName_trim h]) []
  rw [show (Item.label name).render = name ++ ":" from rfl, Line.ofText, hcomment, htrim]
  simp only [show name ++ ":" = name ++ ':'.toUInt8 :: [] from rfl, hlabels, isName_trim h]
  rfl

theorem read_comment (text : Text) (n : Int) :
    Line.ofText n (Item.comment text).render = ⟨n, [], [], [], false⟩ := by
  rw [show (Item.comment text).render = indent ++ (';'.toUInt8 :: ' '.toUInt8 :: text) from rfl, ofText_indent]
  rfl

theorem read_blank (n : Int) : Line.ofText n [] = ⟨n, [], [], [], false⟩ := rfl

theorem areOperands_of_arguments (h : ∀ a ∈ args, IsArgument a) : AreOperands args := by
  refine ⟨?_, fun a ha => (h a ha).trimmed, ?_⟩
  · by_cases hargs : args = []
    · exact .inl hargs
    · exact .inr (.of_uncut hargs fun a ha => .argument (h a ha).balanced (h a ha).unquoted.1 (h a ha).unquoted.2)
  · rintro rfl
    exact (h [] (by simp)).filled rfl

theorem not_mem_written (hname : isName op = true) (hb : continuesName b = false) (hsep : b ∉ (", " : Text))
    (hargs : ∀ a ∈ args, b ∉ a) : b ∉ op ++ join ", " args := by
  intro hmem
  rcases List.mem_append.mp hmem with hmem | hmem
  · exact isName_not_mem hname hb hmem
  · rcases mem_join hmem with hmem | ⟨a, ha, hmem⟩
    · exact hsep hmem
    · exact hargs a ha hmem

theorem legible_of_arguments (hname : isName op = true) (hlower : op.toLower = op)
    (hargs : ∀ a ∈ args, IsArgument a) : Legible op args where
  lower := hlower
  filled := isName_ne_nil hname
  start := (not_blank_of_trim (isName_trim hname)).1
  unspaced := ⟨isName_not_mem hname (by decide), isName_not_mem hname (by decide)⟩
  operands := areOperands_of_arguments hargs
  uncommented := by
    rw [withoutComment_eq_self_iff, marks_eq_nil fun b hb => ?_]
    · rfl
    · constructor <;> rintro rfl
      · exact not_mem_written hname (by decide) (by decide) (fun a ha => (hargs a ha).unquoted.1) hb
      · exact not_mem_written hname (by decide) (by decide) (fun a ha => (hargs a ha).uncommented) hb
  unlabelled := fun u v hsplit _ => absurd (by simp [hsplit]) (isName_not_mem hname (b := ':'.toUInt8) (by decide))

theorem not_startsBlank_join (h : ∀ a ∈ args, a.trim = a) : ¬StartsBlank (join ", " args) := by
  cases args with
  | nil => exact not_startsBlank_nil
  | cons a args =>
    have ha := (not_blank_of_trim (h a (by simp))).1
    by_cases hargs : args = []
    · rwa [hargs, join_singleton]
    · rw [join_cons _ _ hargs]
      exact not_startsBlank_append ha (by decide) _

theorem head?_join (h : ∀ a ∈ args, a ≠ []) : (join ", " args).head? = args.head?.bind List.head? := by
  cases args with
  | nil => rfl
  | cons a args =>
    obtain ⟨b, a, rfl⟩ := List.exists_cons_of_ne_nil (h a (by simp))
    by_cases hargs : args = []
    · rw [hargs, join_singleton]
      rfl
    · rw [join_cons _ _ hargs]
      rfl

theorem plain_of_arguments (hname : isName op = true) (hlower : op.toLower = op)
    (hargs : ∀ a ∈ args, IsArgument a) (hcolon : args.head?.bind List.head? ≠ some ':'.toUInt8) :
    Plain op args where
  toLegible := legible_of_arguments hname hlower hargs
  ends := fun _ => (not_blank_of_trim (isName_trim hname)).2
  apart := by
    intro _ l v hl hsplit
    have hstart := not_startsBlank_join fun a ha => (hargs a ha).trimmed
    rw [hsplit] at hstart
    rw [not_startsBlank_blank_append hl hstart, List.nil_append] at hsplit
    rw [← head?_join fun a ha => (hargs a ha).filled, hsplit] at hcolon
    exact hcolon rfl
  uncalled := fun u v hsplit _ => absurd (by simp [hsplit]) (isName_not_mem hname (b := '('.toUInt8) (by decide))

/-- An instruction with a colon in front of its first argument is read as a label and something else. -/
theorem labels_ledByColon (hname : isName op = true) (hlower : op.toLower = op)
    (hargs : ∀ a ∈ args, IsArgument a) (hcolon : args.head?.bind List.head? = some ':'.toUInt8) (n : Int) :
    (Line.ofText n (Item.instr false op args).render).labels ≠ [] := by
  have hne : args ≠ [] := by
    rintro rfl
    cases hcolon
  obtain ⟨K, r, hsplit, -, hK, -, hcomment, htrim⟩ := (legible_of_arguments hname hlower hargs).code_spaced hne
  obtain ⟨b, K, rfl⟩ := List.exists_cons_of_ne_nil hK
  obtain rfl : b = ':'.toUInt8 := by
    rw [← head?_join fun a ha => (hargs a ha).filled, hsplit] at hcolon
    exact Option.some.inj hcolon
  have hword : (op ++ [' '.toUInt8]).trim = op := by rw [trim_append_blank blank_space, isName_trim hname]
  have hout : ':'.toUInt8 ∉ op ++ [' '.toUInt8] := by
    simpa using ⟨isName_not_mem hname (by decide), by decide⟩
  have hlabels := takeLabels_name hout (by rwa [hword]) K
  rw [List.append_assoc, List.singleton_append] at hlabels
  rw [render_spaced hne, ofText_indent, hcomment, htrim, hlabels]
  exact List.cons_ne_nil _ _

theorem oneLine_instr (parens : Bool) (hop : op.OneLine) (hargs : ∀ a ∈ args, a.OneLine) :
    (Item.instr parens op args).render.OneLine := by
  have hindent : (indent ++ op).OneLine := .append (by decide) hop
  have hjoin : (join ", " args).OneLine := by
    intro hmem
    rcases mem_join hmem with hmem | ⟨a, ha, hmem⟩
    · exact absurd hmem (by decide)
    · exact hargs a ha hmem
  cases parens with
  | true => exact .append (.append (.append hindent (by decide)) hjoin) (by decide)
  | false =>
    by_cases hempty : args = []
    · rw [hempty]
      exact hindent
    · rw [render_spaced hempty]
      exact .append (by decide) (.append hop (.append (s := " ") (by decide) hjoin))

theorem Item.WellFormed.oneLine (h : it.WellFormed) : it.render.OneLine := by
  obtain ⟨kind, text, op, args, parens, owner⟩ := it
  cases kind with
  | label => exact .append (isName_not_mem h (by decide)) (by decide)
  | instr => exact oneLine_instr parens (isName_not_mem h.1 (by decide)) fun a ha => (h.2.2 a ha).oneLine
  | comment => exact .append (by decide) h
  | blank => exact (by decide : Text.OneLine [])
  | directive => cases h
  | raw => cases h
  | other code => cases h

/-- A well-formed item is read as what it shows, if it is not led by a colon. -/
theorem Item.WellFormed.read (h : it.WellFormed) (hcolon : ¬it.LedByColon) (n : Int) :
    Option.guard (fun line => !line.isEmpty) (Line.ofText n it.render) = it.line? n := by
  obtain ⟨kind, text, op, args, parens, owner⟩ := it
  cases kind with
  | label =>
    have hread := read_label h n
    rw [show Item.render ⟨.label, text, op, args, parens, owner⟩ = (Item.label text).render from rfl, hread]
    rfl
  | instr =>
    obtain ⟨hname, hlower, hargs⟩ := h
    have hread : Line.ofText n (Item.instr parens op args).render = ⟨n, [], op, args, parens⟩ := by
      cases parens with
      | true => exact (legible_of_arguments hname hlower hargs).read_call (by rwa [isName_trim hname]) n
      | false =>
        exact (plain_of_arguments hname hlower hargs fun hhead => hcolon ⟨rfl, rfl, hhead⟩).read n
    rw [show Item.render ⟨.instr, text, op, args, parens, owner⟩ = (Item.instr parens op args).render from rfl, hread]
    simp [Option.guard, Line.isEmpty, Item.line?, isName_ne_nil hname]
  | comment =>
    rw [show Item.render ⟨.comment, text, op, args, parens, owner⟩ = (Item.comment text).render from rfl, read_comment]
    rfl
  | blank => rfl
  | directive => cases h
  | raw => cases h
  | other code => cases h

/-- A well-formed item that is led by a colon is not read as what it shows. -/
theorem Item.WellFormed.labels (h : it.WellFormed) (hcolon : it.LedByColon) (n : Int) :
    (Line.ofText n it.render).labels ≠ [] := by
  obtain ⟨kind, text, op, args, parens, owner⟩ := it
  obtain ⟨rfl, rfl, hhead⟩ := hcolon
  obtain ⟨hname, hlower, hargs⟩ := h
  exact labels_ledByColon hname hlower hargs hhead n

theorem readText_render (h : ∀ it ∈ l, it.WellFormed) : readText l.render =
    (l.mapIdx fun i it => Line.ofText (i + 1) it.render) ++ [⟨l.length + 1, [], [], [], false⟩] := by
  have hmap : (l.map Item.render).mapIdx (fun i raw => Line.ofText (i + 1) raw) =
      l.mapIdx fun i it => Line.ofText (i + 1) it.render := by
    refine List.ext_getElem? fun i => ?_
    simp [Function.comp_def]
  rw [readText, lines_render fun it hit => (h it hit).oneLine, List.mapIdx_append, hmap]
  simp [read_blank]

theorem number_ofText (n : Int) (t : Text) : (Line.ofText n t).number = n := rfl

theorem line?_of_instr (h : it.kind = .instr) (n : Int) :
    it.line? n = some ⟨n, [], it.op, it.args, it.parens⟩ := by
  rw [Item.line?, h]

theorem number_of_line? {line : Line} (h : it.line? n = some line) : line.number = n := by
  unfold Item.line? at h
  split at h <;> cases h <;> rfl

end Items

/-- Reading the text of a well-formed listing gives back its labels and its instructions, in order and on
their lines, exactly if no instruction is led by a colon. -/
theorem listing_read_iff (l : Listing) (h : ∀ it ∈ l, it.WellFormed) :
    ((readText l.render).filter fun line => !line.isEmpty) = l.shape ↔ ∀ it ∈ l, ¬it.LedByColon := by
  have hfilter : ((readText l.render).filter fun line => !line.isEmpty) =
      (l.mapIdx fun i it => Line.ofText (i + 1) it.render).filter fun line => !line.isEmpty := by
    rw [readText_render h, List.filter_append]
    exact List.append_nil _
  rw [hfilter]
  constructor
  · intro heq it hit hcolon
    obtain ⟨i, hi, rfl⟩ := List.getElem_of_mem hit
    have hlabels := (h _ hit).labels hcolon (i + 1)
    have hmem : Line.ofText (i + 1) (l[i]).render ∈ l.shape := by
      rw [← heq, List.mem_filter, List.mem_mapIdx]
      exact ⟨⟨i, hi, rfl⟩, by simp [Line.isEmpty, hlabels]⟩
    -- The number of a line tells which item it comes from, and that item shows no label.
    obtain ⟨_, hshown, rfl⟩ := List.mem_filterMap.mp hmem
    obtain ⟨j, hj, hline⟩ := List.mem_mapIdx.mp hshown
    have hnumber := number_of_line? hline
    rw [number_ofText] at hnumber
    obtain rfl : i = j := by omega
    rw [line?_of_instr hcolon.1] at hline
    exact hlabels (congrArg Line.labels (Option.some.inj hline)).symm
  · intro hcolon
    exact filter_mapIdx fun i it hit => (h it hit).read (hcolon it hit) (i + 1)

/-- Labels, both kinds of instructions, a comment with a colon and an empty line. -/
def scannedListing : Listing :=
  [.label "main", .instr false "ld" ["(ix+2)", "a"], .comment "b: c", .blank,
    .instr true "os.call" ["f(a, b)", "c"], .instr false "ret" []]

theorem listing_read_iff_sample : (∀ it ∈ scannedListing, it.WellFormed) ∧
    ((readText scannedListing.render).filter fun line => !line.isEmpty) =
      [⟨1, ["main"], [], [], false⟩, ⟨2, [], "ld", ["(ix+2)", "a"], false⟩,
        ⟨5, [], "os.call", ["f(a, b)", "c"], true⟩, ⟨6, [], "ret", [], false⟩] := by
  have hindexed : IsArgument "(ix+2)" := by
    refine ⟨by decide, by decide, .group (s := "ix+2") (balanced_of_not_mem ?_ ?_) .nil, ?_, ?_, ?_⟩ <;> decide
  have hcall : IsArgument "f(a, b)" := by
    refine ⟨by decide, by decide, .byte ?_ ?_ ?_ (.group (s := "a, b") (balanced_of_not_mem ?_ ?_) .nil), ?_, ?_, ?_⟩
      <;> decide
  have hletter : IsArgument "a" ∧ IsArgument "c" := by
    constructor <;> refine ⟨by decide, by decide, argument_of_not_mem ?_ ?_ ?_, ?_, ?_, ?_⟩ <;> decide
  have hformed : ∀ it ∈ scannedListing, it.WellFormed := by
    simp only [scannedListing, List.forall_mem_cons]
    refine ⟨(by decide : isName "main" = true), ⟨by decide, by decide, ?_⟩, (by decide : OneLine "b: c"), trivial,
      ⟨by decide, by decide, ?_⟩, ⟨by decide, by decide, ?_⟩, ?_⟩
    · exact List.forall_mem_cons.mpr ⟨hindexed, List.forall_mem_singleton.mpr hletter.1⟩
    · exact List.forall_mem_cons.mpr ⟨hcall, List.forall_mem_singleton.mpr hletter.2⟩
    · simp [Item.instr]
    · simp
  exact ⟨hformed, (listing_read_iff scannedListing hformed).mpr (by decide)⟩

/-- A colon in front of the first argument makes the mnemonic a label. -/
theorem colon_ends_label : (∀ it ∈ ([.instr false "jp" [":x"]] : Listing), it.WellFormed) ∧
    ((readText (Listing.render [.instr false "jp" [":x"]])).filter fun line => !line.isEmpty) =
      [⟨1, ["jp"], "x", [], false⟩] ∧
    Listing.shape [.instr false "jp" [":x"]] = [⟨1, [], "jp", [":x"], false⟩] := by
  have hargument : IsArgument ":x" := by
    refine ⟨by decide, by decide, argument_of_not_mem ?_ ?_ ?_, ?_, ?_, ?_⟩ <;> decide
  refine ⟨?_, by cbv, rfl⟩
  rintro it hit
  rw [List.mem_singleton.mp hit]
  exact ⟨by decide, by decide, List.forall_mem_singleton.mpr hargument⟩

end Pocket.Asm

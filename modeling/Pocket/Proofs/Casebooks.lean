import Mathlib
import Pocket.Casebook
import Pocket.Proofs.Readers

/-!
# Well-formed casebooks

A document falls into chapters: a heading that begins a case, with the fences up to the next such heading.
Reading keeps one case at a time and looks at each block once, yet what it accepts and what it returns can
be told from the chapters alone. A chapter needs one program that is not empty and an expectation, and has
no fences that a case has no use for. A program that is empty is not noticed if another one follows it.
-/

namespace Pocket

namespace Casebook

/-! ### Chapters -/

/-- A fenced block. -/
structure Fence where
  line : Nat
  language : Text
  content : Text

/-- A heading that begins a case, with the fences up to the next such heading. -/
structure Chapter where
  name : Text
  line : Nat
  fences : List Fence

/-- The fences in front of the first heading that begins a case, and the chapters. Other headings do not
count. -/
def chapters : List Markdown.Block → List Fence × List Chapter
  | [] => ([], [])
  | .heading line text :: rest =>
    match caseName? text with
    | none => chapters rest
    | some name => ([], ⟨name, line, (chapters rest).1⟩ :: (chapters rest).2)
  | .fence line language content :: rest =>
    (⟨line, language, content⟩ :: (chapters rest).1, (chapters rest).2)

/-- The languages that a case has a use for. -/
def languages : List Text :=
  ["calc", "profile", "asm", "contains", "error"]

/-- The contents of the fences of a language. -/
def contents (language : Text) (fs : List Fence) : List Text :=
  (fs.filter (·.language = language)).map (·.content)

/-- The expectation that a fence states. -/
def Fence.assertion? (f : Fence) : Option Assertion :=
  ([Kind.asm, .contains, .error].find? (·.name = f.language)).map (⟨·, f.content, f.line⟩)

/-- The expectations that some fences state. -/
def assertions (fs : List Fence) : List Assertion :=
  fs.filterMap Fence.assertion?

namespace Chapter

/-- The programs of a chapter. -/
def programs (ch : Chapter) : List Text :=
  contents "calc" ch.fences

/-- The case that a chapter describes. Of several programs or profiles the last one counts. -/
def toCase (ch : Chapter) : Case :=
  ⟨ch.name, ch.programs.getLastD [], (contents "profile" ch.fences).getLastD [], assertions ch.fences, ch.line⟩

/-- A chapter as it should be: one program, which is not empty, an expectation, and no other fences than
those of a case. -/
structure WellFormed (ch : Chapter) : Prop where
  program : ∃ program, ch.programs = [program] ∧ program ≠ []
  expects : assertions ch.fences ≠ []
  known : ∀ f ∈ ch.fences, f.language ∈ languages

/-- A chapter that is accepted: of its programs only the last one is not empty. -/
structure Accepted (ch : Chapter) : Prop where
  program : ch.programs.getLastD [] ≠ []
  before : ∀ t ∈ ch.programs.dropLast, t = []
  expects : assertions ch.fences ≠ []
  known : ∀ f ∈ ch.fences, f.language ∈ languages

/-- Accepted chapters are as they should be, unless an empty program is followed by another one. -/
theorem accepted_iff_wellFormed {ch : Chapter} (h : ∀ t ∈ ch.programs.dropLast, t ≠ []) :
    ch.Accepted ↔ ch.WellFormed := by
  constructor
  · rintro ⟨hlast, hbefore, hexpects, hknown⟩
    refine ⟨?_, hexpects, hknown⟩
    rcases hprograms : ch.programs with _ | ⟨first, _ | ⟨second, more⟩⟩
    · simp [hprograms] at hlast
    · exact ⟨first, rfl, by simpa [hprograms] using hlast⟩
    · have hfirst : first ∈ ch.programs.dropLast := by simp [hprograms]
      exact absurd (hbefore first hfirst) (h first hfirst)
  · rintro ⟨⟨program, hprograms, hne⟩, hexpects, hknown⟩
    exact ⟨by simpa [hprograms] using hne, by simp [hprograms], hexpects, hknown⟩

end Chapter

/-! ### One chapter -/

/-- The language of the fences of a role. -/
def Role.language : Role → Text
  | .input => "calc"
  | .profile => "profile"
  | .assertion kind => kind.name

theorem Role.ofLanguage?_eq_some_iff {language : Text} {r : Role} :
    Role.ofLanguage? language = some r ↔ language = r.language := by
  constructor
  · intro h
    unfold Role.ofLanguage? at h
    split_ifs at h with h₁ h₂ h₃ h₄ h₅ <;> cases h <;> assumption
  · rintro rfl
    rcases r with _ | _ | kind
    · rfl
    · rfl
    · cases kind <;> rfl

theorem Role.mem_languages_iff {language : Text} : language ∈ languages ↔ ∃ r : Role, language = r.language := by
  constructor
  · intro h
    simp only [languages, List.mem_cons, List.not_mem_nil, or_false] at h
    rcases h with rfl | rfl | rfl | rfl | rfl
    · exact ⟨.input, rfl⟩
    · exact ⟨.profile, rfl⟩
    · exact ⟨.assertion .asm, rfl⟩
    · exact ⟨.assertion .contains, rfl⟩
    · exact ⟨.assertion .error, rfl⟩
  · rintro ⟨_ | _ | kind, rfl⟩
    · decide
    · decide
    · cases kind <;> decide

variable {c c' d : Case} {f : Fence} {fs : List Fence} {r : Role} {blocks : List Markdown.Block}
  {book : List Case} {ch : Chapter}

/-- A case with the content of a fence put where its role says. -/
def Role.put : Role → Fence → Case → Case
  | .input, f, c => { c with input := f.content }
  | .profile, f, c => { c with profile := f.content }
  | .assertion kind, f, c => { c with assertions := c.assertions ++ [⟨kind, f.content, f.line⟩] }

/-- A fence is added if it has a role, and as a program only where there is none yet. -/
theorem addFence_eq_ok_iff : addFence c f.line f.language f.content = .ok d ↔
    ∃ r : Role, f.language = r.language ∧ (r = .input → c.input = []) ∧ r.put f c = d := by
  simp only [← Role.ofLanguage?_eq_some_iff]
  unfold addFence
  rcases Role.ofLanguage? f.language with _ | _ | _ | kind
  · simp
  · rcases hinput : c.input with _ | ⟨b, t⟩ <;> simp [Role.put]
  · simp [Role.put]
  · simp [Role.put]

/-- A case with some fences added in their order. -/
def addFences (c : Case) (fs : List Fence) : Except Trouble Case :=
  fs.foldlM (fun c f => addFence c f.line f.language f.content) c

/-- A case with what some fences say. -/
def filled (c : Case) (fs : List Fence) : Case :=
  ⟨c.name, (contents "calc" fs).getLastD c.input, (contents "profile" fs).getLastD c.profile,
    c.assertions ++ assertions fs, c.line⟩

theorem contents_cons (language : Text) : contents language (f :: fs) =
    if f.language = language then f.content :: contents language fs else contents language fs := by
  unfold contents
  by_cases h : f.language = language <;> simp [h]

theorem filled_cons (h : f.language = r.language) : filled c (f :: fs) = filled (r.put f c) fs := by
  obtain ⟨line, language, content⟩ := f
  obtain rfl : language = r.language := h
  rcases r with _ | _ | kind
  · exact congrArg (Case.mk c.name · _ _ c.line) (List.getLastD_cons ..)
  · exact congrArg (Case.mk c.name _ · _ c.line) (List.getLastD_cons ..)
  · cases kind <;> exact congrArg (Case.mk c.name _ _ · c.line) (List.append_cons ..)

/-- No program among some fences finds another one before it. -/
def OnePerCase (c : Case) (fs : List Fence) : Prop :=
  ∀ t ∈ (c.input :: contents "calc" fs).dropLast, t = []

theorem onePerCase_cons (h : f.language = r.language) :
    OnePerCase c (f :: fs) ↔ (r = .input → c.input = []) ∧ OnePerCase (r.put f c) fs := by
  rw [OnePerCase, contents_cons, h]
  rcases r with _ | _ | kind
  · rw [if_pos (by rfl), List.dropLast_cons_cons, List.forall_mem_cons]
    simp [OnePerCase, Role.put]
  · rw [if_neg (by decide)]
    simp [OnePerCase, Role.put]
  · rw [if_neg (by cases kind <;> decide)]
    simp [OnePerCase, Role.put]

/-- Fences are added if each of them has a language of a case and no program finds another one before it. -/
theorem addFences_eq_ok_iff : addFences c fs = .ok d ↔
    (∀ f ∈ fs, f.language ∈ languages) ∧ OnePerCase c fs ∧ filled c fs = d := by
  induction fs generalizing c with
  | nil =>
    simp [addFences, filled, OnePerCase, contents, assertions, pure, Except.pure]
  | cons f fs ih =>
    have hrun : addFences c (f :: fs) = .ok d ↔
        ∃ c', addFence c f.line f.language f.content = .ok c' ∧ addFences c' fs = .ok d :=
      bind_eq_ok_iff
    simp only [hrun, addFence_eq_ok_iff, ih, List.forall_mem_cons]
    constructor
    · rintro ⟨c', ⟨r, hlanguage, hfirst, rfl⟩, hknown, hone, hfilled⟩
      exact ⟨⟨Role.mem_languages_iff.mpr ⟨r, hlanguage⟩, hknown⟩, (onePerCase_cons hlanguage).mpr ⟨hfirst, hone⟩,
        (filled_cons hlanguage).trans hfilled⟩
    · rintro ⟨⟨hmem, hknown⟩, hone, hfilled⟩
      obtain ⟨r, hlanguage⟩ := Role.mem_languages_iff.mp hmem
      obtain ⟨hfirst, hone⟩ := (onePerCase_cons hlanguage).mp hone
      exact ⟨_, ⟨r, hlanguage, hfirst, rfl⟩, hknown, hone, (filled_cons hlanguage).symm.trans hfilled⟩

/-! ### All chapters -/

theorem finish_eq_ok_iff : finish c = .ok d ↔ c.input ≠ [] ∧ c.assertions ≠ [] ∧ c = d := by
  unfold finish
  cases c.input <;> cases c.assertions <;> simp

/-- Reads a case to its end, given the fences that follow. -/
def readOn (c : Case) (fs : List Fence) : Except Trouble Case := do
  finish (← addFences c fs)

theorem readOn_cons : readOn c (f :: fs) = .ok d ↔
    ∃ c', addFence c f.line f.language f.content = .ok c' ∧ readOn c' fs = .ok d := by
  rw [readOn, addFences, List.foldlM_cons, bind_assoc, bind_eq_ok_iff]
  rfl

/-- Reads a chapter. -/
def Chapter.read (ch : Chapter) : Except Trouble Case :=
  readOn ⟨ch.name, [], [], [], ch.line⟩ ch.fences

theorem Chapter.read_eq_ok_iff : ch.read = .ok c ↔ ch.Accepted ∧ ch.toCase = c := by
  have hone : OnePerCase ⟨ch.name, [], [], [], ch.line⟩ ch.fences ↔ ∀ t ∈ ch.programs.dropLast, t = [] := by
    unfold OnePerCase programs
    cases contents "calc" ch.fences <;> simp
  rw [read, readOn, bind_eq_ok_iff]
  simp only [addFences_eq_ok_iff, finish_eq_ok_iff, hone]
  constructor
  · rintro ⟨_, ⟨hknown, hbefore, rfl⟩, hprogram, hexpects, rfl⟩
    exact ⟨⟨hprogram, hbefore, hexpects, hknown⟩, rfl⟩
  · rintro ⟨⟨hprogram, hbefore, hexpects, hknown⟩, rfl⟩
    exact ⟨_, ⟨hknown, hbefore, rfl⟩, hprogram, hexpects, rfl⟩

/-- The chapters of a document are read if each of them is accepted. -/
theorem mapM_read_eq_ok_iff {chs : List Chapter} :
    chs.mapM Chapter.read = .ok book ↔ (∀ ch ∈ chs, ch.Accepted) ∧ chs.map Chapter.toCase = book := by
  induction chs generalizing book with
  | nil => simp [pure, Except.pure]
  | cons ch chs ih =>
    rw [mapM_cons_eq_ok_iff]
    simp only [Chapter.read_eq_ok_iff, ih, List.forall_mem_cons, List.map_cons]
    constructor
    · rintro ⟨_, _, ⟨hch, rfl⟩, ⟨hchs, rfl⟩, rfl⟩
      exact ⟨⟨hch, hchs⟩, rfl⟩
    · rintro ⟨⟨hch, hchs⟩, rfl⟩
      exact ⟨_, _, ⟨hch, rfl⟩, ⟨hchs, rfl⟩, rfl⟩

/-- Reading goes on with the fences of the case that was begun, and then chapter by chapter. -/
theorem casesFrom_some : casesFrom (some c) blocks = .ok book ↔ ∃ done rest,
    readOn c (chapters blocks).1 = .ok done ∧ (chapters blocks).2.mapM Chapter.read = .ok rest ∧
      done :: rest = book := by
  induction blocks generalizing c book with
  | nil =>
    rw [casesFrom, bind_eq_ok_iff]
    simp [chapters, readOn, addFences, pure, Except.pure, bind, Except.bind]
  | cons block blocks ih =>
    rcases block with ⟨line, text⟩ | ⟨line, language, content⟩
    · rw [casesFrom, chapters]
      cases caseName? text with
      | none => exact ih
      | some name =>
        -- The next chapter is a case that has been begun and has no fences yet.
        have hnext (more : List Case) : casesFrom (some ⟨name, [], [], [], line⟩) blocks = .ok more ↔
            (⟨name, line, (chapters blocks).1⟩ :: (chapters blocks).2).mapM Chapter.read = .ok more := by
          rw [mapM_cons_eq_ok_iff, ih]
          rfl
        simp only [bind_eq_ok_iff, hnext]
        simp [readOn, addFences, bind, Except.bind, pure, Except.pure]
    · have hstep : casesFrom (some c) (.fence line language content :: blocks) = .ok book ↔
          ∃ c', addFence c line language content = .ok c' ∧ casesFrom (some c') blocks = .ok book :=
        bind_eq_ok_iff
      simp only [hstep, ih, chapters, readOn_cons]
      constructor
      · rintro ⟨c', hadd, done, rest, hdone, hrest⟩
        exact ⟨done, rest, ⟨c', hadd, hdone⟩, hrest⟩
      · rintro ⟨done, rest, ⟨c', hadd, hdone⟩, hrest⟩
        exact ⟨c', hadd, done, rest, hdone, hrest⟩

theorem casesFrom_none : casesFrom none blocks = .ok book ↔
    (∀ f ∈ (chapters blocks).1, f.language ∉ languages) ∧
      (chapters blocks).2.mapM Chapter.read = .ok book := by
  induction blocks generalizing book with
  | nil => simp [casesFrom, chapters, pure, Except.pure]
  | cons block blocks ih =>
    rcases block with ⟨line, text⟩ | ⟨line, language, content⟩
    · rw [casesFrom, chapters]
      cases caseName? text with
      | none => exact ih
      | some name =>
        rw [casesFrom_some, mapM_cons_eq_ok_iff]
        simp [Chapter.read]
    · rw [casesFrom, chapters, List.forall_mem_cons]
      by_cases hmem : language ∈ languages
      · obtain ⟨r, rfl⟩ := Role.mem_languages_iff.mp hmem
        simp [Role.ofLanguage?_eq_some_iff.mpr rfl, hmem]
      -- A fence in another language is passed over.
      · have hnone : Role.ofLanguage? language = none := by
          rw [Option.eq_none_iff_forall_ne_some]
          intro r hr
          exact hmem (Role.mem_languages_iff.mpr ⟨r, Role.ofLanguage?_eq_some_iff.mp hr⟩)
        simp [hnone, hmem, ih]

/-! ### All of a document -/

/-- A document is read if no fence of a case stands before the first chapter and every chapter is accepted,
and it gives one case for each chapter. Unless an empty program is followed by another one, these are the
documents whose chapters are all as they should be. -/
theorem casebook_accepted_iff (blocks : List Markdown.Block) :
    (∀ book, ofBlocks blocks = .ok book ↔ (∀ f ∈ (chapters blocks).1, f.language ∉ languages) ∧
      (∀ ch ∈ (chapters blocks).2, ch.Accepted) ∧ (chapters blocks).2.map Chapter.toCase = book) ∧
    ((∀ ch ∈ (chapters blocks).2, ∀ t ∈ ch.programs.dropLast, t ≠ []) →
      ∀ book, ofBlocks blocks = .ok book ↔ (∀ f ∈ (chapters blocks).1, f.language ∉ languages) ∧
        (∀ ch ∈ (chapters blocks).2, ch.WellFormed) ∧ (chapters blocks).2.map Chapter.toCase = book) := by
  have hread (book : List Case) : ofBlocks blocks = .ok book ↔
      (∀ f ∈ (chapters blocks).1, f.language ∉ languages) ∧
        (∀ ch ∈ (chapters blocks).2, ch.Accepted) ∧ (chapters blocks).2.map Chapter.toCase = book := by
    rw [ofBlocks, casesFrom_none, mapM_read_eq_ok_iff]
  refine ⟨hread, fun hfull book => ?_⟩
  rw [hread, forall₂_congr fun ch hch => Chapter.accepted_iff_wellFormed (hfull ch hch)]

/-- Two cases, one with a profile, behind a fence of no case. -/
def sampleBlocks : List Markdown.Block :=
  [.heading 1 "Calls", .fence 4 "sh" "ls\n", .heading 7 "Test:  one ", .fence 9 "calc" "x\n",
    .fence 12 "contains" "a\n", .fence 15 "asm" [], .heading 17 "More", .heading 18 "Test: two",
    .fence 20 "profile" "b\n", .fence 23 "error" "c\n", .fence 26 "calc" "y\n"]

theorem casebook_accepted_sample :
    (∀ ch ∈ (chapters sampleBlocks).2, ∀ t ∈ ch.programs.dropLast, t ≠ []) ∧
      (∀ ch ∈ (chapters sampleBlocks).2, ch.WellFormed) ∧
      ofBlocks sampleBlocks = .ok [⟨"one", "x\n", [], [⟨.contains, "a\n", 12⟩, ⟨.asm, [], 15⟩], 7⟩,
        ⟨"two", "y\n", "b\n", [⟨.error, "c\n", 23⟩], 18⟩] := by
  have hfull : ∀ ch ∈ (chapters sampleBlocks).2, ∀ t ∈ ch.programs.dropLast, t ≠ [] := by
    decide +kernel
  have hread : ofBlocks sampleBlocks = .ok [⟨"one", "x\n", [], [⟨.contains, "a\n", 12⟩, ⟨.asm, [], 15⟩], 7⟩,
      ⟨"two", "y\n", "b\n", [⟨.error, "c\n", 23⟩], 18⟩] := by
    rfl
  exact ⟨hfull, (((casebook_accepted_iff sampleBlocks).2 hfull _).mp hread).2.1, hread⟩

/-- A case with two programs, the first of them empty. -/
def doubledBlocks : List Markdown.Block :=
  [.heading 1 "Test: a", .fence 1 "calc" [], .fence 5 "calc" "x\n", .fence 8 "asm" "y\n"]

theorem second_program_unnoticed :
    ofBlocks doubledBlocks = .ok [⟨"a", "x\n", [], [⟨.asm, "y\n", 8⟩], 1⟩] ∧
      ¬∀ ch ∈ (chapters doubledBlocks).2, ch.WellFormed := by
  refine ⟨rfl, fun h => ?_⟩
  obtain ⟨program, hprograms, -⟩ := (h _ List.mem_cons_self).program
  cases hprograms

end Casebook

end Pocket

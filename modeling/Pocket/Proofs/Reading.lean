import Pocket.Preprocess

/-!
# Reading a source with the files it includes

What preprocessing does, told as a derivation. A line by itself asks for one of three things: to stop, to
write a text and go on, or to read a file first. A reading is made of these, and it keeps a log of the
inclusions that are carried out and of the files that are read. Nothing in it bounds how deep files
include each other, so that a reading for every source means that reading files comes to an end.
-/

namespace Pocket.Preprocess

/-! ### Single lines -/

/-- What a line is taken for where it stands: directives count in code only. -/
def roleIn (region : Region) (line : Text) : Directive :=
  if region = .code then Directive.ofLine line else .plain

def State.role (s : State) (line : Text) : Directive :=
  roleIn s.region line

/-- What follows the word `#define` in the definitions among some lines, the first of which begins in the
middle of something. -/
def definitions (region : Region) : List Text → List Text
  | [] => []
  | line :: rest =>
    match roleIn region line with
    | .definition d => d :: definitions region rest
    | .inclusion _ => definitions region rest
    | .plain => definitions (region.cutLine line).2 rest

/-- What a line asks for. -/
inductive Action where
  | fail (e : Trouble)
  | write (text : Text) (after : State)
  /-- To read the file that is included under a name and lies at a path. -/
  | enter (file path content : Text)

/-- What an inclusion asks for, while the files at some places are being read. -/
def inclusion (disk : Disk) (dir : Text) (reading : List Place) (s : State) (line : Text) : Action :=
  match Directive.includedFile line with
  | .error e => .fail e
  | .ok file =>
    let path := includePath disk dir file
    if reading.contains (disk.place path) then .fail (.circularInclude file)
    else if s.spliced.contains (disk.place path) then .write [] s
    else match disk.read path with
      | .error failure => .fail (.unreadable file failure)
      | .ok content => .enter file path content

/-- What a line asks for, while the files at some places are being read. -/
def action (disk : Disk) (depth : Nat) (dir : Text) (reading : List Place) (s : State) (line : Text) :
    Action :=
  match s.role line with
  | .definition rest =>
    match Directive.macrosAfter s.macros depth rest with
    | .error e => .fail e
    | .ok macros => .write [] { s with macros }
  | .inclusion line => inclusion disk dir reading s line
  | .plain =>
    match withinDepth depth (Segment.expandAll s.macros depth (s.region.cutLine line).1) with
    | .error e => .fail e
    | .ok text => .write text { s with region := (s.region.cutLine line).2 }

/-- The place that a line includes, if it is an inclusion that names a file. -/
def target? (disk : Disk) (dir : Text) (s : State) (line : Text) : Option Place :=
  match s.role line with
  | .inclusion line =>
    (Directive.includedFile line).toOption.map fun file => disk.place (includePath disk dir file)
  | _ => none

theorem definitions_of_definition {region : Region} {line d : Text} (h : roleIn region line = .definition d)
    (rest : List Text) : definitions region (line :: rest) = d :: definitions region rest := by
  rw [definitions, h]

theorem definitions_of_inclusion {region : Region} {line d : Text} (h : roleIn region line = .inclusion d)
    (rest : List Text) : definitions region (line :: rest) = definitions region rest := by
  rw [definitions, h]

theorem definitions_of_plain {region : Region} {line : Text} (h : roleIn region line = .plain)
    (rest : List Text) : definitions region (line :: rest) = definitions (region.cutLine line).2 rest := by
  rw [definitions, h]

/-! ### Readings -/

/-- What comes of some lines: a text and what is carried over, or a trouble. -/
abbrev Outcome := Except Trouble (Text × State)

/-- The outcome of lines whose first one is replaced by a text. -/
def Outcome.behind (text : Text) (rest : List Text) (r : Outcome) : Outcome :=
  r.map fun out => (if rest.isEmpty then text else text ++ "\n" ++ out.1, out.2)

/-- The outcome of an inclusion, from that of the lines of the file. -/
def Outcome.ofFile (file : Text) : Outcome → Outcome
  | .error e => .error (.inFile file e)
  | .ok (text, t) => if t.region = .code then .ok (text, t) else .error (.unfinished file)

inductive Event where
  /-- A file was included while the files at some places were being read, the innermost one first. -/
  | included (reading : List Place) (place : Place)
  | read (place : Place)
  deriving DecidableEq

/-- The inclusion that a line carries out. -/
def attempt (disk : Disk) (dir : Text) (reading : List Place) (s : State) (line : Text) : List Event :=
  ((target? disk dir s line).map (Event.included reading)).toList

/-- The reading of some lines, the first of them having the given number. -/
inductive Reads (disk : Disk) (depth : Nat) :
    Text → List Place → Nat → State → List Text → List Event → Outcome → Prop where
  | stop {dir : Text} {reading : List Place} {number : Nat} {s : State} :
      Reads disk depth dir reading number s [] [] (.ok ([], s))
  | fail {dir : Text} {reading : List Place} {number : Nat} {s : State} {line : Text} {rest : List Text}
      {e : Trouble} (h : action disk depth dir reading s line = .fail e) :
      Reads disk depth dir reading number s (line :: rest) (attempt disk dir reading s line)
        (.error (.onLine number e))
  | write {dir : Text} {reading : List Place} {number : Nat} {s t : State} {line text : Text}
      {rest : List Text} {log : List Event} {r : Outcome}
      (h : action disk depth dir reading s line = .write text t)
      (hrest : Reads disk depth dir reading (number + 1) t rest log r) :
      Reads disk depth dir reading number s (line :: rest) (attempt disk dir reading s line ++ log)
        (r.behind text rest)
  | enter {dir : Text} {reading : List Place} {number : Nat} {s t : State}
      {line text file path content : Text} {rest : List Text} {inner log : List Event} {r₁ r : Outcome}
      (h : action disk depth dir reading s line = .enter file path content)
      (hinner : Reads disk depth (Path.dir path) (disk.place path :: reading) 1
        (s.addSpliced (disk.place path)) content.lines inner r₁)
      (hfile : r₁.ofFile file = .ok (text, t))
      (hrest : Reads disk depth dir reading (number + 1) t rest log r) :
      Reads disk depth dir reading number s (line :: rest)
        (attempt disk dir reading s line ++ .read (disk.place path) :: (inner ++ log))
        (r.behind text rest)
  | broken {dir : Text} {reading : List Place} {number : Nat} {s : State}
      {line file path content : Text} {rest : List Text} {inner : List Event} {r₁ : Outcome}
      {e : Trouble} (h : action disk depth dir reading s line = .enter file path content)
      (hinner : Reads disk depth (Path.dir path) (disk.place path :: reading) 1
        (s.addSpliced (disk.place path)) content.lines inner r₁)
      (hfile : r₁.ofFile file = .error e) :
      Reads disk depth dir reading number s (line :: rest)
        (attempt disk dir reading s line ++ .read (disk.place path) :: inner) (.error (.onLine number e))

section

variable {disk : Disk} {depth : Nat} {dir : Text} {reading : List Place} {number : Nat} {s t : State}
  {line text file path content : Text} {rest lines : List Text} {log log' : List Event} {r r' : Outcome}

theorem Reads.unique (h : Reads disk depth dir reading number s lines log r)
    (h' : Reads disk depth dir reading number s lines log' r') : log' = log ∧ r' = r := by
  induction h generalizing log' r' with
  | stop =>
    cases h'
    exact ⟨rfl, rfl⟩
  -- The action on a line decides which rule applies, so the other rules contradict it.
  | fail h =>
    cases h' with
    | fail h₂ =>
      cases h.symm.trans h₂
      exact ⟨rfl, rfl⟩
    | write h₂ | enter h₂ | broken h₂ => cases h.symm.trans h₂
  | write h _ ih =>
    cases h' with
    | write h₂ hrest =>
      cases h.symm.trans h₂
      obtain ⟨rfl, rfl⟩ := ih hrest
      exact ⟨rfl, rfl⟩
    | fail h₂ | enter h₂ | broken h₂ => cases h.symm.trans h₂
  | enter h _ hfile _ ihinner ih =>
    cases h' with
    | enter h₂ hinner hfile₂ hrest =>
      cases h.symm.trans h₂
      obtain ⟨rfl, rfl⟩ := ihinner hinner
      cases hfile.symm.trans hfile₂
      obtain ⟨rfl, rfl⟩ := ih hrest
      exact ⟨rfl, rfl⟩
    -- A file that was finished in one reading cannot fail in the other.
    | broken h₂ hinner hfile₂ =>
      cases h.symm.trans h₂
      obtain ⟨rfl, rfl⟩ := ihinner hinner
      cases hfile.symm.trans hfile₂
    | fail h₂ | write h₂ => cases h.symm.trans h₂
  | broken h _ hfile ihinner =>
    cases h' with
    | enter h₂ hinner hfile₂ =>
      cases h.symm.trans h₂
      obtain ⟨rfl, rfl⟩ := ihinner hinner
      cases hfile.symm.trans hfile₂
    | broken h₂ hinner hfile₂ =>
      cases h.symm.trans h₂
      obtain ⟨rfl, rfl⟩ := ihinner hinner
      cases hfile.symm.trans hfile₂
      exact ⟨rfl, rfl⟩
    | fail h₂ | write h₂ => cases h.symm.trans h₂

/-! ### What a line can do -/

theorem withinDepth_eq_ok {found : Option α} {a : α} (h : withinDepth depth found = .ok a) :
    found = some a := by
  cases found with
  | none => cases h
  | some b =>
    cases h
    rfl

theorem action_write (h : action disk depth dir reading s line = .write text t) :
    (∃ rest macros, s.role line = .definition rest ∧
      Directive.macrosAfter s.macros depth rest = .ok macros ∧ text = [] ∧ t = { s with macros }) ∨
    (∃ place, target? disk dir s line = some place ∧ place ∉ reading ∧ place ∈ s.spliced ∧
      (∃ d, s.role line = .inclusion d) ∧ text = [] ∧ t = s) ∨
    (s.role line = .plain ∧
      Segment.expandAll s.macros depth (s.region.cutLine line).1 = some text ∧
      t = { s with region := (s.region.cutLine line).2 }) := by
  unfold action at h
  cases hrole : s.role line with
  | definition rest =>
    simp only [hrole] at h
    split at h
    · cases h
    · next macros hmacros =>
      cases h
      exact .inl ⟨rest, macros, rfl, hmacros, rfl, rfl⟩
  | inclusion d =>
    simp only [hrole, inclusion] at h
    split at h
    · cases h
    · next file hfile =>
      split at h
      · cases h
      · next hreading =>
        split at h
        -- The file is found a second time and passed over, so the line is written empty.
        · next hspliced =>
          cases h
          refine .inr (.inl ⟨disk.place (includePath disk dir file), ?_, ?_, ?_, ⟨d, rfl⟩, rfl, rfl⟩)
          · simp [target?, hrole, hfile, Except.toOption]
          · simpa using hreading
          · simpa using hspliced
        · split at h <;> cases h
  | plain =>
    simp only [hrole] at h
    split at h
    · cases h
    · next text htext =>
      cases h
      exact .inr (.inr ⟨rfl, withinDepth_eq_ok htext, rfl⟩)

theorem action_enter (h : action disk depth dir reading s line = .enter file path content) :
    target? disk dir s line = some (disk.place path) ∧ (∃ d, s.role line = .inclusion d) ∧
      disk.place path ∉ reading ∧ disk.place path ∉ s.spliced ∧ disk.read path = .ok content := by
  unfold action at h
  cases hrole : s.role line with
  | definition rest =>
    simp only [hrole] at h
    split at h <;> cases h
  | inclusion d =>
    simp only [hrole, inclusion] at h
    split at h
    · cases h
    · next file hfile =>
      split at h
      · cases h
      · next hreading =>
        split at h
        · cases h
        · next hspliced =>
          split at h
          · cases h
          · next content hread =>
            cases h
            refine ⟨?_, ⟨d, rfl⟩, by simpa using hreading, by simpa using hspliced, hread⟩
            simp [target?, hrole, hfile, Except.toOption]
  | plain =>
    simp only [hrole] at h
    split at h <;> cases h

theorem region_of_inclusion {d : Text} (h : s.role line = .inclusion d) : s.region = .code := by
  unfold State.role roleIn at h
  split at h
  · assumption
  · cases h

theorem Outcome.behind_eq_ok {out : Text} (h : r.behind text rest = .ok (out, t)) :
    ∃ more, r = .ok (more, t) ∧ out = if rest.isEmpty then text else text ++ "\n" ++ more := by
  cases r with
  | error e => cases h
  | ok found =>
    cases h
    exact ⟨found.1, rfl, rfl⟩

theorem Outcome.ofFile_eq_ok (h : r.ofFile file = .ok (text, t)) :
    r = .ok (text, t) ∧ t.region = .code := by
  cases r with
  | error e => cases h
  | ok found =>
    rw [Outcome.ofFile] at h
    split at h
    · next hcode =>
      cases h
      exact ⟨rfl, hcode⟩
    · cases h

/-! ### There is a reading for every source -/

/-- An outcome without the proof that it comes later. -/
def forget {s : State} (r : Except Trouble (Text × s.Later disk)) : Outcome :=
  r.map fun out => (out.1, out.2.val)

theorem splice_eq : forget (splice disk depth dir reading s line) =
    match inclusion disk dir reading s line with
    | .fail e => .error e
    | .write text t => .ok (text, t)
    | .enter file path content =>
      (forget (run disk depth (Path.dir path) (disk.place path :: reading) 1
        (s.addSpliced (disk.place path)) content.lines)).ofFile file := by
  rw [splice, inclusion]
  cases hname : Directive.includedFile line with
  | error e => rfl
  | ok file =>
    dsimp only
    by_cases hreading : disk.place (includePath disk dir file) ∈ reading
    · rw [if_pos hreading, if_pos (List.contains_iff_mem.mpr hreading)]
      rfl
    · rw [if_neg hreading, if_neg (mt List.contains_iff_mem.mp hreading)]
      -- A file that is being read is refused, one that was spliced is skipped, any other is read.
      by_cases hspliced : disk.place (includePath disk dir file) ∈ s.spliced
      · rw [dif_pos hspliced, if_pos (List.contains_iff_mem.mpr hspliced)]
        rfl
      · rw [dif_neg hspliced, if_neg (mt List.contains_iff_mem.mp hspliced)]
        split
        · next hread => rw [hread]; rfl
        · next hread =>
          rw [hread]
          dsimp only
          split
          · next hrun => rw [hrun]; rfl
          · next text t hrun =>
            rw [hrun]
            by_cases hcode : t.val.region = .code
            · simp [forget, Except.map, Outcome.ofFile, hcode]
            · simp [forget, Except.map, Outcome.ofFile, hcode]

theorem replaceLine_eq : forget (replaceLine disk depth dir reading s line) =
    match action disk depth dir reading s line with
    | .fail e => .error e
    | .write text t => .ok (text, t)
    | .enter file path content =>
      (forget (run disk depth (Path.dir path) (disk.place path :: reading) 1
        (s.addSpliced (disk.place path)) content.lines)).ofFile file := by
  rw [replaceLine, action, State.role, roleIn]
  generalize (if s.region = .code then Directive.ofLine line else .plain) = role
  cases role with
  | definition rest =>
    dsimp only
    cases Directive.macrosAfter s.macros depth rest with
    | error e => rfl
    | ok macros => rfl
  | inclusion line => exact splice_eq
  | plain =>
    dsimp only
    cases withinDepth depth (Segment.expandAll s.macros depth (s.region.cutLine line).1) with
    | error e => rfl
    | ok text => rfl

theorem replaceLine_cases {t : s.Later disk} (h : replaceLine disk depth dir reading s line = .ok (text, t)) :
    action disk depth dir reading s line = .write text t.val ∨
      ∃ file path content, action disk depth dir reading s line = .enter file path content ∧
        forget (run disk depth (Path.dir path) (disk.place path :: reading) 1
          (s.addSpliced (disk.place path)) content.lines) = .ok (text, t.val) ∧ t.val.region = .code := by
  have heq : forget (replaceLine disk depth dir reading s line) = .ok (text, t.val) := by
    rw [h]
    rfl
  rw [replaceLine_eq] at heq
  split at heq
  · cases heq
  · next haction =>
    cases heq
    exact .inl haction
  · next file path content haction =>
    obtain ⟨hrun, hcode⟩ := Outcome.ofFile_eq_ok heq
    exact .inr ⟨file, path, content, haction, hrun, hcode⟩

theorem run_cons : forget (run disk depth dir reading number s (line :: rest)) =
    match forget (replaceLine disk depth dir reading s line) with
    | .error e => .error (.onLine number e)
    | .ok (text, t) =>
      (forget (run disk depth dir reading (number + 1) t rest)).behind text rest := by
  rw [run]
  cases replaceLine disk depth dir reading s line with
  | error e => rfl
  | ok out =>
    obtain ⟨text, t⟩ := out
    dsimp only [forget, Except.map]
    cases run disk depth dir reading (number + 1) t.val rest with
    | error e => rfl
    | ok more => rfl

theorem remaining_of_forget {r : Except Trouble (Text × s.Later disk)} (h : forget r = .ok (text, t)) :
    t.remaining disk ≤ s.remaining disk := by
  cases r with
  | error e => cases h
  | ok out =>
    cases h
    exact out.2.property

theorem reads_run (disk : Disk) (depth : Nat) (dir : Text) (reading : List Place) (number : Nat)
    (s : State) (lines : List Text) : ∃ log, Reads disk depth dir reading number s lines log
      (forget (run disk depth dir reading number s lines)) := by
  cases lines with
  | nil =>
    rw [run]
    exact ⟨[], .stop⟩
  | cons line rest =>
    rw [run_cons, replaceLine_eq]
    cases haction : action disk depth dir reading s line with
    | fail e => exact ⟨_, .fail haction⟩
    | write text t =>
      have hsame : t.remaining disk = s.remaining disk := by
        rcases action_write haction with ⟨_, _, _, _, _, rfl⟩ | ⟨_, _, _, _, _, _, rfl⟩ | ⟨_, _, rfl⟩ <;>
          rfl
      obtain ⟨log, hrest⟩ := reads_run disk depth dir reading (number + 1) t rest
      exact ⟨_, .write haction hrest⟩
    | enter file path content =>
      -- The file is on the disk and was not spliced in before: there are fewer of those left.
      obtain ⟨-, -, -, hspliced, hread⟩ := action_enter haction
      have hfewer : (s.addSpliced (disk.place path)).remaining disk < s.remaining disk :=
        unvisited_cons_lt (Disk.place_mem_places hread) hspliced
      obtain ⟨inner, hinner⟩ := reads_run disk depth (Path.dir path) (disk.place path :: reading) 1
        (s.addSpliced (disk.place path)) content.lines
      dsimp only
      cases hfile : (forget (run disk depth (Path.dir path) (disk.place path :: reading) 1
          (s.addSpliced (disk.place path)) content.lines)).ofFile file with
      | error e => exact ⟨_, .broken haction hinner hfile⟩
      | ok out =>
        obtain ⟨text, t⟩ := out
        have hle := remaining_of_forget (Outcome.ofFile_eq_ok hfile).1
        obtain ⟨log, hrest⟩ := reads_run disk depth dir reading (number + 1) t rest
        exact ⟨_, .enter haction hinner hfile hrest⟩
termination_by (s.remaining disk, lines.length)
decreasing_by
  · rw [hsame]
    exact Prod.Lex.right _ (Nat.lt_succ_self _)
  · exact Prod.Lex.left _ _ hfewer
  · exact Prod.Lex.left _ _ (Nat.lt_of_le_of_lt hle hfewer)

theorem Reads.eq_run (h : Reads disk depth dir reading number s lines log r) :
    r = forget (run disk depth dir reading number s lines) := by
  obtain ⟨log', hlog⟩ := reads_run disk depth dir reading number s lines
  exact (hlog.unique h).2

theorem preprocess_of_reads {given : List (Text × Text)} {source : Text}
    (h : Reads disk depth dir [] 1 ⟨seed given, [], .code⟩ source.lines log r) :
    preprocess disk depth dir given source = r.map (·.1) := by
  rw [h.eq_run, preprocess, forget]
  cases run disk depth dir [] 1 ⟨seed given, [], .code⟩ source.lines with
  | error e => rfl
  | ok out => rfl

theorem exists_run_of_preprocess {given : List (Text × Text)} {source out : Text}
    (h : preprocess disk depth dir given source = .ok out) :
    ∃ t, forget (run disk depth dir [] 1 ⟨seed given, [], .code⟩ source.lines) = .ok (out, t) := by
  rw [preprocess] at h
  cases hrun : run disk depth dir [] 1 ⟨seed given, [], .code⟩ source.lines with
  | error e => rw [hrun] at h; cases h
  | ok found =>
    rw [hrun] at h
    cases h
    exact ⟨found.2.val, rfl⟩

/-! ### What a reading keeps -/

theorem lookup_define {ms : Macros} {name w : Text} {m m' : Macro}
    (h : (ms.define name m).lookup w = some m') : m' = m ∨ ms.lookup w = some m' := by
  rw [Macros.define, List.lookup_cons] at h
  split at h
  · cases h
    exact .inl rfl
  · exact .inr h

/-- A property of states and of the lines still to be read, kept by every line, holds at the end. -/
theorem Reads.keeps {P : State → List Text → Prop}
    (hwrite : ∀ {dir reading s t line text rest}, P s (line :: rest) →
      action disk depth dir reading s line = .write text t → P t rest)
    (henter : ∀ {dir reading s line file path content rest}, P s (line :: rest) →
      action disk depth dir reading s line = .enter file path content →
      P (s.addSpliced (disk.place path)) content.lines ∧
        ∀ t : State, P t [] → t.region = .code → P t rest)
    (h : Reads disk depth dir reading number s lines log r) (hs : P s lines) :
    ∀ text t, r = .ok (text, t) → P t [] := by
  induction h with
  | stop =>
    intro text t hr
    cases hr
    exact hs
  | fail | broken =>
    intro text t hr
    cases hr
  | write haction _ ih =>
    intro text t hr
    obtain ⟨more, hmore, -⟩ := Outcome.behind_eq_ok hr
    exact ih (hwrite hs haction) more t hmore
  | enter haction _ hfile _ ihinner ih =>
    intro text t hr
    obtain ⟨more, hmore, -⟩ := Outcome.behind_eq_ok hr
    obtain ⟨hfirst, hthen⟩ := henter hs haction
    obtain ⟨hinner, hcode⟩ := Outcome.ofFile_eq_ok hfile
    exact ih (hthen _ (ihinner hfirst _ _ hinner) hcode) more t hmore

end

end Pocket.Preprocess

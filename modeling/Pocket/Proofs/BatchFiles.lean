import Mathlib
import Pocket.Proofs.BatchOutputs
import Pocket.Proofs.Compiled
import Pocket.Proofs.Disks
import Pocket.Proofs.RawKept

/-!
# The files that a batch leaves

All sources of a batch are read before the first output is written. What a source contributes is told by the
disk that the batch finds: a text at a place, if the source compiles and its output can be written, and nothing
otherwise. The outputs do not get into each other's way as long as different cleaned paths lead to different
places.
-/

namespace Pocket.Command

open Pocket.Path

variable {disk : Disk} {s : Settings} {p : Profile} {folder file content : Text} {files : List Text}
  {src : Source} {sources : List Source} {state : BatchState}

/-! ### A source and its own output -/

/-- A source that can be read has another cleaned path than its output. -/
theorem clean_batchOutput_ne_of_read (h : disk.read file = .ok content) :
    clean (batchOutput folder file) ≠ clean file := by
  obtain ⟨q, hwalk, hfile⟩ := Disk.exists_walk_of_read h
  obtain ⟨before, hpieces⟩ := exists_pieces file
  rw [hpieces] at hwalk
  obtain ⟨m, hm, hlast⟩ := Disk.walk_append_eq_ok_iff.mp hwalk
  obtain ⟨hfolder, -, -, hstop⟩ := Disk.walk_cons_eq_ok_iff.mp hlast
  obtain rfl : step true m (lastPiece file) = q := by simpa [Disk.walk] using hstop
  by_cases hhere : lastPiece file = [] ∨ lastPiece file = "."
  · rw [step_here hhere, hfolder] at hfile
    cases hfile
  · by_cases habove : lastPiece file = ".."
    · -- A path that ends in a step upwards, but is cleaned to a name, leads to a folder.
      intro hclean
      have hnames : names file = outputName file :: names (outputFolder folder file) :=
        (clean_eq_clean_iff.mp hclean).2.symm.trans (names_batchOutput folder file).2
      rw [names, hpieces, List.foldl_append, List.foldl_cons, List.foldl_nil, habove] at hnames
      obtain ⟨x, hx, hbefore⟩ := names_before_above (u := []) hnames (by simp) (isName_outputName file).ne_above
      obtain ⟨w, rfl, hw⟩ := Disk.walk_names (u := []) hm hbefore (by simp) hx
      rw [habove, show step true ([] ++ x :: w) ".." = w from if_neg hx, hw] at hfile
      cases hfile
    · obtain ⟨hnil, hdot⟩ := not_or.mp hhere
      exact clean_batchOutput_ne (.inr ⟨hnil, hdot, habove, lastPiece_no_slash file⟩)

/-! ### One result -/

/-- Writes the output of a source, or shows why there is none. -/
def writeOutput (p : Profile) (folder : Text) (state : BatchState) (src : Source) : BatchState :=
  writeResult state (batchOutput folder src.name) src.text (Batch.compileOne p false src)

/-- What a source contributes to a disk: the place of its output and the text there, if it compiles and the
output can be written. -/
def contribution? (disk : Disk) (p : Profile) (folder : Text) (src : Source) : Option (Place × Text) :=
  match compile p src.text, disk.target (batchOutput folder src.name) with
  | .ok o, .ok place => some (place, o.text)
  | _, _ => none

theorem contribution?_eq_some_iff {w : Place × Text} : contribution? disk p folder src = some w ↔
    ∃ o, compile p src.text = .ok o ∧ disk.target (batchOutput folder src.name) = .ok w.1 ∧ o.text = w.2 := by
  obtain ⟨place, text⟩ := w
  unfold contribution?
  cases compile p src.text <;> cases disk.target (batchOutput folder src.name) <;> simp [and_comm]

/-- A source adds its contribution to what the others have left, or it counts as failed. -/
theorem writeOutput_cases (h : Disk.SameFolders disk state.disk) (p : Profile) (folder : Text) (src : Source) :
    (∃ w, contribution? disk p folder src = some w ∧
      (writeOutput p folder state src).disk = state.disk.put w.1 w.2 ∧
      (writeOutput p folder state src).failed = state.failed) ∨
    (contribution? disk p folder src = none ∧ (writeOutput p folder state src).disk = state.disk ∧
      (writeOutput p folder state src).failed = state.failed + 1) := by
  unfold contribution? writeOutput writeResult Batch.compileOne Disk.write
  cases compile p src.text with
  | error r => exact .inr ⟨rfl, rfl, rfl⟩
  | ok o =>
    cases htarget : disk.target (batchOutput folder src.name) with
    | ok place =>
      refine .inl ⟨(place, o.text), rfl, ?_⟩
      simp [Except.mapError, h.target htarget]
    | error reason =>
      cases hlater : state.disk.target (batchOutput folder src.name) with
      | ok place =>
        rw [h.symm.target hlater] at htarget
        cases htarget
      | error reason => simp [Except.mapError]

/-! ### All results -/

/-- How far a batch has got on the sources that are done: folders are as they were, every place holds what one
of the sources contributes there or, if there is none, what it held before, and the others have failed. -/
structure Progress (disk : Disk) (p : Profile) (folder : Text) (done : List Source) (state : BatchState) : Prop where
  folders : Disk.SameFolders disk state.disk
  entries : ∀ q, (∃ src ∈ done, ∃ text, contribution? disk p folder src = some (q, text) ∧
      state.disk.entry? q = some (.file text)) ∨
    ((∀ src ∈ done, ∀ text, contribution? disk p folder src ≠ some (q, text)) ∧
      state.disk.entry? q = disk.entry? q)
  failed : state.failed = 0 ↔ ∀ src ∈ done, (contribution? disk p folder src).isSome

theorem Progress.step (h : Progress disk p folder sources state) (src : Source) :
    Progress disk p folder (sources ++ [src]) (writeOutput p folder state src) := by
  rcases writeOutput_cases h.folders p folder src with
    ⟨⟨place, text⟩, hsome, hdisk, hfailed⟩ | ⟨hnone, hdisk, hfailed⟩
  · obtain ⟨o, -, htarget, -⟩ := contribution?_eq_some_iff.mp hsome
    have hplace := Disk.target_ne_nil htarget
    refine ⟨?_, fun q => ?_, ?_⟩
    · rw [hdisk]
      exact h.folders.put hplace (Disk.target_not_folder htarget) text
    · rw [hdisk, Disk.entry?_put hplace]
      by_cases hq : q = place
      · rw [if_pos hq, hq]
        exact .inl ⟨src, by simp, text, hsome, rfl⟩
      -- An entry elsewhere is as before: the new source does not contribute to it.
      · rw [if_neg hq]
        rcases h.entries q with ⟨other, hother, t, ht, hheld⟩ | ⟨hfree, hheld⟩
        · exact .inl ⟨other, by simp [hother], t, ht, hheld⟩
        · refine .inr ⟨?_, hheld⟩
          simp only [List.forall_mem_append, List.forall_mem_singleton]
          refine ⟨hfree, fun t ht => hq ?_⟩
          rw [hsome] at ht
          cases ht
          rfl
    · rw [hfailed, h.failed, List.forall_mem_append, List.forall_mem_singleton, hsome]
      exact (and_iff_left rfl).symm
  -- A source that contributes nothing leaves the disk alone and makes the batch fail.
  · refine ⟨?_, fun q => ?_, ?_⟩
    · rw [hdisk]
      exact h.folders
    · rw [hdisk]
      rcases h.entries q with ⟨other, hother, t, ht, hheld⟩ | ⟨hfree, hheld⟩
      · exact .inl ⟨other, by simp [hother], t, ht, hheld⟩
      · refine .inr ⟨List.forall_mem_append.mpr ⟨hfree, ?_⟩, hheld⟩
        simp [hnone]
    · rw [hfailed, List.forall_mem_append, List.forall_mem_singleton, hnone]
      simp

theorem Progress.run (disk : Disk) (p : Profile) (folder : Text) (sources : List Source) :
    Progress disk p folder sources (sources.foldl (writeOutput p folder) ⟨disk, [], 0⟩) := by
  induction sources using List.reverseRecOn with
  | nil => exact ⟨.refl disk, fun q => .inr ⟨by simp, rfl⟩, by simp⟩
  | append_singleton sources src ih =>
    rw [List.foldl_concat]
    exact ih.step src

theorem writeResults_eq (disk : Disk) (p : Profile) (folder : Text) (sources : List Source) :
    writeResults disk p (pairings folder (sources.map (·.name))) sources =
      sources.foldl (writeOutput p folder) ⟨disk, [], 0⟩ := by
  unfold writeResults
  generalize BatchState.mk disk [] 0 = state
  induction sources generalizing state with
  | nil => rfl
  | cons src sources ih => exact ih (writeOutput p folder state src)

/-- Reads a source of a batch. -/
def readNamed (disk : Disk) (s : Settings) (file : Text) : Except Trouble Source :=
  (readSource disk s file).map fun text => ⟨file, text⟩

theorem readNamed_eq_ok_iff : readNamed disk s file = .ok src ↔
    src.name = file ∧ readSource disk s file = .ok src.text := by
  obtain ⟨name, text⟩ := src
  unfold readNamed
  cases readSource disk s file with
  | error t => simp [Except.map]
  | ok read => simp [Except.map, eq_comm]

theorem names_of_mapM_readNamed (h : files.mapM (readNamed disk s) = .ok sources) :
    sources.map (·.name) = files ∧ ∀ src ∈ sources, readSource disk s src.name = .ok src.text := by
  induction files generalizing sources with
  | nil =>
    cases h
    exact ⟨rfl, by simp⟩
  | cons file files ih =>
    obtain ⟨src, rest, hsrc, hrest, rfl⟩ := mapM_cons_eq_ok_iff.mp h
    obtain ⟨rfl, hread⟩ := readNamed_eq_ok_iff.mp hsrc
    obtain ⟨rfl, hreads⟩ := ih hrest
    exact ⟨rfl, List.forall_mem_cons.mpr ⟨hread, hreads⟩⟩

/-- The sources of a batch are read if each of them can be read. -/
theorem exists_mapM_readNamed (h : ∀ file ∈ files, ∃ source, readSource disk s file = .ok source) :
    ∃ sources, files.mapM (readNamed disk s) = .ok sources := by
  induction files with
  | nil => exact ⟨[], rfl⟩
  | cons file files ih =>
    obtain ⟨⟨source, hsource⟩, hrest⟩ := List.forall_mem_cons.mp h
    obtain ⟨sources, hsources⟩ := ih hrest
    exact ⟨⟨file, source⟩ :: sources, mapM_cons_eq_ok_iff.mpr
      ⟨_, _, readNamed_eq_ok_iff.mpr ⟨rfl, hsource⟩, hsources, rfl⟩⟩

/-! ### The whole batch -/

theorem not_trouble_iff : ¬((∃ clash, batchOutputs folder files = .error clash) ∨
      ∃ file ∈ files, ∃ trouble, readSource disk s file = .error trouble) ↔
    (∃ outputs, batchOutputs folder files = .ok outputs) ∧
      ∀ file ∈ files, ∃ source, readSource disk s file = .ok source := by
  have hok {ε α : Type} (x : Except ε α) : (¬∃ e, x = .error e) ↔ ∃ a, x = .ok a := by cases x <;> simp
  rw [not_or, hok]
  simp only [not_exists, not_and, ← hok]

/-- A batch that is refused or cannot read all its sources leaves the disk as it is. -/
theorem runBatch_of_trouble (hfiles : files ≠ []) (hprofile : loadProfile disk s = .ok p)
    (h : (∃ clash, batchOutputs folder files = .error clash) ∨
      ∃ file ∈ files, ∃ trouble, readSource disk s file = .error trouble) :
    (runBatch disk s folder files).disk = disk ∧ (runBatch disk s folder files).exit ≠ 0 := by
  unfold runBatch
  rw [if_neg (by simpa using hfiles), hprofile]
  dsimp only
  cases houtputs : batchOutputs folder files with
  | error clash => exact ⟨rfl, by simp [refuse]⟩
  | ok outputs =>
    rcases h with ⟨clash, hclash⟩ | ⟨file, hfile, trouble, htrouble⟩
    · rw [houtputs] at hclash
      cases hclash
    · dsimp only
      split
      · exact ⟨rfl, by simp [fail]⟩
      · next sources hsources =>
        obtain ⟨rfl, hread⟩ := names_of_mapM_readNamed hsources
        obtain ⟨src, hsrc, rfl⟩ := List.mem_map.mp hfile
        rw [hread src hsrc] at htrouble
        cases htrouble

theorem runBatch_of_read (hfiles : files ≠ []) (hprofile : loadProfile disk s = .ok p) (hapart : Apart folder files)
    (hsources : files.mapM (readNamed disk s) = .ok sources) :
    let state := sources.foldl (writeOutput p folder) ⟨disk, [], 0⟩
    (runBatch disk s folder files).disk = state.disk ∧
      ((runBatch disk s folder files).exit = 0 ↔ state.failed = 0) := by
  intro state
  obtain ⟨hnames, -⟩ := names_of_mapM_readNamed hsources
  unfold runBatch
  rw [if_neg (by simpa using hfiles), hprofile, batchOutputs_eq_ok_iff.mpr ⟨hapart, rfl⟩]
  dsimp only
  split
  · next trouble htrouble => cases htrouble.symm.trans hsources
  · next read hread =>
    obtain rfl : read = sources := Except.ok.inj (hread.symm.trans hsources)
    rw [← hnames, writeResults_eq]
    split
    · next hfailed => exact ⟨rfl, by simpa using hfailed⟩
    · next hfailed => exact ⟨rfl, by simpa using hfailed⟩

/-- A source can be read, and it compiles to an output. -/
def Compiles (disk : Disk) (s : Settings) (p : Profile) (file : Text) (o : Output) : Prop :=
  ∃ source, readSource disk s file = .ok source ∧ compile p source = .ok o

/-- What a batch leaves on a disk if all its sources can be read: the outputs lie apart from each other and from
their own sources, nothing changes but at the outputs of sources that compile, and each of these that can be
written holds what its source, as it was before, compiles to. -/
structure Delivered (disk : Disk) (s : Settings) (p : Profile) (folder : Text) (files : List Text) (after : Disk) :
    Prop where
  apart : files.Pairwise fun f g => clean (batchOutput folder f) ≠ clean (batchOutput folder g)
  own : ∀ file ∈ files, clean (batchOutput folder file) ≠ clean file
  changed : ∀ q, after.entry? q ≠ disk.entry? q →
    ∃ file ∈ files, ∃ o, Compiles disk s p file o ∧ disk.place (batchOutput folder file) = q ∧
      after.entry? q = some (.file o.text)
  written : ∀ file ∈ files, ∀ o e, Compiles disk s p file o → disk.write (batchOutput folder file) o.text = .ok e →
    after.read (batchOutput folder file) = .ok o.text

theorem exists_read_of_readSource {source : Text} (h : readSource disk s file = .ok source) :
    ∃ content, disk.read file = .ok content := by
  obtain ⟨content, hread, -⟩ := bind_eq_ok_iff.mp h
  exact ⟨content, mapError_eq_ok_iff.mp hread⟩

theorem Progress.failed_iff (h : Progress disk p folder sources state)
    (hread : ∀ src ∈ sources, readSource disk s src.name = .ok src.text) :
    state.failed = 0 ↔ ∀ file ∈ sources.map (·.name),
      ∃ o e, Compiles disk s p file o ∧ disk.write (batchOutput folder file) o.text = .ok e := by
  rw [h.failed, List.forall_mem_map]
  refine forall₂_congr fun src hsrc => ?_
  constructor
  · intro hsome
    obtain ⟨w, hw⟩ := Option.isSome_iff_exists.mp hsome
    obtain ⟨o, hcompile, htarget, -⟩ := contribution?_eq_some_iff.mp hw
    exact ⟨o, _, ⟨src.text, hread src hsrc, hcompile⟩, Disk.write_eq_ok_iff.mpr ⟨_, htarget, rfl⟩⟩
  · rintro ⟨o, e, ⟨source, hsource, hcompile⟩, hwrite⟩
    obtain rfl : src.text = source := Except.ok.inj ((hread src hsrc).symm.trans hsource)
    obtain ⟨place, htarget, -⟩ := Disk.write_eq_ok_iff.mp hwrite
    exact Option.isSome_iff_exists.mpr ⟨(place, o.text), contribution?_eq_some_iff.mpr ⟨o, hcompile, htarget, rfl⟩⟩

theorem Progress.delivered (h : Progress disk p folder sources state)
    (hread : ∀ src ∈ sources, readSource disk s src.name = .ok src.text)
    (hapart : Apart folder (sources.map (·.name)))
    (hplaces : ∀ src ∈ sources, ∀ other ∈ sources,
      disk.place (batchOutput folder src.name) = disk.place (batchOutput folder other.name) →
      clean (batchOutput folder src.name) = clean (batchOutput folder other.name)) :
    Delivered disk s p folder (sources.map (·.name)) state.disk := by
  refine ⟨hapart, List.forall_mem_map.mpr ?_, ?_, List.forall_mem_map.mpr ?_⟩
  · intro src hsrc
    obtain ⟨content, hcontent⟩ := exists_read_of_readSource (hread src hsrc)
    exact clean_batchOutput_ne_of_read hcontent
  · intro q hq
    rcases h.entries q with ⟨src, hsrc, text, hsome, hheld⟩ | ⟨-, hsame⟩
    · obtain ⟨o, hcompile, htarget, rfl⟩ := contribution?_eq_some_iff.mp hsome
      exact ⟨src.name, List.mem_map_of_mem hsrc, o, ⟨src.text, hread src hsrc, hcompile⟩,
        (Disk.target_eq_place htarget).symm, hheld⟩
    · exact absurd hsame hq
  · rintro src hsrc o e ⟨source, hsource, hcompile⟩ hwrite
    obtain rfl : src.text = source := Except.ok.inj ((hread src hsrc).symm.trans hsource)
    obtain ⟨place, htarget, -⟩ := Disk.write_eq_ok_iff.mp hwrite
    have hsome : contribution? disk p folder src = some (place, o.text) :=
      contribution?_eq_some_iff.mpr ⟨o, hcompile, htarget, rfl⟩
    refine Disk.read_of_target (h.folders.target htarget) ?_
    rcases h.entries place with ⟨other, hother, text, htext, hheld⟩ | ⟨hfree, -⟩
    · -- A source that contributes to the same place has the same output, so it is the same source.
      obtain ⟨-, -, hplace, -⟩ := contribution?_eq_some_iff.mp htext
      have hclean := hplaces src hsrc other hother
        ((Disk.target_eq_place htarget).symm.trans (Disk.target_eq_place hplace))
      rw [Apart, List.pairwise_map] at hapart
      obtain rfl : src = other := List.inj_on_of_nodup_map (List.pairwise_map.mpr hapart) hsrc hother hclean
      rw [hsome] at htext
      cases htext
      exact hheld
    · exact absurd hsome (hfree src hsrc o.text)

/-- The batch command writes what its sources compile to and nothing else. If two outputs clash or a source cannot
be read, nothing is written. The command succeeds if every source compiles and its output is written. -/
theorem batch_delivers (hfiles : files ≠ []) (hprofile : loadProfile disk s = .ok p)
    (hplaces : ∀ f ∈ files, ∀ g ∈ files, disk.place (batchOutput folder f) = disk.place (batchOutput folder g) →
      clean (batchOutput folder f) = clean (batchOutput folder g)) :
    let outcome := run disk s (.batch folder files)
    ((∃ clash, batchOutputs folder files = .error clash) ∨
        (∃ file ∈ files, ∃ trouble, readSource disk s file = .error trouble) →
      outcome.disk = disk) ∧
    ((∃ outputs, batchOutputs folder files = .ok outputs) →
        (∀ file ∈ files, ∃ source, readSource disk s file = .ok source) →
      Delivered disk s p folder files outcome.disk) ∧
    (outcome.exit = 0 ↔ (∃ outputs, batchOutputs folder files = .ok outputs) ∧
      ∀ file ∈ files, ∃ o e, Compiles disk s p file o ∧ disk.write (batchOutput folder file) o.text = .ok e ∧
        outcome.disk.read (batchOutput folder file) = .ok o.text) := by
  intro outcome
  -- Before the first output is written, all names are compared and all sources are read.
  by_cases htrouble : (∃ clash, batchOutputs folder files = .error clash) ∨
      ∃ file ∈ files, ∃ trouble, readSource disk s file = .error trouble
  · obtain ⟨hdisk, hexit⟩ := runBatch_of_trouble hfiles hprofile htrouble
    refine ⟨fun _ => hdisk, fun houtputs hreads => ?_, fun h => absurd h hexit, fun h => ?_⟩
    · exact absurd htrouble (not_trouble_iff.mpr ⟨houtputs, hreads⟩)
    · obtain ⟨houtputs, hall⟩ := h
      refine absurd htrouble (not_trouble_iff.mpr ⟨houtputs, fun file hfile => ?_⟩)
      obtain ⟨o, e, ⟨source, hsource, -⟩, -⟩ := hall file hfile
      exact ⟨source, hsource⟩
  · obtain ⟨⟨outputs, houtputs⟩, hreads⟩ := not_trouble_iff.mp htrouble
    obtain ⟨sources, hsources⟩ := exists_mapM_readNamed hreads
    obtain ⟨rfl, hread⟩ := names_of_mapM_readNamed hsources
    obtain ⟨hapart, -⟩ := batchOutputs_eq_ok_iff.mp houtputs
    obtain ⟨hdisk, hexit⟩ := runBatch_of_read hfiles hprofile hapart hsources
    have hprogress := Progress.run disk p folder sources
    -- From here on every source is tried, whether the others succeed or not.
    have hdelivered : Delivered disk s p folder (sources.map (·.name)) outcome.disk := by
      rw [show outcome.disk = _ from hdisk]
      exact hprogress.delivered hread hapart (by simpa using hplaces)
    refine ⟨fun h => absurd h htrouble, fun _ _ => hdelivered, ?_⟩
    rw [show outcome.exit = 0 ↔ _ from hexit, hprogress.failed_iff hread]
    constructor
    · intro hall
      refine ⟨⟨outputs, houtputs⟩, fun file hfile => ?_⟩
      obtain ⟨o, e, hcompiles, hwrite⟩ := hall file hfile
      exact ⟨o, e, hcompiles, hwrite, hdelivered.written file hfile o e hcompiles hwrite⟩
    · rintro ⟨-, hall⟩ file hfile
      obtain ⟨o, e, hcompiles, hwrite, -⟩ := hall file hfile
      exact ⟨o, e, hcompiles, hwrite⟩

/-! ### A source that compiles beside one that does not -/

/-- `void main(){}` -/
def shortSource : Text :=
  "void main(){}"

/-- A disk with a source that compiles and an empty one. -/
def pairDisk : Disk :=
  ⟨[], [(["a.c"], .file shortSource), (["b.c"], .file [])]⟩

/-- Settings that ask for nothing. -/
def plainSettings : Settings :=
  ⟨[], [], false⟩

theorem readSource_plain {source : Text} (hread : disk.read file = .ok source) (hsign : '#'.toUInt8 ∉ source)
    (hpass : Region.pass (fun w => [].lookup w) .code source = source) :
    readSource disk plainSettings file = .ok source := by
  refine bind_eq_ok_iff.mpr ⟨source, mapError_eq_ok_iff.mpr hread, mapError_eq_ok_iff.mpr ?_⟩
  have h := preprocess_eq disk Preprocess.standardDepth (dir (disk.absolute file)) [] (plain_of_no_sign hsign)
  rwa [hpass] at h

theorem exists_compile_short : ∃ o, compile .standard shortSource = .ok o := by
  have hflaw : Profile.standard.flaw? = none := by cbv
  have hread : (shortSource.lex.toOption.any fun ts =>
      (Program.ofTokens .standard ts).toOption.isSome) = true := by cbv
  obtain ⟨ts, hlex, hsome⟩ := (Option.any_eq_true _ _).mp hread
  obtain ⟨prog, hprog⟩ := Option.isSome_iff_exists.mp hsome
  obtain ⟨o, ho, -⟩ := exists_compile_eq_ok hflaw (eq_ok_of_toOption hlex) (eq_ok_of_toOption hprog)
  exact ⟨o, ho⟩

theorem compile_nil_ne (o : Output) : compile .standard [] ≠ .ok o := by
  have h : (compile .standard []).isOk = false := by cbv
  intro ho
  simp [ho, Except.isOk, Except.toBool] at h

/-- The output of the first source is written although the second one is refused. -/
theorem batch_delivers_pair : ∃ o, compile .standard shortSource = .ok o ∧
    let outcome := run pairDisk plainSettings (.batch [] ["a.c", "b.c"])
    outcome.exit ≠ 0 ∧ outcome.disk.read "a.z80" = .ok o.text ∧
      ∀ q, outcome.disk.entry? q ≠ pairDisk.entry? q → q = ["a.z80"] := by
  obtain ⟨o, ho⟩ := exists_compile_short
  have hshort : readSource pairDisk plainSettings "a.c" = .ok shortSource :=
    readSource_plain (by rfl) (by decide) (by cbv)
  have hnil : readSource pairDisk plainSettings "b.c" = .ok [] := readSource_plain (by rfl) (by decide) (by cbv)
  have hrefused (o : Output) : ¬Compiles pairDisk plainSettings .standard "b.c" o := by
    rintro ⟨source, hsource, hcompile⟩
    obtain rfl : [] = source := Except.ok.inj (hnil.symm.trans hsource)
    exact compile_nil_ne o hcompile
  obtain ⟨-, hdelivers, hexit⟩ :=
    @batch_delivers pairDisk plainSettings .standard [] ["a.c", "b.c"] (by simp) (by rfl) (by decide)
  have hdelivered := hdelivers ⟨_, by rfl⟩ (by simp [hshort, hnil])
  refine ⟨o, ho, fun h => ?_, ?_, fun q hq => ?_⟩
  · obtain ⟨o', e, hcompiles, -⟩ := (hexit.mp h).2 "b.c" (by simp)
    exact hrefused o' hcompiles
  · exact hdelivered.written "a.c" (by simp) o _ ⟨shortSource, hshort, ho⟩ (by rfl)
  · obtain ⟨file, hfile, o', hcompiles, hplace, -⟩ := hdelivered.changed q hq
    rcases List.mem_pair.mp hfile with rfl | rfl
    · rw [← hplace]
      rfl
    · exact absurd hcompiles (hrefused o')

end Pocket.Command

import Mathlib
import Pocket.Command.Run
import Pocket.Proofs.Paths

/-!
# The files that a batch is written to

The output of a source has a name of its own and goes to the folder of the source, or to one that was asked
for. A batch is refused if two outputs have the same cleaned path, but outputs are not compared with sources:
a source is written over if it has the name of an output and lies in the folder where that output goes. Such a
source has the extension of outputs.
-/

namespace Pocket.Command

open Pocket.Path

variable {folder file g : Text} {files : List Text}

/-! ### One output -/

/-- The name of the file that a source is written to. -/
def outputName (file : Text) : Text :=
  withExt (lastPiece file) outputExt

/-- The folder that a source is written to. -/
def outputFolder (folder file : Text) : Text :=
  if folder.isEmpty then dir file else clean folder

theorem isName_of_outputExt {stem : Text} (h : '/'.toUInt8 ∉ stem) : IsName (stem ++ outputExt) := by
  -- The other pieces are shorter than the extension.
  have hne (t : Text) (ht : t.length < outputExt.length) : stem ++ outputExt ≠ t := by
    rintro rfl
    rw [List.length_append] at ht
    omega
  refine ⟨hne [] (by decide), hne "." (by decide), hne ".." (by decide), fun hmem => ?_⟩
  rcases List.mem_append.mp hmem with hmem | hmem
  · exact h hmem
  · exact absurd hmem (by decide)

/-- A source is a front and a last piece. Its output has another last piece, which is a name. -/
theorem exists_outputName (file : Text) : ∃ f last, IsFront f ∧ '/'.toUInt8 ∉ last ∧ file = f ++ last ∧
    IsName (outputName file) ∧ outputName file ≠ last ∧ withExt file outputExt = f ++ outputName file := by
  obtain ⟨f, last, hf, hlast, rfl⟩ := exists_front file
  obtain ⟨stem, hstem, hne, hext⟩ := exists_withExt hlast (e := outputExt) (by decide)
  have hname : outputName (f ++ last) = stem ++ outputExt := by
    rw [outputName, lastPiece_append hf hlast]
    exact hext [] (.inl rfl)
  rw [hname]
  exact ⟨f, last, hf, hlast, rfl, isName_of_outputExt fun h => hlast (hstem.subset h), hne, hext f hf⟩

theorem isName_outputName (file : Text) : IsName (outputName file) := by
  obtain ⟨_, _, _, _, _, hname, _⟩ := exists_outputName file
  exact hname

theorem clean_outputFolder (folder file : Text) : clean (outputFolder folder file) = outputFolder folder file := by
  rw [outputFolder]
  split
  · exact clean_clean _
  · exact clean_clean _

/-- The steps to an output: those to its folder, and then its name. -/
theorem names_batchOutput (folder file : Text) :
    isAbsolute (batchOutput folder file) = isAbsolute (outputFolder folder file) ∧
      names (batchOutput folder file) = outputName file :: names (outputFolder folder file) := by
  obtain ⟨f, last, hf, hlast, hfile, hname, -, hext⟩ := exists_outputName file
  rw [batchOutput, outputFolder]
  by_cases hfolder : folder = []
  · rw [if_pos (by simpa using hfolder), if_pos (by simpa using hfolder), hext, hfile, dir_append hf hlast,
      isAbsolute_clean, names_clean, ← hfile]
    exact ⟨isAbsolute_front hf hname.no_slash, (names_append hf hname.no_slash).trans (step_name hname)⟩
  · have hjoin : join [folder, base (withExt file outputExt)] =
        clean (folder ++ ['/'.toUInt8] ++ outputName file) := by
      have hfilter : [folder, outputName file].filter (fun p => !p.isEmpty) = [folder, outputName file] := by
        simp [hfolder, hname.ne_nil]
      have htext : Text.join "/" [folder, outputName file] = folder ++ ['/'.toUInt8] ++ outputName file := by
        rw [Asm.join_cons _ _ (List.cons_ne_nil _ _), Asm.join_singleton, List.append_assoc]
        rfl
      rw [hext, base_append hf hname.no_slash hname.ne_nil, join, hfilter, ← htext]
    have hfront : IsFront (folder ++ ['/'.toUInt8]) := .inr ⟨folder, rfl⟩
    obtain ⟨hrooted, hnames⟩ := clean_eq_clean_iff.mp (clean_slash hfolder)
    rw [if_neg (by simpa using hfolder), if_neg (by simpa using hfolder), hjoin, isAbsolute_clean, names_clean,
      isAbsolute_clean, names_clean, isAbsolute_front hfront hname.no_slash, names_append hfront hname.no_slash,
      step_name hname, hrooted, hnames]
    exact ⟨rfl, rfl⟩

/-- An output has the cleaned path of a file that has its name and lies in its folder. -/
theorem clean_batchOutput_iff : clean (batchOutput folder file) = clean g ↔
    base (clean g) = outputName file ∧ dir (clean g) = outputFolder folder file := by
  obtain ⟨hrooted, hnames⟩ := names_batchOutput folder file
  have hname := isName_outputName file
  have hfolder := reduced_names (outputFolder folder file)
  constructor
  · intro h
    have hlast := clean_name hname.no_slash hname.ne_nil hfolder
    rw [← h, clean_eq (batchOutput folder file), hrooted, hnames]
    exact ⟨hlast.1, hlast.2.trans ((clean_eq _).symm.trans (clean_outputFolder folder file))⟩
  · rintro ⟨hbase, hdir⟩
    have hreduced := reduced_names g
    rw [clean_eq g] at hbase hdir
    -- A path without names is a dot or a slash, neither of which is the name of an output.
    cases hg : names g with
    | nil =>
      rw [hg] at hbase
      cases hroot : isAbsolute g with
      | false =>
        rw [hroot] at hbase
        exact absurd hbase.symm hname.ne_here
      | true =>
        rw [hroot] at hbase
        exact absurd (show '/'.toUInt8 ∈ outputName file from hbase ▸ List.mem_cons_self) hname.no_slash
    | cons n ns =>
      rw [hg] at hbase hdir hreduced
      have hn : n ∈ n :: ns := List.mem_cons_self
      have hlast := clean_name (hreduced.no_slash n hn) (hreduced.ne_nil n hn) hreduced.tail
      rw [hlast.1] at hbase
      rw [hlast.2] at hdir
      rw [clean_eq_clean_iff, hrooted, hnames, hg, hbase, ← hdir, hreduced.tail.isAbsolute_render,
        hreduced.tail.names_render]
      exact ⟨rfl, rfl⟩

/-- A piece adds no other name than itself. -/
theorem step_ne_cons {n piece : Text} (hne : n ≠ piece) (rooted : Bool) (ns : List Text) :
    step rooted ns piece ≠ n :: ns := by
  unfold step
  split
  · exact (List.cons_ne_self n ns).symm
  · split
    · cases ns with
      | nil =>
        cases rooted
        · intro h
          exact hne (List.cons.inj h).1.symm
        · exact List.cons_ne_nil n [] ∘ Eq.symm
      | cons last before =>
        dsimp only
        split
        · intro h
          exact hne (List.cons.inj h).1.symm
        · intro h
          have hlength := congrArg List.length h
          simp only [List.length_cons] at hlength
          omega
    · intro h
      exact hne (List.cons.inj h).1.symm

/-- An output next to its source has another cleaned path, and so has any output of a source whose path ends
in a name. -/
theorem clean_batchOutput_ne (h : folder = [] ∨ IsName (lastPiece file)) :
    clean (batchOutput folder file) ≠ clean file := by
  obtain ⟨f, last, hf, hlast, hfile, hname, hne, -⟩ := exists_outputName file
  intro hclean
  have hnames := (clean_eq_clean_iff.mp hclean).2
  rw [(names_batchOutput folder file).2] at hnames
  have hsteps : names file = step (isAbsolute f) (names f) last := by rw [hfile, names_append hf hlast]
  rcases h with rfl | hlastName
  · have hfolder : names (outputFolder [] file) = names f := by
      rw [outputFolder, if_pos (by rfl), hfile, dir_append hf hlast, names_clean]
    rw [hfolder, hsteps] at hnames
    exact step_ne_cons hne _ _ hnames.symm
  · rw [hfile, lastPiece_append hf hlast] at hlastName
    rw [hsteps, step_name hlastName] at hnames
    exact hne (List.cons.inj hnames).1

/-- A file that an output is written over has the extension of outputs. -/
theorem endsWith_outputExt (h : clean (batchOutput folder file) = clean g) :
    (clean g).endsWith outputExt = true := by
  obtain ⟨hrooted, hnames⟩ := names_batchOutput folder file
  obtain ⟨f, -, hrender, -⟩ := exists_render_front (reduced_names (outputFolder folder file)) (outputName file)
  obtain ⟨stem, -, -, hext⟩ := exists_withExt (lastPiece_no_slash file) (e := outputExt) (by decide)
  have hname : outputName file = stem ++ outputExt := hext [] (.inl rfl)
  rw [← h, clean_eq, hrooted, hnames, hrender, hname, Asm.endsWith_iff]
  exact ⟨f ++ stem, (List.append_assoc _ _ _).symm⟩

/-! ### All outputs -/

section Outputs

variable {done outputs : List (Text × Text)}

/-- The sources of a batch with their outputs. -/
def pairings (folder : Text) (files : List Text) : List (Text × Text) :=
  files.map fun file => (file, batchOutput folder file)

/-- The outputs of some sources have different cleaned paths. -/
def Apart (folder : Text) (files : List Text) : Prop :=
  files.Pairwise fun f g => clean (batchOutput folder f) ≠ clean (batchOutput folder g)

theorem batchOutputsFrom_eq_ok_iff : batchOutputsFrom folder done files = .ok outputs ↔
    (∀ d ∈ done, ∀ file ∈ files, clean d.2 ≠ clean (batchOutput folder file)) ∧ Apart folder files ∧
      done ++ pairings folder files = outputs := by
  induction files generalizing done with
  | nil => simp [batchOutputsFrom, Apart, pairings]
  | cons file files ih =>
    rw [batchOutputsFrom]
    split
    · next first output hfind =>
      -- An earlier output has the same cleaned path.
      have hmem := List.mem_of_find?_eq_some hfind
      have hsame := List.find?_some hfind
      constructor
      · intro h
        cases h
      · rintro ⟨hdone, -⟩
        exact absurd (of_decide_eq_true hsame) (hdone _ hmem file List.mem_cons_self)
    · next hnone =>
      have hfree : ∀ d ∈ done, clean d.2 ≠ clean (batchOutput folder file) := by
        intro d hd
        simpa using List.find?_eq_none.mp hnone d hd
      have hpairings : done ++ [(file, batchOutput folder file)] ++ pairings folder files =
          done ++ pairings folder (file :: files) := List.append_assoc _ _ _
      rw [ih, hpairings]
      constructor
      · rintro ⟨hdone, hapart, houtputs⟩
        have hfile := hdone (file, batchOutput folder file) (by simp)
        refine ⟨fun d hd => ?_, List.pairwise_cons.mpr ⟨hfile, hapart⟩, houtputs⟩
        exact List.forall_mem_cons.mpr ⟨hfree d hd, hdone d (List.mem_append_left _ hd)⟩
      · rintro ⟨hdone, hapart, houtputs⟩
        obtain ⟨hfile, hrest⟩ := List.pairwise_cons.mp hapart
        refine ⟨fun d hd => ?_, hrest, houtputs⟩
        rcases List.mem_append.mp hd with hd | hd
        · exact (List.forall_mem_cons.mp (hdone d hd)).2
        · obtain rfl := List.mem_singleton.mp hd
          exact hfile

theorem batchOutputs_eq_ok_iff : batchOutputs folder files = .ok outputs ↔
    Apart folder files ∧ pairings folder files = outputs := by
  simp [batchOutputs, batchOutputsFrom_eq_ok_iff]

/-- If a batch is not refused, a source is written over by the output of a source that gives its name and goes
to its folder. So sources without the extension of outputs are spared, and no source is written over by its own
output unless the outputs go to a folder that was asked for and its path does not end in a name. -/
theorem source_overwritten_iff (h : batchOutputs folder files = .ok outputs) :
    outputs = files.map (fun file => (file, batchOutput folder file)) ∧
    (∀ o ∈ outputs, ∀ source ∈ files, clean o.2 = clean source ↔
      base (clean source) = outputName o.1 ∧ dir (clean source) = outputFolder folder o.1) ∧
    (∀ source ∈ files, (clean source).endsWith outputExt = false → ∀ o ∈ outputs, clean o.2 ≠ clean source) ∧
    ∀ o ∈ outputs, folder = [] ∨ IsName (lastPiece o.1) → clean o.2 ≠ clean o.1 := by
  obtain ⟨-, rfl⟩ := batchOutputs_eq_ok_iff.mp h
  refine ⟨rfl, ?_, ?_, ?_⟩
  · intro o ho source _
    obtain ⟨file, -, rfl⟩ := List.mem_map.mp ho
    exact clean_batchOutput_iff
  · intro source _ hext o ho hsame
    obtain ⟨file, -, rfl⟩ := List.mem_map.mp ho
    rw [endsWith_outputExt hsame] at hext
    cases hext
  · intro o ho
    obtain ⟨file, -, rfl⟩ := List.mem_map.mp ho
    exact clean_batchOutput_ne

/-- The output of `a.c` is another source. -/
theorem source_lost : ∃ outputs, batchOutputs [] ["a.c", "a.z80"] = .ok outputs ∧
    ∃ o ∈ outputs, ∃ source ∈ (["a.c", "a.z80"] : List Text), clean o.2 = clean source :=
  ⟨[("a.c", "a.z80"), ("a.z80", "a.z80.z80")], rfl, ("a.c", "a.z80"), by simp, "a.z80", by simp, rfl⟩

/-- Sources that go to another folder, one of them without an extension. -/
def gatheredFiles : List Text := ["lib/a.c", "./b", "/c.d/e"]

def gatheredOutputs : List (Text × Text) :=
  [("lib/a.c", "out/a.z80"), ("./b", "out/b.z80"), ("/c.d/e", "out/e.z80")]

theorem source_overwritten_iff_gathered : batchOutputs "out/" gatheredFiles = .ok gatheredOutputs ∧
    (∀ source ∈ gatheredFiles, (clean source).endsWith outputExt = false) ∧
    ∀ source ∈ gatheredFiles, ∀ o ∈ gatheredOutputs, clean o.2 ≠ clean source := by
  have houtputs : batchOutputs "out/" gatheredFiles = .ok gatheredOutputs := rfl
  have hext : ∀ source ∈ gatheredFiles, (clean source).endsWith outputExt = false := by decide
  exact ⟨houtputs, hext, fun source hsource =>
    (source_overwritten_iff houtputs).2.2.1 source hsource (hext source hsource)⟩

end Outputs

end Pocket.Command

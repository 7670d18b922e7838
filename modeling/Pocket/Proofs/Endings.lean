import Mathlib
import Pocket.Proofs.Labels
import Pocket.Proofs.ListingRead
import Pocket.Proofs.RawBlocks
import Pocket.Proofs.Rewritten

/-!
# How functions end

No function runs off its end into what is emitted behind it. The last instruction between its label and the next
label, or the footer, leaves the function: it is the last one of the exit code, or a raw body has brought it along.
That the emitted text is read so follows line by line: what is read of a line does not depend on the others.
-/

namespace Pocket

open Asm

namespace Asm

/-! ### The last instruction of some lines -/

/-- The last instruction of some lines. -/
def lastAmong? (ls : List Text) : Option Line :=
  (ls.mapIdx fun i raw => Line.ofText (i + 1) raw).reverse.find? fun line => !line.mnemonic.isEmpty

section LastAmong

variable {ls blanks : List Text} {raw s t : Text}

theorem lastInstruction?_eq (t : Text) : lastInstruction? t = lastAmong? t.lines := rfl

/-- Empty lines at the end carry no instruction. -/
theorem lastAmong?_append_blanks (ls : List Text) (h : ∀ raw ∈ blanks, raw = []) :
    lastAmong? (ls ++ blanks) = lastAmong? ls := by
  have hnone : ((blanks.mapIdx fun i raw => Line.ofText ((i + ls.length : Nat) + 1) raw).reverse.find?
      fun line => !line.mnemonic.isEmpty) = none := by
    rw [List.find?_eq_none]
    intro line hline
    obtain ⟨i, hi, rfl⟩ := List.mem_mapIdx.mp (List.mem_reverse.mp hline)
    rw [h _ (List.getElem_mem hi), read_blank]
    simp
  rw [lastAmong?, List.mapIdx_append, List.reverse_append, List.find?_append, hnone]
  rfl

theorem lastAmong?_concat (ls : List Text) (h : ∀ n, (Line.ofText n raw).mnemonic ≠ []) :
    lastAmong? (ls ++ [raw]) = some (Line.ofText (ls.length + 1) raw) := by
  rw [lastAmong?, List.mapIdx_concat, List.reverse_append, List.reverse_singleton, List.singleton_append,
    List.find?_cons_of_pos (by simpa using h _)]

end LastAmong

/-! ### What stands behind a label -/

/-- What stands behind a label, up to the next label or directive. -/
def Listing.behind (l : Listing) (name : Text) : Listing :=
  (l.dropWhile (· ≠ .label name)).tail.takeWhile fun it => it.kind ≠ .label ∧ it.kind ≠ .directive

theorem Listing.behind_eq {front body back : Listing} {name : Text} (hfront : .label name ∉ front)
    (hbody : ∀ it ∈ body, it.kind ≠ .label ∧ it.kind ≠ .directive)
    (hback : ∀ it ∈ back.head?, it.kind = .label ∨ it.kind = .directive) :
    behind (front ++ .label name :: (body ++ back)) name = body := by
  have hdrop : (front ++ .label name :: (body ++ back)).dropWhile (fun it => decide (it ≠ .label name)) =
      .label name :: (body ++ back) := by
    rw [List.dropWhile_append_of_pos, List.dropWhile_cons_of_neg (by simp)]
    intro it hit
    simpa using fun heq : it = .label name => hfront (heq ▸ hit)
  rw [behind, hdrop, List.tail_cons, List.takeWhile_append_of_pos (by simpa using hbody)]
  cases back with
  | nil => simp
  | cons it back =>
    rw [List.takeWhile_cons_of_neg, List.append_nil]
    rcases hback it rfl with hkind | hkind <;> simp [hkind]

theorem mem_of_mem_operands {t a : Text} {b : UInt8} (ha : a ∈ operands t) (hb : b ∈ a) : b ∈ t := by
  rw [operands_eq] at ha
  split at ha
  · cases ha
  · obtain ⟨piece, hpiece, rfl⟩ := List.mem_map.mp ha
    have hjoin : b ∈ Text.join "," ((Nesting.code 0).pieces t) :=
      Text.mem_join_of_mem hpiece (Text.trim_subset piece hb)
    rwa [join_pieces] at hjoin

end Asm

/-! ### Items that leave a function -/

/-- A profile that can end every function: a return leaves it, and so does the last line of the exit sequence,
an ASCII text that is read, like all of them, as an indented line. -/
structure Profile.Leaving (p : Profile) : Prop where
  ret : p.ret = "ret"
  transfers : ("ret" : Text) ∈ p.transfers
  exit : ∃ init last, p.exit = init ++ [last] ∧ last.Ascii ∧ last.OneLine ∧
    (Line.ofText 0 (indent ++ last)).mnemonic ≠ [] ∧
    p.isTransfer (Line.ofText 0 (indent ++ last)).mnemonic (Line.ofText 0 (indent ++ last)).operands.length = true

/-- An item of one line that is read as an instruction that leaves the function. -/
structure Asm.Item.Leaves (p : Profile) (it : Item) : Prop where
  oneLine : it.render.OneLine
  mnemonic : ∀ n, (Line.ofText n it.render).mnemonic ≠ []
  transfer : ∀ n, p.isTransfer (Line.ofText n it.render).mnemonic (Line.ofText n it.render).operands.length = true

section Leaves

variable {p : Profile} {d : Decl} {name text t : Text}

theorem Profile.leaves_iff : p.leaves text = true ↔ ∃ line, lastInstruction? text = some line ∧
    p.isTransfer line.mnemonic line.operands.length = true := by
  unfold Profile.leaves
  cases lastInstruction? text <;> simp

theorem oneLine_exitItem (hascii : t.Ascii) (hline : t.OneLine) : (Profile.exitItem t).render.OneLine := by
  obtain ⟨labels, r, hr, hsub, hread⟩ := ofText_stripped 0 hascii
  rw [Profile.exitItem, hread]
  dsimp only
  unfold instructionOn
  split
  · exact (by decide : Text.OneLine indent)
  · obtain ⟨op, s, parens, hdivided⟩ := exists_divided r
    have hlower : op.toLower = op.map lowerByte := toLower_eq_map fun b hb => hr.ascii b (hdivided.subset.1 hb)
    rw [hdivided.instruction, hlower]
    refine oneLine_instr parens ?_ fun a ha hmem => ?_
    · exact fun hmem => hline (hsub (hdivided.subset.1 ((mem_lower (by decide)).mp hmem)))
    · exact hline (hsub (hdivided.subset.2 (mem_of_mem_operands ha hmem)))

theorem leaves_exitItem (hascii : t.Ascii) (honeLine : t.OneLine) {line : Line}
    (hline : line = Line.ofText 0 (indent ++ t)) (hmnemonic : line.mnemonic ≠ [])
    (htransfer : p.isTransfer line.mnemonic line.operands.length = true) : (Profile.exitItem t).Leaves p := by
  have hitem : Profile.exitItem t = .instr line.parens line.mnemonic line.operands := by rw [hline]; rfl
  have hread := ofText_rewritten hascii 0 hline
  refine ⟨oneLine_exitItem hascii honeLine, fun n => ?_, fun n => ?_⟩
  · rw [hitem, hread]
    exact hmnemonic
  · rw [hitem, hread]
    exact htransfer

theorem read_ret (n : Int) : Line.ofText n (Item.instr false "ret" []).render = ⟨n, [], "ret", [], false⟩ := rfl

theorem leaves_ret (h : ("ret" : Text) ∈ p.transfers) : (Item.instr false "ret" []).Leaves p := by
  have hlower : Text.toLower "ret" = "ret" := by decide
  have hlisted : (p.transfers.any fun t => t.toLower = Text.toLower "ret") = true :=
    List.any_eq_true.mpr ⟨"ret", h, by simp⟩
  refine ⟨by decide, fun n => ?_, fun n => ?_⟩
  · rw [read_ret]
    exact List.cons_ne_nil _ _
  · rw [read_ret, Profile.isTransfer, if_pos hlisted, hlower]
    rfl

/-- The exit code of a function ends with an instruction that leaves it. -/
theorem Profile.Leaving.exitCode (h : p.Leaving) (name : Text) :
    ∃ (init : Listing) (it : Item), p.exitCode name = init ++ [it] ∧ it.Leaves p := by
  unfold Profile.exitCode
  split
  · obtain ⟨init, last, hexit, hascii, hline, hmnemonic, htransfer⟩ := h.exit
    exact ⟨init.map Profile.exitItem, Profile.exitItem last, by rw [hexit, List.map_append]; rfl,
      leaves_exitItem hascii hline rfl hmnemonic htransfer⟩
  · exact ⟨[], _, rfl, by rw [h.ret]; exact leaves_ret h.transfers⟩

theorem Decl.bodyCode_of_leaves (hraw : d.raw? = some text) (hleaves : p.leaves text = true) :
    d.bodyCode p = [.raw d.name text] := by
  cases hb : d.body with
  | stmts ss => simp [Decl.raw?, hb] at hraw
  | asm body pos =>
    obtain rfl : body = text := by simpa [Decl.raw?, hb] using hraw
    simp [Decl.bodyCode, hb, hleaves]

/-- A body ends with an instruction that leaves the function, unless it is a raw text that does so itself. -/
theorem Profile.Leaving.bodyCode (h : p.Leaving) (d : Decl) :
    (∃ (init : Listing) (it : Item), d.bodyCode p = init ++ [it] ∧ it.Leaves p) ∨
      ∃ text, d.raw? = some text ∧ p.leaves text = true := by
  obtain ⟨init, it, hexit, hit⟩ := h.exitCode d.name
  unfold Decl.bodyCode Decl.raw?
  cases d.body with
  | stmts ss => exact .inl ⟨ss.flatMap (Stmt.code p) ++ init, it, by simp [hexit], hit⟩
  | asm text pos =>
    by_cases hleaves : p.leaves text = true
    · exact .inr ⟨text, rfl, hleaves⟩
    · exact .inl ⟨.raw d.name text :: init, it, by simp [hleaves, hexit], hit⟩

theorem kind_of_mem_bodyCode {it : Item} (h : it ∈ d.bodyCode p) : it.kind ≠ .label ∧ it.kind ≠ .directive := by
  have hexit : ∀ it ∈ p.exitCode d.name, it.kind ≠ .label ∧ it.kind ≠ .directive := by
    intro it hit
    simp [Program.kind_of_mem_exitCode hit]
  unfold Decl.bodyCode at h
  split at h
  · rcases List.mem_append.mp h with hit | hit
    · obtain ⟨s, -, hit⟩ := List.mem_flatMap.mp hit
      rcases Program.kind_of_mem_stmtCode hit with hkind | hkind <;> simp [hkind]
    · exact hexit it hit
  · rcases List.mem_cons.mp h with rfl | hit
    · simp [Item.raw]
    · split at hit
      · cases hit
      · exact hexit it hit

end Leaves

/-! ### Functions in a listing -/

/-- What is emitted behind the code of a function: the footer, or another function. -/
def Follows (p : Profile) (prog : Program) (back : Listing) : Prop :=
  back = p.footer.map .directive ∨ ∃ e ∈ prog.emitted p, ∃ more, back = .label (p.label e.name) :: more

theorem Follows.head {p : Profile} {prog : Program} {back : Listing} (h : Follows p prog back) :
    ∀ it ∈ back.head?, it.kind = .label ∨ it.kind = .directive := by
  intro it hit
  rcases h with rfl | ⟨e, -, more, rfl⟩
  · obtain ⟨line, -, rfl⟩ := List.mem_map.mp (List.mem_of_mem_head? hit)
    exact .inr rfl
  · cases hit
    exact .inl rfl

section Placed

variable {p : Profile} {prog : Program} {l gap : Listing} {d : Decl} {text : Text}

/-- Behind the code of a function stands at most a blank line before the next function or the footer. -/
theorem Program.Checked.placed (h : prog.Checked p) (hl : prog.listing p = .ok l) (hd : d ∈ prog.emitted p) :
    ∃ front gap back : Listing, l = front ++ .label (p.label d.name) :: (d.bodyCode p ++ gap ++ back) ∧
      .label (p.label d.name) ∉ front ∧ (∀ it ∈ gap, it = .blank) ∧ Follows p prog back := by
  have hnodup := h.labels_nodup hl
  rw [h.listing_eq] at hl
  cases hl
  obtain ⟨before, after, hsplit⟩ := List.append_of_mem hd
  -- Either another function follows or the footer does, each behind a blank line at most.
  have hrest : ∃ gap back : Listing, (after.flatMap fun e => .blank :: e.code p) ++ trailer p = gap ++ back ∧
      (∀ it ∈ gap, it = .blank) ∧ Follows p prog back := by
    cases after with
    | nil =>
      refine ⟨if p.footer.isEmpty then [] else [.blank], p.footer.map .directive, rfl, ?_, .inl rfl⟩
      split <;> simp
    | cons e after =>
      exact ⟨[.blank], _, by rw [List.flatMap_cons, List.append_assoc, List.cons_append]; rfl, by simp,
        .inr ⟨e, by simp [hsplit], _, rfl⟩⟩
  obtain ⟨gap, back, hgap, hblank, hfollows⟩ := hrest
  have hlisting : p.header.map .directive ++ prog.blocks p ++ trailer p =
      p.header.map .directive ++ (before.flatMap fun e => .blank :: e.code p) ++ [.blank] ++
        .label (p.label d.name) :: (d.bodyCode p ++ gap ++ back) := by
    rw [blocks, hsplit]
    simp [Decl.code, ← hgap]
  -- The label is not found earlier, because labels are distinct.
  refine ⟨_, gap, back, hlisting, fun hmem => ?_, hblank, hfollows⟩
  rw [hlisting, Listing.labels_append, Listing.labels_cons_label] at hnodup
  refine (List.nodup_append.mp hnodup).2.2 (p.label d.name) ?_ _ List.mem_cons_self rfl
  exact List.mem_map.mpr ⟨_, List.mem_filter.mpr ⟨hmem, rfl⟩, rfl⟩

/-- The last line of some items that leaves is read behind them. -/
theorem leaves_of_last {init : Listing} {it : Item} (hit : it.Leaves p) (hgap : ∀ it ∈ gap, it = .blank) :
    ∃ line, lastInstruction? ((init ++ [it] ++ gap).flatMap Item.line) = some line ∧
      p.isTransfer line.mnemonic line.operands.length = true := by
  have hblanks : ∀ raw ∈ (gap.flatMap fun it => it.render.lines) ++ [[]], raw = [] := by
    intro raw hraw
    rcases List.mem_append.mp hraw with hraw | hraw
    · obtain ⟨it, hit, hraw⟩ := List.mem_flatMap.mp hraw
      rw [hgap it hit] at hraw
      exact List.mem_singleton.mp hraw
    · exact List.mem_singleton.mp hraw
  have hlines : Text.lines ((init ++ [it] ++ gap).flatMap Item.line) =
      (init.flatMap fun it => it.render.lines) ++ [it.render] ++
        ((gap.flatMap fun it => it.render.lines) ++ [[]]) := by
    rw [lines_flatMap_line, List.flatMap_append, List.flatMap_append, List.flatMap_singleton, hit.oneLine.lines,
      List.append_assoc]
  rw [lastInstruction?_eq, hlines, lastAmong?_append_blanks _ hblanks, lastAmong?_concat _ hit.mnemonic]
  exact ⟨_, rfl, hit.transfer _⟩

/-- A raw text is written with nothing but newlines behind it. -/
theorem raw_written (name text : Text) (hgap : ∀ it ∈ gap, it = .blank) :
    ∃ n, (Item.raw name text :: gap).flatMap Item.line = text ++ List.replicate n newline := by
  have hnewlines : gap.flatMap Item.line = List.replicate gap.length newline := by
    induction gap with
    | nil => rfl
    | cons it gap ih =>
      obtain ⟨rfl, hrest⟩ := List.forall_mem_cons.mp hgap
      rw [List.flatMap_cons, ih hrest]
      rfl
  have hline : (Item.raw name text).line = text.dropEnding "\n" ++ "\n" := rfl
  rw [List.flatMap_cons, hline, hnewlines]
  cases hend : text.endsWith "\n" with
  | true => exact ⟨gap.length, by rw [Text.dropEnding_append hend]⟩
  | false => exact ⟨gap.length + 1, by rw [Text.dropEnding_of_not hend, List.append_assoc]; rfl⟩

theorem lastInstruction?_newlines (text : Text) (n : Nat) :
    lastInstruction? (text ++ List.replicate n newline) = lastInstruction? text := by
  have hempty : ∀ raw ∈ Text.lines [], raw = [] := by simp [Text.lines, Text.split]
  induction n with
  | zero => rw [List.replicate_zero, List.append_nil]
  | succ n ih =>
    rw [List.replicate_succ', ← List.append_assoc, lastInstruction?_eq, lines_newline_between,
      lastAmong?_append_blanks _ hempty, ← ih]
    rfl

end Placed

/-! ### Endings -/

/-- The emitted text between a label and the next label or the footer. -/
def Output.behind (o : Output) (label : Text) : Text :=
  (o.listing.behind label).flatMap Item.line

/-- How the code of a function ends in an output. -/
structure EndsInTransfer (p : Profile) (o : Output) (d : Decl) : Prop where
  placed : ∃ front back : Listing, .label (p.label d.name) ∉ front ∧ Follows p o.program back ∧
    o.listing = front ++ .label (p.label d.name) :: (o.listing.behind (p.label d.name) ++ back) ∧
    o.text = front.flatMap Item.line ++ (Item.label (p.label d.name)).line ++ o.behind (p.label d.name) ++
      back.flatMap Item.line
  leaves : ∃ line, lastInstruction? (o.behind (p.label d.name)) = some line ∧
    p.isTransfer line.mnemonic line.operands.length = true
  unchanged : ∀ text, d.raw? = some text → p.leaves text = true →
    ∃ n, o.behind (p.label d.name) = text ++ List.replicate n newline

/-- In the output for a profile that can end every function, no function runs off its end. -/
theorem functions_end_in_transfer (p : Profile) (source : Text) (o : Output) (h : compile p source = .ok o)
    (hp : p.Leaving) : ∀ d ∈ o.program.emitted p, EndsInTransfer p o d := by
  intro d hd
  obtain ⟨-, ts, -, hprog, hl, hemission⟩ := compile_eq_ok_iff.mp h
  obtain ⟨front, gap, back, hlisting, hfront, hgap, hfollows⟩ := (Program.checked_of_ofTokens hprog).placed hl hd
  have hbehind : o.listing.behind (p.label d.name) = d.bodyCode p ++ gap := by
    rw [hlisting]
    refine Listing.behind_eq hfront (fun it hit => ?_) hfollows.head
    rcases List.mem_append.mp hit with hit | hit
    · exact kind_of_mem_bodyCode hit
    · simp [hgap it hit, Item.blank]
  have htext : o.behind (p.label d.name) = (d.bodyCode p ++ gap).flatMap Item.line := by
    rw [Output.behind, hbehind]
  refine ⟨⟨front, back, hfront, hfollows, by rw [hbehind, hlisting], ?_⟩, ?_, ?_⟩
  · rw [Output.text, hemission, Listing.emit_written, hlisting, htext]
    simp
  · rw [htext]
    -- The last item leaves the function, or the raw text that stands in its place does.
    rcases hp.bodyCode d with ⟨init, it, hbody, hit⟩ | ⟨text, hraw, hleaves⟩
    · rw [hbody]
      exact leaves_of_last hit hgap
    · obtain ⟨n, hn⟩ := raw_written d.name text hgap
      rw [Decl.bodyCode_of_leaves hraw hleaves, List.singleton_append, hn, lastInstruction?_newlines]
      exact Profile.leaves_iff.mp hleaves
  · intro text hraw hleaves
    rw [htext, Decl.bodyCode_of_leaves hraw hleaves]
    exact raw_written d.name text hgap

/-- The exit sequence ends in a jump in upper case, with a label in front of it and a comment behind. -/
def jumpingProfile : Profile :=
  { sampleProfile with exit := ["res 1, (iy)", "quit: JP\tdone ; bye"] }

theorem functions_end_in_transfer_jump : jumpingProfile.Leaving ∧
    ∃ o, compile jumpingProfile sampleSource = .ok o ∧ ∀ d ∈ o.program.emitted jumpingProfile,
      EndsInTransfer jumpingProfile o d := by
  have hleaving : jumpingProfile.Leaving :=
    ⟨rfl, by decide, ["res 1, (iy)"], "quit: JP\tdone ; bye", rfl, by decide +kernel, by decide,
      by decide +kernel, by decide +kernel⟩
  have hread : (sampleSource.lex.toOption.any fun ts =>
      (Program.ofTokens jumpingProfile ts).toOption.isSome) = true := by cbv
  obtain ⟨ts, hlex, hsome⟩ := (Option.any_eq_true _ _).mp hread
  obtain ⟨prog, hprog⟩ := Option.isSome_iff_exists.mp hsome
  have hflaw : jumpingProfile.flaw? = none := sampleProfile_flaw
  obtain ⟨o, hcompile, -⟩ := exists_compile_eq_ok hflaw (eq_ok_of_toOption hlex) (eq_ok_of_toOption hprog)
  exact ⟨hleaving, o, hcompile, functions_end_in_transfer jumpingProfile sampleSource o hcompile hleaving⟩

end Pocket

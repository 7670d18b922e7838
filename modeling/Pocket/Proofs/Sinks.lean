import Mathlib
import Pocket.Proofs.Compiled
import Pocket.Proofs.Emission

/-!
# Sinks of limited room

A sink with room for some bytes takes as many of whatever is written to it, in one piece or in many. So
a listing that is written item by item and its text that is written at once end at the same byte, and
both fail exactly if the text is longer than the room.
-/

namespace Pocket

namespace Asm

/-- A sink that takes `k` bytes and refuses what goes beyond them. -/
def Sink.limited (k : Nat) : Sink := ⟨some k, false, []⟩

/-- A sink that takes `k` bytes and drops what goes beyond them without a word. -/
def Sink.dropping (k : Nat) : Sink := ⟨some k, true, []⟩

/-- What one write leaves of a sink with room for `k` bytes, and what it reports. -/
structure Sink.Took (s : Sink) (k : Nat) (t : Text) (out : Sink × Nat × Bool) : Prop where
  written : out.1.written = s.written ++ t.take k
  room : out.1.room = some (k - t.length)
  silent : out.1.silent = s.silent
  taken : out.2.1 = min k t.length
  refused : out.2.2 = (decide (k < t.length) && !s.silent)

theorem Sink.took_write {s : Sink} {k : Nat} (h : s.room = some k) (t : Text) :
    s.Took k t (s.write t) := by
  have htake : t.take (min t.length k) = t.take k := by
    rw [Nat.min_comm, ← List.take_eq_take_min]
  have hroom : k - min t.length k = k - t.length := by omega
  have hshort : decide (min t.length k < t.length) = decide (k < t.length) := by
    rw [decide_eq_decide]
    omega
  unfold Sink.write
  simp only [h]
  exact ⟨by rw [htake], by rw [hroom], rfl, Nat.min_comm _ _, by rw [hshort]⟩

namespace Emission

variable {e : Emission} {k : Nat} {t : Text}

/-! ### What arrives -/

/-- A text was offered, in whatever pieces, to a sink with room for `k` bytes at first. -/
structure Offered (k : Nat) (t : Text) (e : Emission) : Prop where
  written : e.sink.written = t.take k
  room : e.sink.room = some (k - t.length)
  silent : e.sink.silent = false
  size : e.size = min k t.length
  refused : e.refused = decide (k < t.length)

theorem offered_start (k : Nat) : (Emission.start (.limited k)).Offered k [] :=
  ⟨by simp [start, Sink.limited], rfl, rfl, by simp [start], by simp [start]⟩

/-- A sink that refused before takes nothing more. -/
theorem Offered.write_full (h : e.Offered k t) (hfull : k < t.length) (u : Text) :
    (e.write u).Offered k (t ++ u) := by
  have hsame : e.write u = e := by
    rw [Emission.write, if_pos (by rw [h.refused, decide_eq_true hfull])]
  rw [hsame]
  refine ⟨?_, ?_, h.silent, ?_, ?_⟩
  · rw [h.written, List.take_append_of_le_length (Nat.le_of_lt hfull)]
  · rw [h.room, List.length_append, Nat.sub_eq_zero_of_le (Nat.le_of_lt hfull),
      Nat.sub_eq_zero_of_le (by omega)]
  · rw [h.size, List.length_append]
    omega
  · rw [h.refused, List.length_append, decide_eq_decide]
    omega

theorem Offered.write_open (h : e.Offered k t) (hopen : t.length ≤ k) (u : Text) :
    (e.write u).Offered k (t ++ u) := by
  have hwrite : e.write u = { e with
      sink := (e.sink.write u).1
      size := e.size + (e.sink.write u).2.1
      refused := (e.sink.write u).2.2 } := by
    rw [Emission.write, if_neg (by simp [h.refused, hopen])]
  have htook := Sink.took_write h.room u
  rw [hwrite]
  refine ⟨?_, ?_, htook.silent.trans h.silent, ?_, ?_⟩
  · rw [htook.written, h.written, List.take_append]
  · rw [htook.room, List.length_append, Nat.sub_sub]
  · rw [h.size, List.length_append]
    dsimp only
    rw [htook.taken]
    omega
  · rw [htook.refused, h.silent, List.length_append, Bool.not_false, Bool.and_true, decide_eq_decide]
    omega

theorem Offered.write (h : e.Offered k t) (u : Text) : (e.write u).Offered k (t ++ u) := by
  rcases Nat.lt_or_ge k t.length with hfull | hopen
  · exact h.write_full hfull u
  · exact h.write_open hopen u

/-- Recording a span changes nothing about what arrives. -/
theorem Offered.record (h : e.Offered k t) (blocks : List (Text × Span)) :
    { e with blocks }.Offered k t :=
  ⟨h.written, h.room, h.silent, h.size, h.refused⟩

/-- The pieces that an item is written in make up its line. -/
theorem Offered.item (h : e.Offered k t) (it : Item) : (e.item it).Offered k (t ++ it.line) := by
  obtain ⟨kind, text, op, args, parens, owner⟩ := it
  by_cases hkind : kind = .raw
  · subst hkind
    have hbody := (h.write text).record ((owner, ⟨e.size, e.size + text.length⟩) :: e.blocks)
    cases hend : text.endsWith "\n" with
    | true =>
      have hline : Item.line ⟨.raw, text, op, args, parens, owner⟩ = text := Text.dropEnding_append hend
      rw [hline]
      simpa [Emission.item, hend] using hbody
    | false =>
      have hline : Item.line ⟨.raw, text, op, args, parens, owner⟩ = text ++ "\n" :=
        congrArg (· ++ _) (Text.dropEnding_of_not hend)
      rw [hline, ← List.append_assoc]
      simpa [Emission.item, hend] using hbody.write "\n"
  · have hitem : e.item ⟨kind, text, op, args, parens, owner⟩ =
        (e.write (Item.render ⟨kind, text, op, args, parens, owner⟩)).write "\n" := by
      cases kind <;> first | rfl | exact absurd rfl hkind
    rw [hitem, Item.line, ← List.append_assoc]
    exact (h.write _).write "\n"

theorem Offered.items (h : e.Offered k t) (l : Listing) :
    (l.foldl Emission.item e).Offered k (t ++ l.flatMap Item.line) := by
  induction l generalizing e t with
  | nil => simpa using h
  | cons it l ih =>
    rw [List.foldl_cons, List.flatMap_cons, ← List.append_assoc]
    exact ih (h.item it)

end Emission

/-! ### Where raw blocks lie -/

namespace Listing

/-- The items of a listing as they are written, one after the other. -/
def text (l : Listing) : Text :=
  l.flatMap Item.line

/-- The raw blocks of a listing. -/
def raws (l : Listing) : List Item :=
  l.filter (·.kind == .raw)

/-- The spans of the raw blocks of a listing that is written behind `n` bytes. -/
def spansFrom : Nat → Listing → List Span
  | _, [] => []
  | n, it :: l =>
    let more := spansFrom (n + it.line.length) l
    if it.kind = .raw then ⟨n, n + it.text.length⟩ :: more else more

theorem raws_cons_raw {it : Item} (h : it.kind = .raw) (l : Listing) :
    Listing.raws (it :: l) = it :: l.raws :=
  List.filter_cons_of_pos (by simp [h])

theorem raws_cons_other {it : Item} (h : it.kind ≠ .raw) (l : Listing) :
    Listing.raws (it :: l) = l.raws :=
  List.filter_cons_of_neg (by simp [h])

theorem spansFrom_raw {it : Item} (h : it.kind = .raw) (n : Nat) (l : Listing) :
    spansFrom n (it :: l) = ⟨n, n + it.text.length⟩ :: spansFrom (n + it.line.length) l := by
  rw [spansFrom, if_pos h]

theorem spansFrom_other {it : Item} (h : it.kind ≠ .raw) (n : Nat) (l : Listing) :
    spansFrom n (it :: l) = spansFrom (n + it.line.length) l := by
  rw [spansFrom, if_neg h]

theorem line_of_raw {it : Item} (h : it.kind = .raw) : ∃ rest, it.line = it.text ++ rest := by
  obtain ⟨kind, text, op, args, parens, owner⟩ := it
  obtain rfl : kind = .raw := h
  exact Item.line_raw owner text

theorem le_spansFrom (n : Nat) (l : Listing) : ∀ s ∈ spansFrom n l, n ≤ s.first := by
  induction l generalizing n with
  | nil => simp [spansFrom]
  | cons it l ih =>
    have hrest : ∀ s ∈ spansFrom (n + it.line.length) l, n ≤ s.first := fun s hs =>
      Nat.le_trans (Nat.le_add_right n _) (ih _ s hs)
    by_cases hraw : it.kind = .raw
    · rw [spansFrom_raw hraw]
      exact List.forall_mem_cons.mpr ⟨Nat.le_refl n, hrest⟩
    · rw [spansFrom_other hraw]
      exact hrest

/-- The spans come one after the other. -/
theorem spansFrom_pairwise (n : Nat) (l : Listing) :
    (spansFrom n l).Pairwise fun s t => s.last ≤ t.first := by
  induction l generalizing n with
  | nil => exact .nil
  | cons it l ih =>
    by_cases hraw : it.kind = .raw
    · obtain ⟨rest, hline⟩ := line_of_raw hraw
      have hlength : it.line.length = it.text.length + rest.length := by
        rw [hline, List.length_append]
      rw [spansFrom_raw hraw]
      refine .cons (fun s hs => ?_) (ih _)
      have hfirst := le_spansFrom _ l s hs
      dsimp only
      omega
    · rw [spansFrom_other hraw]
      exact ih _

/-- A span of a text that covers the bytes of an item. -/
structure Covers (whole : Text) (it : Item) (s : Span) : Prop where
  order : s.first ≤ s.last
  inside : s.last ≤ whole.length
  text : whole.extract s.first s.last = it.text

theorem covers_at (before after : Text) (it : Item) :
    Covers (before ++ (it.text ++ after)) it ⟨before.length, before.length + it.text.length⟩ := by
  refine ⟨Nat.le_add_right _ _, ?_, ?_⟩
  · simp only [List.length_append]
    omega
  · rw [List.extract_eq_take_drop, List.drop_left, Nat.add_sub_cancel_left, List.take_left]

theorem spansFrom_covers (before : Text) (l : Listing) :
    List.Forall₂ (Covers (before ++ l.text)) l.raws (spansFrom before.length l) := by
  induction l generalizing before with
  | nil => exact .nil
  | cons it l ih =>
    have hrest := ih (before ++ it.line)
    have htext : before ++ it.line ++ text l = before ++ text (it :: l) := by
      rw [text, text, List.flatMap_cons, List.append_assoc]
    rw [htext, List.length_append] at hrest
    by_cases hraw : it.kind = .raw
    · obtain ⟨rest, hline⟩ := line_of_raw hraw
      rw [raws_cons_raw hraw, spansFrom_raw hraw]
      refine .cons ?_ hrest
      have hhere := covers_at before (rest ++ text l) it
      rwa [← List.append_assoc it.text, ← hline, ← List.append_assoc before, htext] at hhere
    · rw [raws_cons_other hraw, spansFrom_other hraw]
      exact hrest

end Listing

/-- As long as there is room, every owner is given the span where its block went. -/
theorem Emission.Offered.spans {e : Emission} {k : Nat} {t : Text} {l : Listing} (h : e.Offered k t)
    (hroom : (t ++ l.text).length ≤ k) (howners : (l.raws.map (·.owner)).Nodup) :
    l.raws.map (fun it => (l.foldl Emission.item e).span? it.owner) =
      (l.spansFrom t.length).map some := by
  induction l generalizing e t with
  | nil => rfl
  | cons it l ih =>
    have htext : t ++ it.line ++ Listing.text l = t ++ Listing.text (it :: l) := by
      rw [Listing.text, Listing.text, List.flatMap_cons, List.append_assoc]
    have hrest := ih (h.item it) (htext ▸ hroom)
    rw [List.length_append] at hrest
    by_cases hraw : it.kind = .raw
    · rw [Listing.raws_cons_raw hraw, List.map_cons, List.nodup_cons] at howners
      obtain ⟨hfresh, howners⟩ := howners
      -- No later block has the same owner, so that the span is not replaced.
      have hothers : ∀ it' ∈ l, it'.kind = .raw → it'.owner ≠ it.owner := by
        intro it' hit' hraw' hsame
        refine hfresh (List.mem_map.mpr ⟨it', List.mem_filter.mpr ⟨hit', by simp [hraw']⟩, hsame⟩)
      -- So far everything has found room, so the size is the place where the block goes.
      have hsize : e.size = t.length := by
        rw [List.length_append] at hroom
        rw [h.size]
        omega
      have hhere : (l.foldl Emission.item (e.item it)).span? it.owner =
          some ⟨t.length, t.length + it.text.length⟩ := by
        rw [span?_items hothers, span?, item_blocks, if_pos hraw, hsize]
        exact List.lookup_cons_self
      rw [Listing.raws_cons_raw hraw, Listing.spansFrom_raw hraw, List.map_cons, List.map_cons,
        List.foldl_cons, hhere, hrest howners]
    · rw [Listing.raws_cons_other hraw] at howners ⊢
      rw [Listing.spansFrom_other hraw, List.foldl_cons, hrest howners]

theorem Listing.offered_emit (l : Listing) (k : Nat) : (l.emit (.limited k)).Offered k l.text :=
  (Emission.offered_start k).items l

end Asm

open Asm

namespace Output

variable {o : Output} {k : Nat}

/-- What came of writing an output to a sink: nothing went wrong if there was room for the whole text, and
the sink failed otherwise. -/
def FailsBeyond (o : Output) (k : Nat) (failure : Option Fault) : Prop :=
  (o.text.length ≤ k → failure = none) ∧
    (k < o.text.length → ∃ cause, failure = some (.emit cause))

theorem text_eq (ho : o.emission = o.listing.emit .unlimited) : o.text = o.listing.text := by
  rw [text, ho, Listing.emit_written]
  rfl

theorem writeTo_fails {sink : Sink} (h : sink.room = some k) :
    o.FailsBeyond k (o.writeTo sink).2.2 := by
  have htook := Sink.took_write h o.text
  have hfailure : (o.writeTo sink).2.2 =
      if (sink.write o.text).2.2 then some (.emit (.refused Sink.refusal))
      else if (sink.write o.text).2.1 < o.text.length then some (.emit .shortWrite) else none := rfl
  rw [hfailure, htook.refused, htook.taken]
  constructor
  · intro hroom
    rw [if_neg (by simp [hroom]), if_neg (by omega)]
  · intro hshort
    split
    · exact ⟨_, rfl⟩
    · rw [if_pos (by omega)]
      exact ⟨_, rfl⟩

end Output

/-- A listing that is written to a sink with room for `k` bytes arrives up to its `k`-th byte, and it is
refused exactly if it is longer. If it is not, and no two raw blocks have one owner, the recorded spans
come one after the other and cover the bytes of the blocks. An output that is written at once arrives up
to the same byte and is refused in the same cases; it fails in these cases, too, if the sink refuses
nothing but takes less. -/
theorem emission_exact :
    (∀ (l : Listing) (k : Nat),
      (l.emit (.limited k)).sink.written = l.text.take k ∧
      (l.emit (.limited k)).size = min k l.text.length ∧
      ((l.emit (.limited k)).refused = true ↔ k < l.text.length) ∧
      ((l.emit (.limited k)).refused = false → (l.raws.map (·.owner)).Nodup →
        ∃ spans, l.raws.map (fun it => (l.emit (.limited k)).span? it.owner) = spans.map some ∧
          spans.Pairwise (fun s t => s.last ≤ t.first) ∧
          List.Forall₂ (Listing.Covers l.text) l.raws spans)) ∧
    ∀ (p : Profile) (source : Text) (o : Output), compile p source = .ok o → ∀ k,
      (o.writeTo (.limited k)).1.written = (o.listing.emit (.limited k)).sink.written ∧
      (o.writeTo (.limited k)).2.1 = (o.listing.emit (.limited k)).size ∧
      o.FailsBeyond k (o.writeTo (.limited k)).2.2 ∧
      o.FailsBeyond k (o.writeTo (.dropping k)).2.2 := by
  constructor
  · intro l k
    have h := l.offered_emit k
    refine ⟨h.written, h.size, by rw [h.refused, decide_eq_true_iff], fun hroom howners => ?_⟩
    have hroom : l.text.length ≤ k := by simpa [h.refused] using hroom
    exact ⟨l.spansFrom 0, (Emission.offered_start k).spans hroom howners, l.spansFrom_pairwise 0,
      l.spansFrom_covers []⟩
  · intro p source o ho k
    obtain ⟨-, -, -, -, -, hemission⟩ := compile_eq_ok_iff.mp ho
    have h := o.listing.offered_emit k
    -- An output is written at once, so the sink takes the same bytes in one piece.
    have htook := Sink.took_write (s := .limited k) rfl o.text
    have htext := Output.text_eq hemission
    refine ⟨?_, ?_, Output.writeTo_fails rfl, Output.writeTo_fails rfl⟩
    · rw [h.written, ← htext]
      exact htook.written
    · rw [h.size, ← htext]
      exact htook.taken

/-- Two raw blocks, one with a newline at its end, and an empty line between them. -/
def twoBlocks : Listing := [.raw "f" "a\n", .blank, .raw "g" "b"]

theorem emission_exact_sample :
    (((twoBlocks.emit (.limited 5)).refused = false ∧ (twoBlocks.raws.map (·.owner)).Nodup) ∧
      ∃ spans, twoBlocks.raws.map (fun it => (twoBlocks.emit (.limited 5)).span? it.owner) =
          spans.map some ∧
        List.Forall₂ (Listing.Covers twoBlocks.text) twoBlocks.raws spans) ∧
    ∃ o, compile sampleProfile sampleSource = .ok o ∧
      (o.writeTo (.limited 3)).1.written = (o.listing.emit (.limited 3)).sink.written ∧
      o.FailsBeyond 3 (o.writeTo (.dropping 3)).2.2 := by
  obtain ⟨hlisting, houtput⟩ := emission_exact
  have hroom : (twoBlocks.emit (.limited 5)).refused = false := by decide
  have howners : (twoBlocks.raws.map (·.owner)).Nodup := by decide
  obtain ⟨-, -, -, hspans⟩ := hlisting twoBlocks 5
  obtain ⟨spans, hfound, -, hcovers⟩ := hspans hroom howners
  obtain ⟨ts, prog, hlex, hprog⟩ := sample_read
  obtain ⟨o, ho, -⟩ := exists_compile_eq_ok sampleProfile_flaw hlex hprog
  obtain ⟨hwritten, -, -, hdropping⟩ := houtput sampleProfile sampleSource o ho 3
  exact ⟨⟨⟨hroom, howners⟩, spans, hfound, hcovers⟩, o, ho, hwritten, hdropping⟩

end Pocket

import Pocket.Output

/-!
# The written text

An unlimited sink takes the lines of all items one after the other, and the span of a raw block is
where its bytes went.
-/

namespace Pocket

open Asm

theorem Text.after?_eq_some_iff {start t rest : Text} :
    Text.after? start t = some rest ↔ t = start ++ rest := by
  induction start generalizing t with
  | nil => simp [Text.after?, eq_comm]
  | cons b start ih =>
    cases t with
    | nil => simp [Text.after?]
    | cons c t =>
      by_cases hbc : b = c
      · simp [Text.after?, hbc, ih]
      · simp [Text.after?, hbc, Ne.symm hbc]

/-- A text that ends in some bytes is the same without them and with them put back. -/
theorem Text.dropEnding_append {t tail : Text} (h : t.endsWith tail = true) :
    t.dropEnding tail ++ tail = t := by
  obtain ⟨rest, hrest⟩ := Option.isSome_iff_exists.mp h
  have ht : t = rest.reverse ++ tail := by
    have hrev := Text.after?_eq_some_iff.mp hrest
    rw [← List.reverse_reverse t, hrev, List.reverse_append, List.reverse_reverse]
  simp only [Text.dropEnding, hrest]
  exact ht.symm

theorem Text.dropEnding_of_not {t tail : Text} (h : t.endsWith tail = false) :
    t.dropEnding tail = t := by
  have hnone : Text.after? tail.reverse t.reverse = none := by
    simpa [Text.endsWith, Text.startsWith] using h
  simp only [Text.dropEnding, hnone]

namespace Asm

/-- An item as it is written, with the newline that ends it. -/
def Item.line (it : Item) : Text :=
  it.render ++ "\n"

/-- The line of a raw block begins with its bytes. -/
theorem Item.line_raw (owner text : Text) : ∃ rest, (Item.raw owner text).line = text ++ rest := by
  have hline : (Item.raw owner text).line = text.dropEnding "\n" ++ "\n" := rfl
  cases hend : text.endsWith "\n" with
  | true => exact ⟨[], by rw [hline, Text.dropEnding_append hend, List.append_nil]⟩
  | false => exact ⟨"\n", by rw [hline, Text.dropEnding_of_not hend]⟩

namespace Emission

variable {e : Emission} {l : Listing} {owner : Text}

/-- Nothing stands in the way of writing, and the count is right. -/
structure Unhindered (e : Emission) : Prop where
  room : e.sink.room = none
  refused : e.refused = false
  size : e.size = e.sink.written.length

theorem write_blocks (e : Emission) (t : Text) : (e.write t).blocks = e.blocks := by
  unfold Emission.write
  split <;> rfl

theorem Unhindered.write (h : e.Unhindered) (t : Text) :
    (e.write t).Unhindered ∧ (e.write t).sink.written = e.sink.written ++ t := by
  have hwrite : e.write t =
      { e with sink := { e.sink with written := e.sink.written ++ t }, size := e.size + t.length } := by
    simp [Emission.write, Sink.write, h.refused, h.room]
  rw [hwrite]
  exact ⟨⟨h.room, h.refused, by simp [h.size]⟩, rfl⟩

/-- Recording a span does not get in the way. -/
theorem Unhindered.record (h : e.Unhindered) (blocks : List (Text × Span)) :
    { e with blocks }.Unhindered :=
  ⟨h.room, h.refused, h.size⟩

theorem Unhindered.item (h : e.Unhindered) (it : Item) :
    (e.item it).Unhindered ∧ (e.item it).sink.written = e.sink.written ++ it.line := by
  obtain ⟨kind, text, op, args, parens, owner⟩ := it
  by_cases hkind : kind = .raw
  · subst hkind
    obtain ⟨hbody, hwritten⟩ := h.write text
    have hrecord := hbody.record ((owner, ⟨e.size, e.size + text.length⟩) :: e.blocks)
    -- A newline is added behind a raw text only if it does not end in one already.
    cases hend : text.endsWith "\n" with
    | true =>
      refine ⟨by simpa [Emission.item, hend] using hrecord, ?_⟩
      have hline : Text.dropEnding text "\n" ++ "\n" = text := Text.dropEnding_append hend
      simp [Emission.item, Item.line, Item.render, hend, hwritten, hline]
    | false =>
      obtain ⟨hnewline, hboth⟩ := hrecord.write "\n"
      refine ⟨by simpa [Emission.item, hend] using hnewline, ?_⟩
      have hline : Text.dropEnding text "\n" = text := Text.dropEnding_of_not hend
      simp [Emission.item, Item.line, Item.render, hend, hboth, hwritten, hline]
  · obtain ⟨hbody, hwritten⟩ := h.write (Item.render ⟨kind, text, op, args, parens, owner⟩)
    obtain ⟨hnewline, hboth⟩ := hbody.write "\n"
    have hitem : e.item ⟨kind, text, op, args, parens, owner⟩ =
        (e.write (Item.render ⟨kind, text, op, args, parens, owner⟩)).write "\n" := by
      cases kind <;> first | rfl | exact absurd rfl hkind
    rw [hitem]
    exact ⟨hnewline, by rw [hboth, hwritten, Item.line, List.append_assoc]⟩

theorem item_blocks (e : Emission) (it : Item) :
    (e.item it).blocks =
      if it.kind = .raw then (it.owner, ⟨e.size, e.size + it.text.length⟩) :: e.blocks
      else e.blocks := by
  obtain ⟨kind, text, op, args, parens, owner⟩ := it
  cases kind with
  | raw =>
    simp only [Emission.item, if_true]
    split
    · rfl
    · exact write_blocks _ _
  | _ => simp [Emission.item, write_blocks]

/-- Writing items one after the other writes their lines one after the other. -/
theorem Unhindered.items (h : e.Unhindered) (l : Listing) :
    (l.foldl Emission.item e).Unhindered ∧
      (l.foldl Emission.item e).sink.written = e.sink.written ++ l.flatMap Item.line := by
  induction l generalizing e with
  | nil => exact ⟨h, by simp⟩
  | cons it l ih =>
    obtain ⟨hitem, hline⟩ := h.item it
    obtain ⟨hrest, hwritten⟩ := ih hitem
    exact ⟨hrest, by rw [List.foldl_cons, hwritten, hline, List.flatMap_cons, List.append_assoc]⟩

/-- Items that are no raw block of an owner do not move its span. -/
theorem span?_items (h : ∀ it ∈ l, it.kind = .raw → it.owner ≠ owner) :
    (l.foldl Emission.item e).span? owner = e.span? owner := by
  induction l generalizing e with
  | nil => rfl
  | cons it l ih =>
    rw [List.foldl_cons, ih fun it' hit' => h it' (List.mem_cons_of_mem it hit')]
    unfold Emission.span?
    rw [item_blocks]
    split
    · next hraw =>
      have hne : (owner == it.owner) = false :=
        beq_eq_false_iff_ne.mpr (h it List.mem_cons_self hraw).symm
      rw [List.lookup_cons, hne]
    · rfl

end Emission

namespace Listing

variable {owner : Text}

theorem unhindered_start : (Emission.start .unlimited).Unhindered :=
  ⟨rfl, rfl, rfl⟩

theorem emit_written (l : Listing) : (l.emit .unlimited).sink.written = l.flatMap Item.line :=
  (unhindered_start.items l).2

/-- The span of an owner's last raw block covers its bytes. -/
theorem emit_span?_raw {back : Listing} (front : Listing) (text : Text)
    (h : ∀ it ∈ back, it.kind = .raw → it.owner ≠ owner) :
    (Listing.emit (front ++ .raw owner text :: back) .unlimited).span? owner =
      some ⟨(front.flatMap Item.line).length, (front.flatMap Item.line).length + text.length⟩ := by
  obtain ⟨hfront, hwritten⟩ := unhindered_start.items front
  have hsize : (front.foldl Emission.item (.start .unlimited)).size =
      (front.flatMap Item.line).length := by
    rw [hfront.size, hwritten]
    rfl
  unfold Listing.emit
  rw [List.foldl_append, List.foldl_cons, Emission.span?_items h]
  unfold Emission.span?
  rw [Emission.item_blocks, ← hsize]
  simp [Item.raw]

/-- An owner without a raw block has no span. -/
theorem emit_span?_none {l : Listing} (h : ∀ it ∈ l, it.kind = .raw → it.owner ≠ owner) :
    (l.emit .unlimited).span? owner = none :=
  Emission.span?_items h

end Listing

end Asm

namespace Output

variable {o : Output} {name text : Text}

/-- The block of a function is the text of its last raw item. -/
theorem block?_raw {front back : Listing} (ho : o.emission = o.listing.emit .unlimited)
    (hl : o.listing = front ++ .raw name text :: back)
    (h : ∀ it ∈ back, it.kind = .raw → it.owner ≠ name) : o.block? name = some text := by
  obtain ⟨rest, hline⟩ := Item.line_raw name text
  have htext : o.text = front.flatMap Item.line ++ (text ++ (rest ++ back.flatMap Item.line)) := by
    rw [Output.text, ho, Listing.emit_written, hl, List.flatMap_append, List.flatMap_cons, hline,
      List.append_assoc]
  have hspan := Listing.emit_span?_raw front text h
  rw [← hl, ← ho] at hspan
  rw [Output.block?, hspan, Option.map_some, htext, List.drop_left, Nat.add_sub_cancel_left,
    List.take_left]

theorem block?_none (ho : o.emission = o.listing.emit .unlimited)
    (h : ∀ it ∈ o.listing, it.kind = .raw → it.owner ≠ name) : o.block? name = none := by
  rw [Output.block?, ho, Listing.emit_span?_none h, Option.map_none]

end Output

end Pocket

import Pocket.Program.Listing
import Pocket.Proofs.Checked
import Pocket.Proofs.Reachability

/-!
# Emitted functions

The listing of a program is the code of its emitted functions, the entry first, between the header
and the footer. All functions are emitted, or those that can be reached from the entry.
-/

namespace Pocket

open Asm

namespace Program

variable {p : Profile} {prog : Program} {d : Decl}

/-- The functions that are emitted, in the order of their code. -/
def emitted (prog : Program) (p : Profile) : List Decl :=
  (prog.table.lookup? p.entry).toList ++ prog.others p

theorem mem_others_iff : d ∈ prog.others p ↔ d ∈ prog.decls ∧ d.name ≠ p.entry ∧
    (p.stripUnused = true → d ∈ reachableDecls prog.decls p.entry) := by
  rw [others, List.mem_filter, decide_eq_true_eq]
  constructor
  · rintro ⟨hd, hname⟩
    split at hd
    · exact ⟨(mem_reachableDecls_iff.mp hd).1, hname, fun _ => hd⟩
    · next hs => exact ⟨hd, hname, fun hs' => absurd hs' hs⟩
  · rintro ⟨hd, hname, hkept⟩
    refine ⟨?_, hname⟩
    split
    · next hs => exact hkept hs
    · exact hd

theorem others_sublist (prog : Program) (p : Profile) : (prog.others p).Sublist prog.decls := by
  refine List.filter_sublist.trans ?_
  split
  · exact List.filter_sublist
  · exact List.Sublist.refl _

namespace Checked

theorem entry_found (h : prog.Checked p) :
    ∃ entry ∈ prog.decls, entry.name = p.entry ∧ prog.table.lookup? p.entry = some entry := by
  obtain ⟨entry, hmem, hname⟩ := List.mem_map.mp h.entry
  refine ⟨entry, hmem, hname, ?_⟩
  rw [DeclTable.lookup?, h.table, ← hname]
  exact find?_name h.names hmem

theorem emitted_eq (h : prog.Checked p) :
    ∃ entry ∈ prog.decls, entry.name = p.entry ∧ prog.emitted p = entry :: prog.others p := by
  obtain ⟨entry, hmem, hname, hfound⟩ := h.entry_found
  exact ⟨entry, hmem, hname, by rw [emitted, hfound]; rfl⟩

/-- Functions with the same name are the same function. -/
theorem eq_of_name (h : prog.Checked p) {e : Decl} (hd : d ∈ prog.decls) (he : e ∈ prog.decls)
    (hname : d.name = e.name) : d = e := by
  have hfound := find?_name h.names hd
  rw [hname, find?_name h.names he] at hfound
  exact (Option.some.inj hfound).symm

theorem mem_emitted_iff (h : prog.Checked p) : d ∈ prog.emitted p ↔
    d ∈ prog.decls ∧ (p.stripUnused = true → d ∈ reachableDecls prog.decls p.entry) := by
  obtain ⟨entry, hmem, hname, hemitted⟩ := h.emitted_eq
  have hreach : entry ∈ reachableDecls prog.decls p.entry := entry_mem_reachableDecls hmem hname
  rw [hemitted, List.mem_cons, mem_others_iff]
  constructor
  · rintro (rfl | ⟨hd, -, hkept⟩)
    · exact ⟨hmem, fun _ => hreach⟩
    · exact ⟨hd, hkept⟩
  · rintro ⟨hd, hkept⟩
    by_cases hentry : d.name = p.entry
    · exact .inl (h.eq_of_name hd hmem (hentry.trans hname.symm))
    · exact .inr ⟨hd, hentry, hkept⟩

theorem emitted_subset (h : prog.Checked p) (hd : d ∈ prog.emitted p) : d ∈ prog.decls :=
  (h.mem_emitted_iff.mp hd).1

theorem names_emitted_nodup (h : prog.Checked p) : ((prog.emitted p).map (·.name)).Nodup := by
  obtain ⟨entry, -, hname, hemitted⟩ := h.emitted_eq
  rw [hemitted, List.map_cons, List.nodup_cons]
  constructor
  · intro hmem
    obtain ⟨d, hd, hd'⟩ := List.mem_map.mp hmem
    exact (mem_others_iff.mp hd).2.1 (hd'.trans hname)
  · exact h.names.sublist ((prog.others_sublist p).map _)

/-- The function that an emitted function calls is emitted. -/
theorem callee_emitted (h : prog.Checked p) (hd : d ∈ prog.emitted p) {c : Call} (hc : c ∈ d.calls)
    (hcallee : c.callee ∈ prog.names) : ∃ e ∈ prog.emitted p, e.name = c.callee := by
  obtain ⟨e, he, hname⟩ := List.mem_map.mp hcallee
  refine ⟨e, h.mem_emitted_iff.mpr ⟨he, fun hs => ?_⟩, hname⟩
  refine mentioned_mem_reachableDecls h.names ((h.mem_emitted_iff.mp hd).2 hs) he ?_
  rw [hname]
  unfold Decl.mentions
  split
  · exact List.mem_map_of_mem hc
  · next hb => simp [Decl.calls, hb] at hc

end Checked

/-! ### The listing -/

theorem kind_of_mem_exitCode {name : Text} {it : Item} (h : it ∈ p.exitCode name) :
    it.kind = .instr := by
  unfold Profile.exitCode at h
  split at h
  · obtain ⟨text, -, rfl⟩ := List.mem_map.mp h
    rfl
  · obtain rfl := List.mem_singleton.mp h
    rfl

theorem kind_of_mem_stmtCode {s : Stmt} {it : Item} (h : it ∈ s.code p) :
    it.kind = .instr ∨ it.kind = .comment := by
  have hremark : it ∈ (if p.comments then [Item.comment s.render] else []) → it.kind = .comment := by
    split
    · rintro hit
      obtain rfl := List.mem_singleton.mp hit
      rfl
    · simp
  cases s with
  | expr e value pos =>
    rcases List.mem_append.mp h with hit | hit
    · exact .inr (hremark hit)
    · obtain rfl := List.mem_singleton.mp hit
      exact .inl rfl
  | call c =>
    rcases List.mem_append.mp h with hit | hit
    · rcases List.mem_append.mp hit with hit | hit
      · exact .inr (hremark hit)
      · split at hit
        · obtain rfl := List.mem_singleton.mp hit
          exact .inl rfl
        · cases hit
    · obtain rfl := List.mem_singleton.mp hit
      unfold Profile.callItem
      split <;> exact .inl rfl

/-- What stands behind the code of the functions. -/
def trailer (p : Profile) : Listing :=
  (if p.footer.isEmpty then [] else [.blank]) ++ p.footer.map .directive

/-- The functions of a listing, each behind a blank line. -/
def blocks (prog : Program) (p : Profile) : Listing :=
  (prog.emitted p).flatMap fun d => .blank :: d.code p

theorem Checked.listing_eq (h : prog.Checked p) :
    prog.listing p = .ok (p.header.map .directive ++ prog.blocks p ++ trailer p) := by
  obtain ⟨entry, -, -, hfound⟩ := h.entry_found
  simp [listing, hfound, blocks, emitted, trailer]

/-- The code of an emitted function stands in the listing in one piece. -/
theorem Checked.code_mem_listing (h : prog.Checked p) {l : Listing} (hl : prog.listing p = .ok l)
    (hd : d ∈ prog.emitted p) : ∃ front back, l = front ++ d.code p ++ back := by
  rw [h.listing_eq] at hl
  cases hl
  obtain ⟨before, after, hsplit⟩ := List.append_of_mem hd
  refine ⟨p.header.map .directive ++ before.flatMap (fun d => .blank :: d.code p) ++ [.blank],
    after.flatMap (fun d => .blank :: d.code p) ++ trailer p, ?_⟩
  simp [blocks, hsplit]

end Program

end Pocket

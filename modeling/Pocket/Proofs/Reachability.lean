import Pocket.Program.Reachable

/-!
# Reachability

The search that starts at the entry finds exactly the functions that can be reached along mentions.
It follows nothing but mentions, and what a function it has seen mentions is seen, too, or still to
do.
-/

namespace Pocket

namespace Reachable

/-- The names among `known` that can be reached from some roots along mentions. -/
inductive Reached (known : List Text) (mentions : Text → List Text) (roots : List Text) :
    Text → Prop where
  | root {name : Text} (hroot : name ∈ roots) (hknown : name ∈ known) :
      Reached known mentions roots name
  | mention {caller name : Text} (hcaller : Reached known mentions roots caller)
      (hname : name ∈ mentions caller) (hknown : name ∈ known) : Reached known mentions roots name

/-- What holds while the search from some roots goes on. -/
structure Searching (known : List Text) (mentions : Text → List Text)
    (roots todo seen : List Text) : Prop where
  sound : ∀ name ∈ seen, Reached known mentions roots name
  pending : ∀ name ∈ todo, name ∈ known → Reached known mentions roots name
  started : ∀ name ∈ roots, name ∈ known → name ∈ seen ∨ name ∈ todo
  closed : ∀ caller ∈ seen, ∀ name ∈ mentions caller, name ∈ known → name ∈ seen ∨ name ∈ todo

variable {known : List Text} {mentions : Text → List Text} {roots todo seen : List Text}
  {name : Text}

theorem searching_start : Searching known mentions roots roots [] where
  sound := by simp
  pending _ hroot hknown := .root hroot hknown
  started _ hroot _ := .inr hroot
  closed := by simp

theorem Searching.visit (h : Searching known mentions roots (name :: todo) seen)
    (hknown : name ∈ known) :
    Searching known mentions roots (mentions name ++ todo) (name :: seen) := by
  have hname : Reached known mentions roots name := h.pending name (by simp) hknown
  -- A name that was seen or to do is so still: the visited one moves from one list to the other.
  have hmove : ∀ other, other ∈ seen ∨ other ∈ name :: todo →
      other ∈ name :: seen ∨ other ∈ mentions name ++ todo := by
    intro other hother
    simp only [List.mem_cons, List.mem_append] at hother ⊢
    rcases hother with hseen | rfl | htodo
    · exact .inl (.inr hseen)
    · exact .inl (.inl rfl)
    · exact .inr (.inr htodo)
  refine ⟨?_, ?_, ?_, ?_⟩
  · intro other hother
    rcases List.mem_cons.mp hother with rfl | hseen
    · exact hname
    · exact h.sound other hseen
  · intro other hother hk
    rcases List.mem_append.mp hother with hmentioned | htodo
    · exact .mention hname hmentioned hk
    · exact h.pending other (List.mem_cons_of_mem name htodo) hk
  · intro other hroot hk
    exact hmove other (h.started other hroot hk)
  · intro caller hcaller other hother hk
    rcases List.mem_cons.mp hcaller with rfl | hseen
    · exact .inr (List.mem_append_left todo hother)
    · exact hmove other (h.closed caller hseen other hother hk)

theorem Searching.skip (h : Searching known mentions roots (name :: todo) seen)
    (hskip : ¬(name ∈ known ∧ name ∉ seen)) : Searching known mentions roots todo seen := by
  have hmove : ∀ other, other ∈ known → other ∈ seen ∨ other ∈ name :: todo →
      other ∈ seen ∨ other ∈ todo := by
    intro other hk hother
    rcases hother with hseen | hother
    · exact .inl hseen
    · rcases List.mem_cons.mp hother with rfl | htodo
      · exact .inl (Decidable.not_not.mp fun hn => hskip ⟨hk, hn⟩)
      · exact .inr htodo
  refine ⟨h.sound, ?_, ?_, ?_⟩
  · intro other htodo hk
    exact h.pending other (List.mem_cons_of_mem name htodo) hk
  · intro other hroot hk
    exact hmove other hk (h.started other hroot hk)
  · intro caller hseen other hother hk
    exact hmove other hk (h.closed caller hseen other hother hk)

/-- When nothing is left to do, exactly the reached names have been seen. -/
theorem Searching.mem_iff (h : Searching known mentions roots [] seen) :
    name ∈ seen ↔ Reached known mentions roots name := by
  constructor
  · exact h.sound name
  · intro hname
    induction hname with
    | root hroot hknown => simpa using h.started _ hroot hknown
    | mention _ hname hknown ih => simpa using h.closed _ ih _ hname hknown

theorem mem_closure_iff (h : Searching known mentions roots todo seen) :
    name ∈ closure known mentions todo seen ↔ Reached known mentions roots name := by
  fun_induction closure known mentions todo seen with
  | case1 seen => exact h.mem_iff
  | case2 seen next todo hnext ih => exact ih (h.visit hnext.1)
  | case3 seen next todo hnext ih => exact ih (h.skip hnext)

end Reachable

/-! ### Reachable functions -/

/-- What the function with a given name mentions. -/
def mentionsIn (decls : List Decl) (name : Text) : List Text :=
  match decls.find? (·.name = name) with
  | some d => d.mentions
  | none => []

variable {decls : List Decl} {entry : Text} {d : Decl}

/-- With distinct names, looking for the name of a function finds that function. -/
theorem find?_name (hnames : (decls.map (·.name)).Nodup) (hd : d ∈ decls) :
    decls.find? (·.name = d.name) = some d := by
  induction decls with
  | nil => cases hd
  | cons first decls ih =>
    rw [List.map_cons, List.nodup_cons] at hnames
    rcases List.mem_cons.mp hd with rfl | hd
    · simp
    · have hne : first.name ≠ d.name := by
        intro he
        exact hnames.1 (he ▸ List.mem_map_of_mem hd)
      rw [List.find?_cons_of_neg (by simpa using hne)]
      exact ih hnames.2 hd

theorem mem_reachableDecls_iff : d ∈ reachableDecls decls entry ↔
    d ∈ decls ∧ Reachable.Reached (decls.map (·.name)) (mentionsIn decls) [entry] d.name := by
  have hstart : Reachable.Searching (decls.map (·.name)) (mentionsIn decls) [entry] [entry] [] :=
    Reachable.searching_start
  rw [← Reachable.mem_closure_iff hstart]
  simp only [reachableDecls, List.mem_filter, List.contains_iff_mem]
  rfl

theorem entry_mem_reachableDecls (hd : d ∈ decls) (hentry : d.name = entry) :
    d ∈ reachableDecls decls entry :=
  mem_reachableDecls_iff.mpr ⟨hd, .root (by simp [hentry]) (List.mem_map_of_mem hd)⟩

/-- A declared function that a reachable one mentions is reachable. -/
theorem mentioned_mem_reachableDecls (hnames : (decls.map (·.name)).Nodup)
    (hd : d ∈ reachableDecls decls entry) {callee : Decl} (hcallee : callee ∈ decls)
    (hm : callee.name ∈ d.mentions) : callee ∈ reachableDecls decls entry := by
  obtain ⟨hdecl, hreached⟩ := mem_reachableDecls_iff.mp hd
  have hmentions : mentionsIn decls d.name = d.mentions := by
    rw [mentionsIn, find?_name hnames hdecl]
  refine mem_reachableDecls_iff.mpr ⟨hcallee, .mention hreached ?_ (List.mem_map_of_mem hcallee)⟩
  rw [hmentions]
  exact hm

end Pocket

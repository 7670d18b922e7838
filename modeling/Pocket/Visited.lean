/-!
# Visited members

A search that visits each member of a finite list at most once ends, because every visit leaves fewer
members unvisited.
-/

namespace Pocket

variable {α : Type} [DecidableEq α]

/-- How many members of `all` have not been visited. -/
def unvisited (all visited : List α) : Nat :=
  (all.filter fun a => !visited.contains a).length

theorem filter_unvisited_cons (all visited : List α) (a : α) :
    all.filter (fun b => !(a :: visited).contains b)
      = (all.filter fun b => !visited.contains b).filter fun b => !decide (b = a) := by
  rw [List.filter_filter]
  congr 1
  funext b
  simp

/-- A visit never leaves more members unvisited. -/
theorem unvisited_cons_le (all visited : List α) (a : α) :
    unvisited all (a :: visited) ≤ unvisited all visited := by
  rw [unvisited, filter_unvisited_cons]
  exact List.length_filter_le _ _

/-- The first visit of a member leaves fewer members unvisited. -/
theorem unvisited_cons_lt {all visited : List α} {a : α} (ha : a ∈ all) (hv : a ∉ visited) :
    unvisited all (a :: visited) < unvisited all visited := by
  rw [unvisited, filter_unvisited_cons]
  exact List.length_filter_lt_length_iff_exists.mpr ⟨a, by simp [ha, hv], by simp⟩

end Pocket

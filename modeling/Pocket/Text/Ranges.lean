/-!
# Ranges of code points

A character class is given as the ascending list of its ranges, each with its first and last member.
-/

namespace Pocket

/-- A set of code points as ascending, disjoint ranges. -/
abbrev Ranges := List (Nat × Nat)

/-- Whether a code point lies in one of the ranges; a range that begins after it ends the search. -/
def Ranges.contains : Ranges → Nat → Bool
  | [], _ => false
  | (low, high) :: rest, n =>
    if n < low then false else if n ≤ high then true else contains rest n

end Pocket

/-!
# Saturating weights

Scores and the loads built from them are counted in 64-bit words.  A sum that
would not fit stays at the largest word, so that an overloaded bin is still
the heaviest one.

Main results:

- `Weight.add_eq_of_le`: below the ceiling, weights add as natural numbers.
- `Weight.sum_eq`: a saturated sum is the plain sum cut off at the ceiling, so
  it does not depend on the order of the summands.
-/

namespace FuzzCampaign

namespace Weight

/-- The largest weight that can be recorded. -/
def ceiling : Nat := 18446744073709551615

/-- Addition that stops at the ceiling. -/
def add (a b : Nat) : Nat := min (a + b) ceiling

/-- The sum of a list of weights, added from the left. -/
def sum (weights : List Nat) : Nat := weights.foldl add 0

/-- Weights whose exact sum fits add as natural numbers. -/
theorem add_eq_of_le {a b : Nat} (h : a + b ≤ ceiling) : add a b = a + b :=
  Nat.min_eq_left h

/-- A saturated sum never passes the ceiling. -/
theorem add_le_ceiling (a b : Nat) : add a b ≤ ceiling := Nat.min_le_right _ _

theorem add_comm (a b : Nat) : add a b = add b a := by
  simp [add, Nat.add_comm]

theorem foldl_add_eq (weights : List Nat) (start : Nat) (h : start ≤ ceiling) :
    weights.foldl add start = min (start + weights.foldr (· + ·) 0) ceiling := by
  induction weights generalizing start with
  | nil => simp [Nat.min_eq_left h]
  | cons w ws ih =>
    rw [List.foldl_cons, ih _ (add_le_ceiling _ _), List.foldr_cons]
    simp only [add]
    omega

/-- A saturated sum is the exact sum, cut off at the ceiling. -/
theorem sum_eq (weights : List Nat) : sum weights = min (weights.foldr (· + ·) 0) ceiling := by
  simpa [sum] using foldl_add_eq weights 0 (Nat.zero_le _)

end Weight

end FuzzCampaign

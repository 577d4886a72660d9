import FuzzCampaign.CallGraph.Basic
import FuzzCampaign.Weight

/-!
# Scores

A function is worth fuzzing when its coverage has grown lately and when much of
it is still uncovered.  Its score is the product of both, each increased by
one, so that no function has the score zero.

Main results:

- `toNat_score`: the score in exact numbers; its word never overflows.
- `score_pos`: every score is at least one.
-/

namespace FuzzCampaign

/-- The part of `a` that exceeds `b`. -/
def excess (a b : UInt32) : UInt32 := if b ≤ a then a - b else 0

theorem toNat_excess (a b : UInt32) : (excess a b).toNat = a.toNat - b.toNat := by
  unfold excess
  split
  · rename_i h
    exact UInt32.toNat_sub_of_le _ _ h
  · rename_i h
    have hlt : a.toNat ≤ b.toNat := Nat.le_of_not_ge fun hge => h (UInt32.le_iff_toNat_le.2 hge)
    simp [Nat.sub_eq_zero_of_le hlt]

/-- The score of a function with `total` blocks, of which `before` were covered
at the previous report and `now` at the latest. -/
def score (total before now : UInt32) : UInt64 :=
  ((excess now before).toUInt64 + 1) * ((excess total now).toUInt64 + 1)

/-- Two factors that compete for the same blocks have a product below the
largest 64-bit word. -/
theorem mul_lt_of_add_le {a b : Nat} (h : a + b ≤ 4294967296 + 1) : a * b < 18446744073709551616 := by
  rcases Nat.le_total b 2147483648 with hb | hb
  · have hmul := Nat.mul_le_mul (show a ≤ 4294967296 + 1 by omega) hb
    omega
  · have hmul := Nat.mul_le_mul (show a ≤ 2147483648 + 1 by omega) (show b ≤ 4294967296 + 1 by omega)
    omega

/-- A factor of the score in exact numbers. -/
theorem toNat_excess_add_one (a b : UInt32) :
    ((excess a b).toUInt64 + 1).toNat = a.toNat - b.toNat + 1 := by
  have ha : a.toNat < 4294967296 := a.toNat_lt
  rw [UInt64.toNat_add, UInt32.toNat_toUInt64, toNat_excess, UInt64.toNat_one]
  exact Nat.mod_eq_of_lt (by omega)

/-- The score in exact numbers. -/
theorem toNat_score (total before now : UInt32) :
    (score total before now).toNat =
      (now.toNat - before.toNat + 1) * (total.toNat - now.toNat + 1) := by
  have ht : total.toNat < 4294967296 := total.toNat_lt
  have hn : now.toNat < 4294967296 := now.toNat_lt
  have hbound : (now.toNat - before.toNat + 1) * (total.toNat - now.toNat + 1) < 18446744073709551616 := by
    rcases Nat.le_total total.toNat now.toNat with h | h
    · rw [Nat.sub_eq_zero_of_le h]
      omega
    · exact mul_lt_of_add_le (by omega)
  rw [score, UInt64.toNat_mul, toNat_excess_add_one, toNat_excess_add_one]
  exact Nat.mod_eq_of_lt hbound

/-- Every score is at least one. -/
theorem score_pos (total before now : UInt32) : 1 ≤ (score total before now).toNat := by
  rw [toNat_score]
  exact Nat.mul_pos (Nat.succ_pos _) (Nat.succ_pos _)

/-- The score of a function, by its reported number of blocks or else by its
static block count. -/
def Vertex.rawScore (v : Vertex) : Nat :=
  let total := (v.notes.totalBlocks.or v.staticBlocks?).getD 0
  (score total v.notes.coveredBefore v.notes.coveredNow).toNat

theorem Vertex.rawScore_pos (v : Vertex) : 1 ≤ v.rawScore := score_pos _ _ _

/-! ## Scoring a graph -/

/-- A limit on scores before partitioning. -/
inductive ScoreCap where
  | none
  /-- No score exceeds the sum of the median and the mean score. -/
  | medianPlusMean
  deriving Repr, DecidableEq, Inhabited

/-- The distribution of the scores of a graph. -/
structure ScoreStats where
  median : Nat := 0
  mean : Nat := 0
  max : Nat := 0
  /-- The sum of the scores after the limit. -/
  total : Nat := 0
  deriving Repr, DecidableEq

namespace ScoreStats

/-- The middle of an ascending list: the middle element, or the mean of the two
middle elements, rounded down. -/
def middle (sorted : List Nat) : Nat :=
  let half := sorted.length / 2
  if sorted.length % 2 = 0 then
    Weight.add (sorted[half - 1]?.getD 0) (sorted[half]?.getD 0) / 2
  else sorted[half]?.getD 0

/-- The statistics of a list of scores before the limit. -/
def ofScores (scores : List Nat) : ScoreStats :=
  let sorted := scores.mergeSort fun a b => decide (a ≤ b)
  { median := middle sorted
    mean := Weight.sum sorted / sorted.length
    max := sorted.getLast?.getD 0 }

/-- A score under a limit. -/
def limit (stats : ScoreStats) (cap : ScoreCap) (score : Nat) : Nat :=
  match cap with
  | .none => score
  | .medianPlusMean => min score (Weight.add stats.median stats.mean)

end ScoreStats

namespace CallGraph

/-- The scores of all functions before the limit. -/
def rawScores (g : CallGraph) : List (Nat × Nat) :=
  g.vertices.map fun (node, v) => (node, v.rawScore)

/-- Enter the score of a function. -/
def setScore (g : CallGraph) (entry : Nat × Nat) : CallGraph :=
  g.annotate entry.1 fun notes => { notes with score := entry.2 }

/-- Score every function; the answer describes the distribution. -/
def assignScores (g : CallGraph) (cap : ScoreCap) : ScoreStats × CallGraph :=
  let raw := g.rawScores
  let stats := ScoreStats.ofScores (raw.map (·.2))
  let limited := raw.map fun entry => (entry.1, stats.limit cap entry.2)
  ({ stats with total := Weight.sum (limited.map (·.2)) }, limited.foldl setScore g)

/-- The score entered for a function; zero for a number without a function. -/
def scoreOf (g : CallGraph) (node : Nat) : Nat := ((g.vertex? node).map (·.notes.score)).getD 0

end CallGraph

end FuzzCampaign

import FuzzCampaign.Proofs.Partition.Scoring
import Mathlib

/-!
# The distribution of scores

The statistics are those of the scores before the limit.  The limit is the median and the
mean together, so that it touches no score up to the median, and in an ascending list the
first half of the scores are such.

Scores are computed from coverage alone.  So assigning them once more finds what is
entered already.

Main definitions:

- `ScoreStats.Describes`: the exact median, mean and maximum of a list of scores.
- `CallGraph.Scored`: what assigning scores enters and answers.

Main results:

- `ScoreStats.length_le_countP_median`: half of the scores do not exceed the median.
- `CallGraph.assignScores_assignScores`: assigning scores twice is assigning them once.
- `CallGraph.scored_assignScores`: the answer, what is entered, and what is left alone.
-/

namespace FuzzCampaign

namespace ScoreStats

variable {scores sorted : List Nat}

/-! ## Ascending lists -/

theorem pairwise_mergeSort_le (scores : List Nat) :
    (scores.mergeSort fun a b => decide (a ≤ b)).Pairwise (· ≤ ·) := by
  refine (List.pairwise_mergeSort (fun a b c => ?_) (fun a b => ?_) scores).imp ?_
  · simpa using Nat.le_trans
  · simpa using Nat.le_total _ _
  · simp

/-- There is one way to sort a list of numbers. -/
theorem mergeSort_eq (hperm : sorted.Perm scores) (hsorted : sorted.Pairwise (· ≤ ·)) :
    scores.mergeSort (fun a b => decide (a ≤ b)) = sorted :=
  ((List.mergeSort_perm _ _).trans hperm.symm).eq_of_pairwise
    (fun _ _ _ _ hab hba => Nat.le_antisymm hab hba) (pairwise_mergeSort_le scores) hsorted

theorem getElem_le_getElem (hsorted : sorted.Pairwise (· ≤ ·)) {i j : Nat} (hij : i ≤ j)
    (hj : j < sorted.length) : sorted[i] ≤ sorted[j] := by
  rcases Nat.eq_or_lt_of_le hij with rfl | hlt
  · exact Nat.le_refl _
  · exact List.pairwise_iff_getElem.1 hsorted i j _ hj hlt

/-- Two neighbours are worth at most the whole list. -/
theorem getElem_add_getElem_le_sum (l : List Nat) {i : Nat} (hi : i + 1 < l.length) :
    l[i] + l[i + 1] ≤ l.sum := by
  have hfirst : l[i] ∈ l.take (i + 1) := List.mem_take_iff_getElem.2 ⟨i, by omega, rfl⟩
  have hsecond : l[i + 1] ∈ l.drop (i + 1) :=
    List.mem_drop_iff_getElem.2 ⟨0, by omega, by simp⟩
  have hle := Nat.add_le_add (List.le_sum_of_mem hfirst) (List.le_sum_of_mem hsecond)
  rwa [← List.sum_append, List.take_append_drop] at hle

/-- The two middle numbers of a list whose sum fits are added exactly. -/
theorem middle_even (hfits : sorted.sum ≤ Weight.ceiling) (heven : sorted.length % 2 = 0) :
    middle sorted =
      (sorted[sorted.length / 2 - 1]?.getD 0 + sorted[sorted.length / 2]?.getD 0) / 2 := by
  rw [middle, if_pos heven, Weight.add_eq_of_le]
  by_cases hnil : sorted = []
  · simp [hnil]
  · have hpos := List.length_pos_iff.2 hnil
    have hnext : sorted.length / 2 - 1 + 1 = sorted.length / 2 := by omega
    have hle := getElem_add_getElem_le_sum sorted (i := sorted.length / 2 - 1) (by omega)
    simp only [hnext] at hle
    rw [List.getElem?_eq_getElem (by omega), List.getElem?_eq_getElem (by omega)]
    exact Nat.le_trans hle hfits

theorem middle_odd (hodd : sorted.length % 2 = 1) :
    middle sorted = sorted[sorted.length / 2]?.getD 0 := by
  rw [middle, if_neg (by omega)]

/-- The numbers in the first half of an ascending list do not exceed its middle. -/
theorem getElem_le_middle (hsorted : sorted.Pairwise (· ≤ ·)) (hfits : sorted.sum ≤ Weight.ceiling)
    {i : Nat} (hi : i < sorted.length) (hhalf : i < (sorted.length + 1) / 2) :
    sorted[i] ≤ middle sorted := by
  rcases Nat.mod_two_eq_zero_or_one sorted.length with heven | hodd
  · have hlow :=
      getElem_le_getElem hsorted (i := i) (j := sorted.length / 2 - 1) (by omega) (by omega)
    have hhigh := getElem_le_getElem hsorted (i := i) (j := sorted.length / 2) (by omega) (by omega)
    rw [middle_even hfits heven, List.getElem?_eq_getElem (by omega),
      List.getElem?_eq_getElem (by omega), Option.getD_some, Option.getD_some]
    omega
  · rw [middle_odd hodd, List.getElem?_eq_getElem (by omega), Option.getD_some]
    exact getElem_le_getElem hsorted (by omega) (by omega)

/-- At least half of an ascending list does not exceed its middle. -/
theorem length_le_countP_middle (hsorted : sorted.Pairwise (· ≤ ·))
    (hfits : sorted.sum ≤ Weight.ceiling) :
    sorted.length ≤ 2 * sorted.countP fun s => decide (s ≤ middle sorted) := by
  have hfirst : (sorted.take ((sorted.length + 1) / 2)).countP
      (fun s => decide (s ≤ middle sorted)) = (sorted.length + 1) / 2 := by
    rw [List.countP_eq_length.2, List.length_take]
    · omega
    · intro s hs
      obtain ⟨i, hi, rfl⟩ := List.mem_take_iff_getElem.1 hs
      exact decide_eq_true (getElem_le_middle hsorted hfits (by omega) (by omega))
  have hsplit : sorted.countP (fun s => decide (s ≤ middle sorted)) =
      (sorted.take ((sorted.length + 1) / 2)).countP (fun s => decide (s ≤ middle sorted)) +
        (sorted.drop ((sorted.length + 1) / 2)).countP fun s => decide (s ≤ middle sorted) := by
    rw [← List.countP_append, List.take_append_drop]
  omega

/-! ## Statistics -/

/-- The median, the mean and the maximum of a list of scores, in exact numbers.  The
median is the middle score in ascending order or, when there are two in the middle, their
mean, rounded down. -/
structure Describes (stats : ScoreStats) (scores : List Nat) : Prop where
  median_odd : ∀ sorted : List Nat, sorted.Perm scores → sorted.Pairwise (· ≤ ·) →
    sorted.length % 2 = 1 → stats.median = sorted[sorted.length / 2]?.getD 0
  median_even : ∀ sorted : List Nat, sorted.Perm scores → sorted.Pairwise (· ≤ ·) →
    sorted.length % 2 = 0 → stats.median =
      (sorted[sorted.length / 2 - 1]?.getD 0 + sorted[sorted.length / 2]?.getD 0) / 2
  mean_eq : stats.mean = scores.sum / scores.length
  le_max : ∀ s ∈ scores, s ≤ stats.max
  max_mem : scores ≠ [] → stats.max ∈ scores

theorem median_ofScores (hperm : sorted.Perm scores) (hsorted : sorted.Pairwise (· ≤ ·)) :
    (ofScores scores).median = middle sorted := by
  simp only [ofScores, mergeSort_eq hperm hsorted]

/-- The statistics of scores whose sum fits are exact. -/
theorem describes_ofScores (hfits : scores.sum ≤ Weight.ceiling) :
    (ofScores scores).Describes scores := by
  have hperm := List.mergeSort_perm scores fun a b => decide (a ≤ b)
  have hsorted := pairwise_mergeSort_le scores
  refine ⟨?_, ?_, ?_, ?_, ?_⟩
  · intro sorted hperm hsorted hodd
    rw [median_ofScores hperm hsorted, middle_odd hodd]
  · intro sorted hperm hsorted heven
    rw [median_ofScores hperm hsorted, middle_even (by rwa [hperm.sum_eq]) heven]
  · simp only [ofScores, Weight.sum_perm hperm, Weight.sum_eq_of_le hfits, hperm.length_eq]
  · intro s hs
    obtain ⟨i, hi, rfl⟩ := List.getElem_of_mem (hperm.mem_iff.2 hs)
    simp only [ofScores, List.getLast?_eq_getElem?]
    rw [List.getElem?_eq_getElem (by omega), Option.getD_some]
    exact getElem_le_getElem hsorted (by omega) (by omega)
  · intro hne
    have hne' : (scores.mergeSort fun a b => decide (a ≤ b)) ≠ [] := by
      rwa [← List.length_pos_iff, hperm.length_eq, List.length_pos_iff]
    simp only [ofScores, List.getLast?_eq_some_getLast hne', Option.getD_some]
    exact hperm.mem_iff.1 (List.getLast_mem hne')

/-- At least half of the scores do not exceed the median. -/
theorem length_le_countP_median (hfits : scores.sum ≤ Weight.ceiling) :
    scores.length ≤ 2 * scores.countP fun s => decide (s ≤ (ofScores scores).median) := by
  have hperm := List.mergeSort_perm scores fun a b => decide (a ≤ b)
  have hhalf := length_le_countP_middle (pairwise_mergeSort_le scores) (by rwa [hperm.sum_eq])
  rwa [hperm.length_eq, hperm.countP_eq] at hhalf

/-! ## The limit -/

/-- The limit is the exact sum of the median and the mean. -/
theorem limit_eq (stats : ScoreStats) (cap : ScoreCap) {score : Nat} (h : score ≤ Weight.ceiling) :
    stats.limit cap score =
      if cap = .medianPlusMean then min score (stats.median + stats.mean) else score := by
  cases cap with
  | none => rfl
  | medianPlusMean =>
    simp only [limit, Weight.add, if_true]
    omega

theorem limit_mono (stats : ScoreStats) (cap : ScoreCap) {a b : Nat} (h : a ≤ b) :
    stats.limit cap a ≤ stats.limit cap b := by
  cases cap with
  | none => exact h
  | medianPlusMean =>
    simp only [limit]
    omega

/-- The limit touches no score up to the median. -/
theorem limit_eq_self (stats : ScoreStats) (cap : ScoreCap) {score : Nat}
    (hfits : score ≤ Weight.ceiling) (h : score ≤ stats.median) : stats.limit cap score = score := by
  rw [limit_eq stats cap hfits]
  split <;> omega

end ScoreStats

namespace CallGraph

variable {g : CallGraph}

/-! ## Assigning scores once more -/

theorem annotate_eq_self {node : Nat} {f : Annotations → Annotations}
    (h : ∀ v, g.vertex? node = some v → f v.notes = v.notes) : g.annotate node f = g := by
  have hslots : (g.annotate node f).slots = g.slots := by
    refine Array.ext_getElem? ?_
    intro i
    simp only [annotate, Array.getElem?_modify]
    split
    · rename_i hnode
      subst hnode
      unfold vertex? at h
      rcases hslot : g.slots[node]? with _ | _ | v
      · rfl
      · rfl
      · simp [hslot, Vertex.annotate] at h ⊢
        simp [h]
    · rfl
  exact congrArg (fun slots => { g with slots := slots }) hslots

/-- Entering scores that are entered already changes nothing. -/
theorem foldl_setScore_eq_self {entries : List (Nat × Nat)}
    (h : ∀ entry ∈ entries, ∀ v, g.vertex? entry.1 = some v → v.notes.score = entry.2) :
    entries.foldl setScore g = g := by
  induction entries with
  | nil => rfl
  | cons entry entries ih =>
    have hfirst : g.setScore entry = g := by
      apply annotate_eq_self
      intro v hv
      rw [← h entry List.mem_cons_self v hv]
    rw [List.foldl_cons, hfirst]
    exact ih fun other hother => h other (List.mem_cons_of_mem _ hother)

/-- Scores before the limit do not depend on the scores that are entered. -/
theorem rawScoreOf_assignScores (g : CallGraph) (cap : ScoreCap) :
    (g.assignScores cap).2.rawScoreOf = g.rawScoreOf := by
  funext node
  rw [rawScoreOf, rawScoreOf, vertex?_assignScores, Option.map_map]
  rfl

theorem stats_assignScores (g : CallGraph) (cap : ScoreCap) :
    (g.assignScores cap).1 =
      { ScoreStats.ofScores (g.nodes.map g.rawScoreOf) with
        total := Weight.sum (g.nodes.map (g.limitedScore cap)) } := by
  have hraw : g.rawScores.map (·.2) = g.nodes.map g.rawScoreOf := by
    rw [rawScores_eq, List.map_map]
    rfl
  rw [← (g.assignScores_eq cap).1, ← hraw]
  rfl

theorem assignScores_assignScores (g : CallGraph) (cap : ScoreCap) :
    (g.assignScores cap).2.assignScores cap = g.assignScores cap := by
  have hnodes := (g.sameShape_assignScores cap).nodes_eq
  have hraw := g.rawScoreOf_assignScores cap
  have hlimited : (g.assignScores cap).2.limitedScore cap = g.limitedScore cap := by
    funext node
    rw [limitedScore, limitedScore, hnodes, hraw]
  refine Prod.ext ?_ ?_
  · rw [stats_assignScores, stats_assignScores, hnodes, hraw, hlimited]
  · rw [((g.assignScores cap).2.assignScores_eq cap).2, hnodes, hlimited]
    apply foldl_setScore_eq_self
    intro entry hentry v hv
    obtain ⟨node, -, rfl⟩ := List.mem_map.1 hentry
    rw [vertex?_assignScores, Option.map_eq_some_iff] at hv
    obtain ⟨w, -, rfl⟩ := hv
    rfl

/-! ## What is entered -/

/-- Assigning scores describes the scores before the limit, enters those after the limit
and changes nothing else.  The limit keeps the order of scores and at least half of the
scores themselves, and doing the same again does nothing. -/
structure Scored (g : CallGraph) (cap : ScoreCap) (stats : ScoreStats) (g' : CallGraph) :
    Prop where
  describes : stats.Describes (g.nodes.map g.rawScoreOf)
  scoreOf_eq : ∀ v ∈ g.nodes, g'.scoreOf v =
    if cap = .medianPlusMean then min (g.rawScoreOf v) (stats.median + stats.mean)
    else g.rawScoreOf v
  total_eq : stats.total = (g.nodes.map g'.scoreOf).sum
  one_le : ∀ v ∈ g.nodes, 1 ≤ g'.scoreOf v
  mono : ∀ u ∈ g.nodes, ∀ v ∈ g.nodes, g.rawScoreOf u ≤ g.rawScoreOf v →
    g'.scoreOf u ≤ g'.scoreOf v
  half_raw : g.nodes.length ≤ 2 * g.nodes.countP fun v => g'.scoreOf v == g.rawScoreOf v
  forgetScores_eq : g'.forgetScores = g.forgetScores
  again : g'.assignScores cap = (stats, g')

/-- As long as the scores before the limit fit into a word together, the statistics and the
scores that are entered are exact. -/
theorem scored_assignScores (g : CallGraph) (cap : ScoreCap)
    (hfits : (g.nodes.map g.rawScoreOf).sum < 2 ^ 64) :
    Scored g cap (g.assignScores cap).1 (g.assignScores cap).2 := by
  have hsum : (g.nodes.map g.rawScoreOf).sum ≤ Weight.ceiling := Nat.le_of_lt_succ hfits
  have hdescribes := ScoreStats.describes_ofScores hsum
  have hscore : ∀ v ∈ g.nodes, (g.assignScores cap).2.scoreOf v = g.limitedScore cap v :=
    fun v hv => scoreOf_assignScores hv
  refine ⟨?_, ?_, ?_, ?_, ?_, ?_, g.forgetScores_assignScores cap, g.assignScores_assignScores cap⟩
  · rw [stats_assignScores]
    exact ⟨hdescribes.median_odd, hdescribes.median_even, hdescribes.mean_eq, hdescribes.le_max,
      hdescribes.max_mem⟩
  · intro v hv
    rw [hscore v hv, limitedScore, ScoreStats.limit_eq _ _ (g.rawScoreOf_le v), stats_assignScores]
  · rw [total_assignScores]
    refine Weight.sum_eq_of_le (Nat.le_trans ?_ hsum)
    refine List.sum_le_sum ?_
    intro v hv
    rw [hscore v hv]
    exact ScoreStats.limit_le _ _ _
  · intro v hv
    rw [hscore v hv]
    exact limitedScore_pos cap hv
  · intro u hu v hv hle
    rw [hscore u hu, hscore v hv]
    exact ScoreStats.limit_mono _ cap hle
  · have hhalf := ScoreStats.length_le_countP_median hsum
    rw [List.length_map, List.countP_map] at hhalf
    refine Nat.le_trans hhalf (Nat.mul_le_mul_left 2 (List.countP_mono_left ?_))
    intro v hv hmedian
    simp only [Function.comp_apply, decide_eq_true_eq] at hmedian
    rw [beq_iff_eq, hscore v hv]
    exact ScoreStats.limit_eq_self _ cap (g.rawScoreOf_le v) hmedian

/-- An entry and its callee, of which nothing is known, and a function with a hundred
blocks to cover. -/
def ofOutlier : CallGraph :=
  ((ofCall "main" "parse").insert
    { Vertex.named "emit" with notes := { totalBlocks := some 100 } }).2

/-- The limit cuts the score of the outlier down to the sum of the median and the mean. -/
theorem scored_assignScores_ofOutlier :
    (ofOutlier.nodes.map ofOutlier.rawScoreOf).sum < 2 ^ 64 ∧
      (ofOutlier.assignScores .medianPlusMean).1 = ⟨1, 34, 101, 37⟩ ∧
      (ofOutlier.assignScores .medianPlusMean).2.scoreOf 2 = 35 := by
  have hnodes : ofOutlier.nodes = [0, 1, 2] := by cbv
  have hraw : [0, 1, 2].map ofOutlier.rawScoreOf = [1, 1, 101] := by cbv
  have hfits : (ofOutlier.nodes.map ofOutlier.rawScoreOf).sum < 2 ^ 64 := by
    rw [hnodes, hraw]
    decide
  have hstats : (ofOutlier.assignScores .medianPlusMean).1 = ⟨1, 34, 101, 37⟩ := by cbv
  have hscore := (scored_assignScores ofOutlier .medianPlusMean hfits).scoreOf_eq 2 (by simp [hnodes])
  have hlarge : ofOutlier.rawScoreOf 2 = 101 := by cbv
  rw [if_pos rfl, hstats, hlarge] at hscore
  exact ⟨hfits, hstats, hscore⟩

end CallGraph

end FuzzCampaign

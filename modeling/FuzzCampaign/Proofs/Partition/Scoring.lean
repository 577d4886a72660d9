import FuzzCampaign.Partition.Score
import FuzzCampaign.Proofs.CallGraph.WellFormed
import FuzzCampaign.Proofs.Partition.Load
import Mathlib.Algebra.Order.BigOperators.Group.List
import Mathlib.Algebra.Order.Group.Nat
import Mathlib.Tactic.Ring

/-!
# How a score changes, and what assigning scores does to a graph

What is gained does not remain: a block that is covered adds to one factor of the score and
takes from the other one.  So the factors cannot both be large, which is why their product
fits into a word, and the score first rises with the coverage and then falls.  Two coverages
are compared by their sum (`score_lt_iff`).  What the score does between two neighbours,
where it is largest and which scores are the same is all read off this.

In a graph every function gets the score that its coverage is worth, cut off at the limit.
Neither the limit nor a saturated sum can make a score vanish, since the median of positive
scores is positive.

Main definitions:

- `ExactScore`: no operation of a score leaves its word.
- `crest`: halfway between the coverage before and all blocks.
- `Peaks`: a quantity rises to one peak and falls behind it.
- `CallGraph.limitedScore`: the score that a function gets.
- `CallGraph.forgetScores`: a graph without its scores.

Main results:

- `toNat_score_add`: the difference of two scores.
- `peaks_score`: the score has its peak at the crest.
- `score_peaked`: exactness, turning point, peak and monotonicity of the score.
- `CallGraph.vertex?_assignScores`: what is entered for each function.
- `CallGraph.total_assignScores`: the total is the sum of what is entered.
- `CallGraph.forgetScores_assignScores`: nothing but scores changes.
-/

namespace FuzzCampaign

/-! ## No operation overflows -/

/-- Neither an increment of a factor nor the product of both exceeds its word, so that the
score is their product in exact numbers. -/
structure ExactScore (total before now : UInt32) : Prop where
  gained_lt : (excess now before).toUInt64.toNat + 1 < UInt64.size
  remaining_lt : (excess total now).toUInt64.toNat + 1 < UInt64.size
  product_lt : ((excess now before).toUInt64 + 1).toNat *
    ((excess total now).toUInt64 + 1).toNat < UInt64.size
  toNat_eq : (score total before now).toNat =
    (now.toNat - before.toNat + 1) * (total.toNat - now.toNat + 1)

/-- The machine arithmetic of a score computes the exact score. -/
theorem exactScore (total before now : UInt32) : ExactScore total before now := by
  have hgained : (excess now before).toUInt64.toNat < 4294967296 := (excess now before).toNat_lt
  have hremaining : (excess total now).toUInt64.toNat < 4294967296 := (excess total now).toNat_lt
  refine ⟨?_, ?_, ?_, toNat_score total before now⟩
  · exact Nat.lt_trans (Nat.succ_lt_succ hgained) (by decide)
  · exact Nat.lt_trans (Nat.succ_lt_succ hremaining) (by decide)
  · rw [toNat_excess_add_one, toNat_excess_add_one, ← toNat_score]
    exact (score total before now).toNat_lt

/-! ## Comparing two coverages -/

/-- The score of the larger of two coverages differs from the other score by their distance
times what their sum lacks of all blocks and the coverage before. -/
theorem toNat_score_add {total before m n : UInt32} (hm : before ≤ m) (hmn : m ≤ n)
    (hn : n ≤ total) :
    (score total before n).toNat + (n.toNat - m.toNat) * (m.toNat + n.toNat) =
      (score total before m).toNat +
        (n.toNat - m.toNat) * (total.toNat + before.toNat) := by
  obtain ⟨gained, hgained⟩ := Nat.exists_eq_add_of_le (UInt32.le_iff_toNat_le.1 hm)
  obtain ⟨step, hstep⟩ := Nat.exists_eq_add_of_le (UInt32.le_iff_toNat_le.1 hmn)
  obtain ⟨remaining, hremaining⟩ := Nat.exists_eq_add_of_le (UInt32.le_iff_toNat_le.1 hn)
  have hgainedAtM : m.toNat - before.toNat = gained := by omega
  have hgainedAtN : n.toNat - before.toNat = gained + step := by omega
  have hremainingAtM : total.toNat - m.toNat = remaining + step := by omega
  have hremainingAtN : total.toNat - n.toNat = remaining := by omega
  have hdistance : n.toNat - m.toNat = step := by omega
  rw [toNat_score, toNat_score, hgainedAtM, hgainedAtN, hremainingAtM, hremainingAtN, hdistance,
    hremaining, hstep, hgained]
  ring

/-- When two numbers are made equal by adding products to them, the larger one gets the
smaller product. -/
theorem lt_iff_of_add_mul_eq {p q d u v : Nat} (hd : 0 < d) (h : p + d * u = q + d * v) :
    q < p ↔ u < v := by
  have hmul : d * u < d * v ↔ u < v := Nat.mul_lt_mul_left hd
  rw [← hmul]
  omega

section Coverages

variable {total before m n : UInt32}

/-- More coverage is worth more as long as both coverages together are less than all blocks
and the coverage before. -/
theorem score_lt_iff (hm : before ≤ m) (hmn : m < n) (hn : n ≤ total) :
    score total before m < score total before n ↔
      m.toNat + n.toNat < total.toNat + before.toNat := by
  have hdistance : 0 < n.toNat - m.toNat := Nat.sub_pos_of_lt (UInt32.lt_iff_toNat_lt.1 hmn)
  rw [UInt64.lt_iff_toNat_lt]
  exact lt_iff_of_add_mul_eq hdistance (toNat_score_add hm (UInt32.le_of_lt hmn) hn)

/-- More coverage is worth less as soon as both coverages together exceed all blocks and the
coverage before. -/
theorem score_gt_iff (hm : before ≤ m) (hmn : m < n) (hn : n ≤ total) :
    score total before n < score total before m ↔
      total.toNat + before.toNat < m.toNat + n.toNat := by
  have hdistance : 0 < n.toNat - m.toNat := Nat.sub_pos_of_lt (UInt32.lt_iff_toNat_lt.1 hmn)
  rw [UInt64.lt_iff_toNat_lt]
  exact lt_iff_of_add_mul_eq hdistance (toNat_score_add hm (UInt32.le_of_lt hmn) hn).symm

/-- Of two shares above the earlier one, the one nearer to the crest scores higher. -/
theorem score_le_iff (hm : before ≤ m) (hmn : m < n) (hn : n ≤ total) :
    score total before m ≤ score total before n ↔
      m.toNat + n.toNat ≤ total.toNat + before.toNat := by
  rw [← UInt64.not_lt, score_gt_iff hm hmn hn, Nat.not_lt]

/-- Two coverages are worth the same when the one is as far above the coverage before as the
other one is below all blocks. -/
theorem score_eq_iff (hm : before ≤ m) (hmn : m < n) (hn : n ≤ total) :
    score total before m = score total before n ↔
      m.toNat + n.toNat = total.toNat + before.toNat := by
  have hless := score_lt_iff hm hmn hn
  have hmore := score_gt_iff hm hmn hn
  rw [UInt64.lt_iff_toNat_lt] at hless hmore
  rw [← UInt64.toNat_inj]
  omega

/-- The last covered block has raised the score, or not changed it, just as long as twice
the blocks covered without it are less than all blocks and the coverage before. -/
theorem score_sub_one_le_iff {now : UInt32} (hbefore : before < now) (hnow : now ≤ total) :
    score total before (now - 1) ≤ score total before now ↔
      2 * (now.toNat - 1) < total.toNat + before.toNat := by
  have hlt := UInt32.lt_iff_toNat_lt.1 hbefore
  have hpred : (now - 1).toNat = now.toNat - 1 := by
    rw [UInt32.toNat_sub_of_le _ _ (UInt32.le_iff_toNat_le.2 (by simp; omega))]
    rfl
  rw [score_le_iff, hpred]
  · omega
  · rw [UInt32.le_iff_toNat_le, hpred]
    omega
  · rw [UInt32.lt_iff_toNat_lt, hpred]
    omega
  · exact hnow

/-! ## The peak -/

/-- Halfway between the blocks covered before and all blocks, rounded down. -/
def crest (total before : UInt32) : UInt32 := before + (total - before) / 2

/-- The crest, computed without overflow, lies halfway between the earlier share and the total. -/
theorem toNat_crest (h : before ≤ total) :
    (crest total before).toNat = (total.toNat + before.toNat) / 2 := by
  have hle := UInt32.le_iff_toNat_le.1 h
  have htotal : total.toNat < 4294967296 := total.toNat_lt
  have hhalf : ((total - before) / 2).toNat = (total.toNat - before.toNat) / 2 := by
    rw [UInt32.toNat_div, UInt32.toNat_sub_of_le _ _ h]
    rfl
  rw [crest, UInt32.toNat_add, hhalf, Nat.mod_eq_of_lt (by omega)]
  omega

/-- From `low` to `high` a quantity rises up to its `peak` and falls behind it.  Everywhere
else it is smaller than at the peak, but for the place right behind the peak, where it may be
the same. -/
structure Peaks (f : UInt32 → UInt64) (low high peak : UInt32) : Prop where
  low_le : low ≤ peak
  le_high : peak ≤ high
  rises : ∀ m n, low ≤ m → m < n → n ≤ peak → f m < f n
  falls : ∀ m n, peak < m → m < n → n ≤ high → f n < f m
  at_most : ∀ n, low ≤ n → n ≤ high → n ≠ peak →
    f n < f peak ∨ f n = f peak ∧ n.toNat = peak.toNat + 1

/-- The score has its peak at the crest. -/
theorem peaks_score (h : before ≤ total) :
    Peaks (score total before) before total (crest total before) := by
  have hle := UInt32.le_iff_toNat_le.1 h
  have hcrest := toNat_crest h
  have hlow : before ≤ crest total before := UInt32.le_iff_toNat_le.2 (by omega)
  have hhigh : crest total before ≤ total := UInt32.le_iff_toNat_le.2 (by omega)
  have hrises : ∀ m n, before ≤ m → m < n → n ≤ crest total before →
      score total before m < score total before n := by
    intro m n hm hmn hn
    rw [score_lt_iff hm hmn (UInt32.le_trans hn hhigh)]
    rw [UInt32.lt_iff_toNat_lt] at hmn
    rw [UInt32.le_iff_toNat_le] at hn
    omega
  refine ⟨hlow, hhigh, hrises, ?_, ?_⟩
  · intro m n hm hmn hn
    rw [score_gt_iff (UInt32.le_trans hlow (UInt32.le_of_lt hm)) hmn hn]
    rw [UInt32.lt_iff_toNat_lt] at hm hmn
    omega
  · intro n hn htotal hne
    rcases UInt32.lt_or_lt_of_ne hne with hbelow | hbehind
    · exact Or.inl (hrises n _ hn hbelow (UInt32.le_refl _))
    · rw [score_gt_iff hlow hbehind htotal, eq_comm, score_eq_iff hlow hbehind htotal]
      rw [UInt32.lt_iff_toNat_lt] at hbehind
      omega

/-! ## Monotonicity -/

/-- A function with more blocks is worth at least as much. -/
theorem score_mono_total {more : UInt32} (h : total ≤ more) (before now : UInt32) :
    score total before now ≤ score more before now := by
  have hle := UInt32.le_iff_toNat_le.1 h
  rw [UInt64.le_iff_toNat_le, toNat_score, toNat_score]
  exact Nat.mul_le_mul_left _ (by omega)

/-- A function of which more was covered before is worth at most as much. -/
theorem score_anti_before {later : UInt32} (h : before ≤ later) (total now : UInt32) :
    score total later now ≤ score total before now := by
  have hle := UInt32.le_iff_toNat_le.1 h
  rw [UInt64.le_iff_toNat_le, toNat_score, toNat_score]
  exact Nat.mul_le_mul_right _ (by omega)

end Coverages

/-! ## The shape of the score -/

/-- A score is computed without overflow and is at least one.  A further covered block does
not lower it just as long as twice the coverage without it is less than all blocks and the
coverage before, so that it rises to a peak halfway and then falls.  It does not fall when
there are more blocks, and does not rise when more was covered before. -/
theorem score_peaked (total before now : UInt32) :
    ExactScore total before now ∧ 1 ≤ score total before now ∧
    (before < now → now ≤ total →
      (score total before (now - 1) ≤ score total before now ↔
        2 * (now.toNat - 1) < total.toNat + before.toNat)) ∧
    (before ≤ total → Peaks (score total before) before total (crest total before)) ∧
    (∀ more, total ≤ more → score total before now ≤ score more before now) ∧
    (∀ later, before ≤ later → score total later now ≤ score total before now) := by
  refine ⟨exactScore total before now, ?_, score_sub_one_le_iff, peaks_score, ?_, ?_⟩
  · exact UInt64.le_iff_toNat_le.2 (score_pos total before now)
  · exact fun more hmore => score_mono_total hmore before now
  · exact fun later hlater => score_anti_before hlater total now

/-- Of the largest function nothing was covered before: its two middle coverages are both
worth the most, and one more block is worth less. -/
theorem score_peaked_largest :
    score 4294967295 0 2147483647 ≤ score 4294967295 0 2147483648 ∧
      ¬ score 4294967295 0 2147483648 ≤ score 4294967295 0 2147483649 ∧
      Peaks (score 4294967295 0) 0 4294967295 2147483647 ∧
      (score 4294967295 0 2147483648).toNat = 2147483649 * 2147483648 ∧
      score 4294967294 0 2147483648 ≤ score 4294967295 0 2147483648 ∧
      score 4294967295 1 2147483648 ≤ score 4294967295 0 2147483648 := by
  obtain ⟨hexact, -, hmiddle, hpeak, -, hlater⟩ := score_peaked 4294967295 0 2147483648
  obtain ⟨-, -, hnext, -⟩ := score_peaked 4294967295 0 2147483649
  obtain ⟨-, -, -, -, hmore, -⟩ := score_peaked 4294967294 0 2147483648
  have hcrest : crest 4294967295 0 = 2147483647 := by decide
  refine ⟨(hmiddle (by decide) (by decide)).2 (by decide), ?_, ?_, ?_, ?_, ?_⟩
  · exact fun hle => absurd ((hnext (by decide) (by decide)).1 hle) (by decide)
  · exact hcrest ▸ hpeak (by decide)
  · exact hexact.toNat_eq.trans (by decide)
  · exact hmore 4294967295 (by decide)
  · exact hlater 1 (by decide)

/-! ## The limit -/

namespace ScoreStats

/-- The middle of a list of positive numbers is positive. -/
theorem middle_pos {sorted : List Nat} (hpos : ∀ s ∈ sorted, 1 ≤ s) (hne : sorted ≠ []) :
    1 ≤ middle sorted := by
  have hlength : 0 < sorted.length := List.length_pos_iff.2 hne
  have hentry : ∀ i < sorted.length, 1 ≤ sorted[i]?.getD 0 := by
    intro i hi
    rw [List.getElem?_eq_getElem hi]
    exact hpos _ (List.getElem_mem hi)
  simp only [middle]
  split
  · rename_i heven
    have hlow := hentry (sorted.length / 2 - 1) (by omega)
    have hhigh := hentry (sorted.length / 2) (by omega)
    have hsum : 2 ≤ Weight.add (sorted[sorted.length / 2 - 1]?.getD 0)
        (sorted[sorted.length / 2]?.getD 0) :=
      Nat.le_min.2 ⟨by omega, by decide⟩
    omega
  · exact hentry _ (by omega)

/-- The limit makes no score vanish. -/
theorem limit_pos {scores : List Nat} (hpos : ∀ s ∈ scores, 1 ≤ s) (hne : scores ≠ [])
    (cap : ScoreCap) {score : Nat} (hscore : 1 ≤ score) :
    1 ≤ (ofScores scores).limit cap score := by
  cases cap with
  | none => exact hscore
  | medianPlusMean =>
    have hperm := List.mergeSort_perm scores fun a b => decide (a ≤ b)
    have hmiddle : 1 ≤ (ofScores scores).median := by
      refine middle_pos ?_ ?_
      · intro s hs
        exact hpos s (hperm.mem_iff.1 hs)
      · intro hnil
        rw [hnil] at hperm
        exact hne hperm.symm.eq_nil
    refine Nat.le_min.2 ⟨hscore, Nat.le_min.2 ⟨Nat.le_add_right_of_le hmiddle, by decide⟩⟩

/-- A limit only lowers a score. -/
theorem limit_le (stats : ScoreStats) (cap : ScoreCap) (score : Nat) :
    stats.limit cap score ≤ score := by
  cases cap with
  | none => exact Nat.le_refl _
  | medianPlusMean => exact Nat.min_le_left _ _

end ScoreStats

namespace CallGraph

variable {g : CallGraph}

/-! ## The scores before and after the limit -/

/-- The score of a function before the limit; zero for a number without a
function. -/
def rawScoreOf (g : CallGraph) (node : Nat) : Nat := ((g.vertex? node).map (·.rawScore)).getD 0

/-- The score that a function gets. -/
def limitedScore (g : CallGraph) (cap : ScoreCap) (node : Nat) : Nat :=
  (ScoreStats.ofScores (g.nodes.map g.rawScoreOf)).limit cap (g.rawScoreOf node)

/-- The raw scores are those of the nodes, in their order. -/
theorem rawScores_eq (g : CallGraph) : g.rawScores = g.nodes.map fun n => (n, g.rawScoreOf n) := by
  rw [rawScores, vertices, List.map_filterMap, ← List.filterMap_eq_map]
  refine List.filterMap_congr ?_
  intro node hnode
  obtain ⟨v, hv⟩ := Option.isSome_iff_exists.1 (mem_nodes.1 hnode)
  simp [rawScoreOf, hv]

/-- The raw score of a function is positive. -/
theorem rawScoreOf_pos {node : Nat} (h : node ∈ g.nodes) : 1 ≤ g.rawScoreOf node := by
  obtain ⟨v, hv⟩ := Option.isSome_iff_exists.1 (mem_nodes.1 h)
  rw [rawScoreOf, hv]
  exact v.rawScore_pos

/-- A raw score does not pass the ceiling. -/
theorem rawScoreOf_le (g : CallGraph) (node : Nat) : g.rawScoreOf node ≤ Weight.ceiling := by
  rw [rawScoreOf]
  cases g.vertex? node with
  | none => exact Nat.zero_le _
  | some v => exact Nat.le_of_lt_succ (UInt64.toNat_lt _)

/-- Limiting leaves a positive score positive. -/
theorem limitedScore_pos (cap : ScoreCap) {node : Nat} (h : node ∈ g.nodes) :
    1 ≤ g.limitedScore cap node := by
  refine ScoreStats.limit_pos ?_ ?_ cap (rawScoreOf_pos h)
  · intro s hs
    obtain ⟨other, hother, rfl⟩ := List.mem_map.1 hs
    exact rawScoreOf_pos hother
  · exact List.ne_nil_of_mem (List.mem_map_of_mem h)

/-- A limited score does not pass the ceiling. -/
theorem limitedScore_le (g : CallGraph) (cap : ScoreCap) (node : Nat) :
    g.limitedScore cap node ≤ Weight.ceiling :=
  Nat.le_trans (ScoreStats.limit_le _ _ _) (g.rawScoreOf_le node)

/-! ## Entering scores -/

/-- The listed nodes take their scores and the others stay as they are. -/
theorem vertex?_foldl_setScore (g : CallGraph) (f : Nat → Nat) (nodes : List Nat) (node : Nat) :
    ((nodes.map fun n => (n, f n)).foldl setScore g).vertex? node =
      if node ∈ nodes then
        (g.vertex? node).map (·.annotate fun notes => { notes with score := f node })
      else g.vertex? node := by
  induction nodes generalizing g with
  | nil => rfl
  | cons first nodes ih =>
    rw [List.map_cons, List.foldl_cons, ih, setScore, vertex?_annotate]
    by_cases hfirst : first = node
    · subst hfirst
      simp only [if_true, List.mem_cons_self, Option.map_map]
      cases g.vertex? first with
      | none => simp
      | some v => simp [Vertex.annotate]
    · simp [hfirst, Ne.symm hfirst]

/-- Setting scores keeps the shape of the graph. -/
theorem sameShape_foldl_setScore (g : CallGraph) (entries : List (Nat × Nat)) :
    SameShape g (entries.foldl setScore g) := by
  induction entries generalizing g with
  | nil => exact .refl g
  | cons entry entries ih => exact (sameShape_annotate g entry.1 _).trans (ih _)

/-- The assignment of scores, as total and as marks on the graph. -/
theorem assignScores_eq (g : CallGraph) (cap : ScoreCap) :
    (g.assignScores cap).1.total = Weight.sum (g.nodes.map (g.limitedScore cap)) ∧
      (g.assignScores cap).2 =
        (g.nodes.map fun n => (n, g.limitedScore cap n)).foldl setScore g := by
  have hraw : g.rawScores.map (·.2) = g.nodes.map g.rawScoreOf := by
    rw [rawScores_eq, List.map_map]
    rfl
  simp only [assignScores, hraw]
  simp only [rawScores_eq, List.map_map]
  exact ⟨rfl, rfl⟩

/-- The scores that are assigned, and nothing else, are entered. -/
theorem vertex?_assignScores (g : CallGraph) (cap : ScoreCap) (node : Nat) :
    (g.assignScores cap).2.vertex? node = (g.vertex? node).map
      (·.annotate fun notes => { notes with score := g.limitedScore cap node }) := by
  rw [(g.assignScores_eq cap).2, vertex?_foldl_setScore]
  split
  · rfl
  · rename_i hnode
    rw [mem_nodes, Option.not_isSome_iff_eq_none] at hnode
    rw [hnode]
    rfl

/-- Assigning scores keeps the shape of the graph. -/
theorem sameShape_assignScores (g : CallGraph) (cap : ScoreCap) :
    SameShape g (g.assignScores cap).2 := by
  rw [(g.assignScores_eq cap).2]
  exact sameShape_foldl_setScore g _

/-- Each function is assigned its limited score. -/
theorem scoreOf_assignScores {cap : ScoreCap} {node : Nat} (h : node ∈ g.nodes) :
    (g.assignScores cap).2.scoreOf node = g.limitedScore cap node := by
  obtain ⟨v, hv⟩ := Option.isSome_iff_exists.1 (mem_nodes.1 h)
  simp [scoreOf, vertex?_assignScores, hv]

/-- An assigned score does not pass the ceiling. -/
theorem scoreOf_assignScores_le (g : CallGraph) (cap : ScoreCap) (node : Nat) :
    (g.assignScores cap).2.scoreOf node ≤ Weight.ceiling := by
  by_cases h : node ∈ g.nodes
  · rw [scoreOf_assignScores h]
    exact g.limitedScore_le cap node
  · rw [mem_nodes, Option.not_isSome_iff_eq_none] at h
    simp [scoreOf, vertex?_assignScores, h]

/-- The total is the saturated sum of the scores that are entered. -/
theorem total_assignScores (g : CallGraph) (cap : ScoreCap) :
    (g.assignScores cap).1.total =
      Weight.sum (g.nodes.map (g.assignScores cap).2.scoreOf) := by
  rw [(g.assignScores_eq cap).1]
  refine congrArg Weight.sum (List.map_congr_left ?_)
  intro node hnode
  exact (scoreOf_assignScores hnode).symm

/-- A graph with a function has something to hand out. -/
theorem total_assignScores_pos {node : Nat} (h : node ∈ g.nodes) (cap : ScoreCap) :
    1 ≤ (g.assignScores cap).1.total := by
  rw [(g.assignScores_eq cap).1, Weight.sum_eq_min]
  refine Nat.le_min.2 ⟨?_, by decide⟩
  exact Nat.le_trans (limitedScore_pos cap h)
    (List.le_sum_of_mem (List.mem_map_of_mem h))

/-! ## Everything but scores -/

/-- A graph without its scores. -/
def forgetScores (g : CallGraph) : CallGraph :=
  { g with slots := g.slots.map fun slot =>
      slot.map (·.annotate fun notes => { notes with score := 0 }) }

/-- A graph without its scores does not show that one was set. -/
theorem forgetScores_setScore (g : CallGraph) (entry : Nat × Nat) :
    (g.setScore entry).forgetScores = g.forgetScores := by
  have hslots : (g.setScore entry).forgetScores.slots = g.forgetScores.slots := by
    refine Array.ext_getElem? ?_
    intro i
    simp only [forgetScores, setScore, annotate, Array.getElem?_map, Array.getElem?_modify]
    split
    · cases g.slots[i]? with
      | none => rfl
      | some slot => cases slot <;> rfl
    · rfl
  exact congrArg (fun slots => { g with slots := slots }) hslots

/-- Assigning scores changes nothing but scores. -/
theorem forgetScores_assignScores (g : CallGraph) (cap : ScoreCap) :
    (g.assignScores cap).2.forgetScores = g.forgetScores := by
  rw [(g.assignScores_eq cap).2]
  generalize (g.nodes.map fun n => (n, g.limitedScore cap n)) = entries
  induction entries generalizing g with
  | nil => rfl
  | cons entry entries ih => rw [List.foldl_cons, ih, forgetScores_setScore]

end CallGraph

end FuzzCampaign

import FuzzCampaign.Proofs.Partition.Packing
import FuzzCampaign.Proofs.Partition.TreePlan
import Mathlib

/-!
# Tasks are evenly loaded

Packings are level: no bin is heavier than another one together with the item that came to
it last.  The lightest bin weighs at most the average, which bounds all of them.

The clusters of a tree are within an equal share of the scores, unless they are single
functions.  So the bound on their weights is the share or the largest score, and packing
adds at most that to the average.

Main definitions:

- `CallGraph.totalScore` and `CallGraph.topScore`: the sum of the scores entered in a
  graph, and the largest one.

Main results:

- `CallGraph.splitTree_even`: how heavy a task of the tree strategy can be.
-/

namespace FuzzCampaign

open Packing

namespace CallGraph

/-! ## Tasks of the tree strategy -/

/-- The sum of the scores that are entered in a graph. -/
def totalScore (g : CallGraph) : Nat := (g.nodes.map g.scoreOf).sum

/-- The largest score that is entered in a graph. -/
def topScore (g : CallGraph) : Nat := (g.nodes.map g.scoreOf).foldr max 0

theorem scoreOf_le_topScore {g : CallGraph} {node : Nat} (h : node ∈ g.nodes) :
    g.scoreOf node ≤ g.topScore :=
  List.le_max_of_le (List.mem_map_of_mem h) (Nat.le_refl _)

variable {g : CallGraph}

namespace TreePlan

variable {k : Nat} {sources : SourceIndex} {cap : ScoreCap} {tree : Arborescence}
  {bins : List (Bin Cluster)} {plan : PartitionPlan} {g' : CallGraph}

/-- A plan keeps the functions of the graph and their numbers. -/
theorem nodes_eq (h : TreePlan g k sources cap tree bins plan g') : g'.nodes = g.nodes := by
  have hcleared := congrArg nodes h.painted
  rw [(sameShape_clearColors g').nodes_eq, (sameShape_clearColors _).nodes_eq,
    (g.sameShape_assignScores cap).nodes_eq] at hcleared
  exact hcleared

/-- A cluster is within the share of a task, or it is one function. -/
theorem weight_cluster_le (h : TreePlan g k sources cap tree bins plan g') (hk : k ≠ 0)
    {bin : Bin Cluster} (hbin : bin ∈ bins) {c : Cluster} (hc : c ∈ bin.items) :
    c.weight ≤ max (shareOf (g.assignScores cap).1.total k) g'.topScore := by
  obtain ⟨top, hpiece⟩ := h.exists_piece hk hbin hc
  rcases hpiece.light with hshare | hsingle
  · exact Nat.le_trans hshare (Nat.le_max_left _ _)
  · have htop : top ∈ g.nodes := by
      refine (h.vertices_perm hk).mem_iff.1 ?_
      rw [h.tasks_eq, List.mem_flatMap]
      exact ⟨_, List.mem_map_of_mem hbin, List.mem_flatMap.2 ⟨c, hc, hpiece.top_mem⟩⟩
    rw [hpiece.weight_eq, hsingle, List.map_singleton,
      Weight.sum_singleton (g.scoreOf_assignScores_le cap top), ← h.scoreOf_eq top]
    rw [← h.nodes_eq] at htop
    exact Nat.le_trans (scoreOf_le_topScore htop) (Nat.le_max_right _ _)

/-- No task is heavier than another one by more than a cluster can be. -/
theorem weight_le (h : TreePlan g k sources cap tree bins plan g') (hk : k ≠ 0)
    {task other : Task} (htask : task ∈ plan.tasks) (hother : other ∈ plan.tasks) :
    task.weight ≤ other.weight +
      max (shareOf (g.assignScores cap).1.total k) g'.topScore := by
  rw [h.tasks_eq] at htask hother
  obtain ⟨bin, hbin, rfl⟩ := List.mem_map.1 htask
  obtain ⟨otherBin, hotherBin, rfl⟩ := List.mem_map.1 hother
  have hlevel : Level Cluster.weight bins := h.bins_eq ▸ level_balance _ _ k
  exact hlevel.weight_le (fun bin hbin c hc => h.weight_cluster_le hk hbin hc) hbin hotherBin

end TreePlan

/-- A task of the tree strategy weighs at most the average of all tasks, and on top of it the
share of a task or the largest score. -/
theorem splitTree_even (h : g.WellFormed)
    (hreach : ∀ v, g.hasNode v = true → g.Reaches g.entry v) {k : Nat} (hk : 1 ≤ k)
    (sources : SourceIndex) (cap : ScoreCap)
    (hfits : (g.splitTree k sources cap).2.totalScore < 2 ^ 64) :
    ∃ plan, (g.splitTree k sources cap).1 = .ok plan ∧ ∀ task ∈ plan.tasks,
      task.weight ≤ (g.splitTree k sources cap).2.totalScore / k +
        max ((g.splitTree k sources cap).2.totalScore ⌈/⌉ k)
          (g.splitTree k sources cap).2.topScore := by
  have hne : k ≠ 0 := Nat.ne_of_gt hk
  rcases h.splitTree_cases k sources cap with ⟨⟨v, hv, hout⟩, -⟩ | ⟨-, hzero, -⟩ |
    ⟨-, -, tree, bins, plan, g', heq, hplan⟩
  · exact absurd (hreach v hv) hout
  · exact absurd hzero hne
  rw [heq] at hfits ⊢
  refine ⟨plan, rfl, ?_⟩
  intro task htask
  have hhanded := hplan.handsOut hne
  have hscores : (g.nodes.map g'.scoreOf).sum = g'.totalScore := by
    rw [totalScore, hplan.nodes_eq]
  have hweights : (plan.tasks.map (·.weight)).sum = g'.totalScore := by
    rw [hhanded.sum_weights (hscores ▸ hfits), total_assignScores, ← funext hplan.scoreOf_eq,
      ← hscores]
    refine Weight.sum_eq_of_le ?_
    rw [hscores, Weight.ceiling]
    exact Nat.le_of_lt_succ hfits
  have htotal : (g.assignScores cap).1.total = g'.totalScore :=
    (hhanded.sum_weights (hscores ▸ hfits)).symm.trans hweights
  have hothers : ∀ other ∈ plan.tasks.map (·.weight),
      task.weight ≤ other + max (g'.totalScore ⌈/⌉ k) g'.topScore := by
    intro other hother
    obtain ⟨otherTask, hotherTask, rfl⟩ := List.mem_map.1 hother
    have hle := hplan.weight_le hne htask hotherTask
    rwa [htotal] at hle
  have haverage := le_average_add (List.ne_nil_of_mem (List.mem_map_of_mem htask)) hothers
  rwa [hweights, List.length_map, hhanded.length_tasks] at haverage

/-- An entry and the function it calls are worth one each, so that of two tasks none weighs
more than two. -/
theorem splitTree_even_call :
    (ofCall "main" "parse").WellFormed ∧
      ((ofCall "main" "parse").splitTree 2 {} .none).2.totalScore = 2 ∧
      ∃ plan, ((ofCall "main" "parse").splitTree 2 {} .none).1 = .ok plan ∧
        ∀ task ∈ plan.tasks, task.weight ≤ 2 := by
  have hne : "main" ≠ "parse" := by decide
  have hw : (ofCall "main" "parse").WellFormed := (built_ofCall _ _).wellFormed
  have htotal : ((ofCall "main" "parse").splitTree 2 {} .none).2.totalScore = 2 := by cbv
  have htop : ((ofCall "main" "parse").splitTree 2 {} .none).2.topScore = 1 := by cbv
  obtain ⟨plan, hplan, heven⟩ := splitTree_even hw (reaches_ofCall hne) (k := 2) (by decide) {}
    .none (by rw [htotal]; decide)
  rw [htotal, htop] at heven
  exact ⟨hw, htotal, plan, hplan, heven⟩

end CallGraph

end FuzzCampaign

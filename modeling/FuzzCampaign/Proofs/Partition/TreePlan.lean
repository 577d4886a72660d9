import FuzzCampaign.Partition.Plan
import FuzzCampaign.Proofs.Arborescence.CallTree
import FuzzCampaign.Proofs.Partition.Clustering
import FuzzCampaign.Proofs.Partition.Scoring

/-!
# Plans of the tree strategy

Two graphs without their colours are the same exactly when they agree in
everything but colours.  Painting a function or a call keeps the graph without
its colours, and so does painting one after another.

The tree strategy fails only when the entry misses a function or no tasks are
asked for.  Otherwise every function is handed out once: the clusters hold each
function once, and the bins hold each cluster once.  As long as the scores fit
into a word together, nothing is cut off, so that a task weighs as much as its
functions are worth.

Main definitions:

- `CallGraph.TreePlan`: what a plan of the tree strategy consists of.
- `CallGraph.HandsOut`: a plan hands out every function of a graph once.

Main results:

- `clearColors_paintBranch`: painting a function and its calls in the tree
  changes colours only.
- `scoreOf_of_clearColors_eq`: scores do not depend on colours.
- `CallGraph.WellFormed.splitTree_cases`: the three outcomes.
- `CallGraph.splitTree_hands_out`: when each occurs, and what it guarantees.
-/

namespace FuzzCampaign.CallGraph

/-! ## Painting changes colours only -/

variable {g g' : CallGraph}

@[simp] theorem clearColors_clearColors (g : CallGraph) :
    g.clearColors.clearColors = g.clearColors := by
  have hslots : g.clearColors.clearColors.slots = g.clearColors.slots := by
    refine Array.ext_getElem? ?_
    intro i
    simp only [clearColors, Array.getElem?_map]
    cases g.slots[i]? with
    | none => rfl
    | some slot => cases slot <;> rfl
  have harcs : g.clearColors.clearColors.arcs = g.clearColors.arcs := by
    simp [clearColors]
  exact congrArg₂ (fun slots arcs => { g with slots := slots, arcs := arcs }) hslots harcs

/-- A colour for a function is forgotten with all others. -/
@[simp] theorem clearColors_paint (color : Color) (g : CallGraph) (node : Nat) :
    (g.paint color node).clearColors = g.clearColors := by
  have hslots : (g.paint color node).clearColors.slots = g.clearColors.slots := by
    refine Array.ext_getElem? ?_
    intro i
    simp only [clearColors, paint, annotate, Array.getElem?_map, Array.getElem?_modify]
    split
    · cases g.slots[i]? with
      | none => rfl
      | some slot => cases slot <;> rfl
    · rfl
  exact congrArg (fun slots => { g.clearColors with slots := slots }) hslots

/-- A colour for a call is forgotten with all others. -/
@[simp] theorem clearColors_paintCall (color : Color) (caller : Nat) (g : CallGraph)
    (callee : Nat) : (paintCall color caller g callee).clearColors = g.clearColors := by
  unfold paintCall
  split
  · rename_i painted _
    have harcs : (g.modifyCall painted.index fun call =>
        { call with color := some color }).clearColors.arcs = g.clearColors.arcs := by
      simp only [clearColors, modifyCall, List.map_map]
      refine List.map_congr_left ?_
      intro arc _
      simp only [Function.comp_apply]
      split <;> rfl
    exact congrArg (fun arcs => { g.clearColors with arcs := arcs }) harcs
  · rfl

/-- Steps that change colours only can follow one another. -/
theorem clearColors_foldl {α : Type} {step : CallGraph → α → CallGraph}
    (hstep : ∀ g a, (step g a).clearColors = g.clearColors) (items : List α) (g : CallGraph) :
    (items.foldl step g).clearColors = g.clearColors := by
  induction items generalizing g with
  | nil => rfl
  | cons item items ih => rw [List.foldl_cons, ih, hstep]

@[simp] theorem clearColors_paintBranch (t : Arborescence) (color : Color) (g : CallGraph)
    (node : Nat) : (paintBranch t color g node).clearColors = g.clearColors := by
  rw [paintBranch, clearColors_foldl (clearColors_paintCall color node), clearColors_paint]

/-- Painting the functions of all tasks changes colours only. -/
theorem clearColors_foldl_paintBranch (t : Arborescence) (tasks : List (Task × Nat))
    (g : CallGraph) :
    (tasks.foldl (fun g (task, i) => task.vertices.foldl (paintBranch t (Color.ofTask i)) g)
      g).clearColors = g.clearColors :=
  clearColors_foldl (fun g entry =>
    clearColors_foldl (clearColors_paintBranch t (Color.ofTask entry.2)) entry.1.vertices g)
    tasks g

/-- Scores do not depend on colours. -/
theorem scoreOf_of_clearColors_eq (h : g'.clearColors = g.clearColors) (node : Nat) :
    g'.scoreOf node = g.scoreOf node := by
  have hclear : ∀ g : CallGraph, g.clearColors.scoreOf node = g.scoreOf node := by
    intro g
    rw [scoreOf, scoreOf, vertex?_clearColors]
    cases g.vertex? node <;> rfl
  rw [← hclear g', h, hclear g]

end FuzzCampaign.CallGraph

namespace FuzzCampaign.CallGraph

/-! ## Plans of the tree strategy -/

variable {g : CallGraph}

/-! ### Outcomes -/

/-- What the tree strategy builds its plan from: a tree of the graph, the scores,
and clusters that are packed into bins. -/
structure TreePlan (g : CallGraph) (k : Nat) (sources : SourceIndex) (cap : ScoreCap)
    (tree : Arborescence) (bins : List (Bin Cluster)) (plan : PartitionPlan) (g' : CallGraph) :
    Prop where
  callTree : g.CallTree tree
  bins_eq : bins = balance Cluster.weight
    (tree.clusters (g.assignScores cap).2.scoreOf (shareOf (g.assignScores cap).1.total k)) k
  tasks_eq : plan.tasks = bins.map ((g.assignScores cap).2.binTask sources)
  painted : g'.clearColors = (g.assignScores cap).2.clearColors

/-- The tree strategy misses a function, has no tasks to fill, or makes a plan. -/
theorem WellFormed.splitTree_cases (h : g.WellFormed) (k : Nat) (sources : SourceIndex)
    (cap : ScoreCap) :
    ((∃ v, g.hasNode v = true ∧ ¬ g.Reaches g.entry v) ∧
      g.splitTree k sources cap = (.error .notSpanning, g)) ∨
    ((∀ v, g.hasNode v = true → g.Reaches g.entry v) ∧ k = 0 ∧
      g.splitTree k sources cap = (.error (.capacity k (g.assignScores cap).1.total),
        (g.assignScores cap).2)) ∨
    ((∀ v, g.hasNode v = true → g.Reaches g.entry v) ∧ k ≠ 0 ∧
      ∃ tree bins plan g', g.splitTree k sources cap = (.ok plan, g') ∧
        TreePlan g k sources cap tree bins plan g') := by
  cases htree : g.arborescence? with
  | none =>
    refine Or.inl ⟨h.arborescence?_eq_none_iff.1 htree, ?_⟩
    simp only [splitTree, htree]
  | some tree =>
    have hreach : ∀ v, g.hasNode v = true → g.Reaches g.entry v := by
      intro v hv
      by_contra hout
      rw [h.arborescence?_eq_none_iff.2 ⟨v, hv, hout⟩] at htree
      exact absurd htree (by simp)
    have htotal : (g.assignScores cap).1.total ≠ 0 :=
      Nat.ne_of_gt (total_assignScores_pos h.entry_mem_nodes cap)
    by_cases hk : k = 0
    · refine Or.inr (Or.inl ⟨hreach, hk, ?_⟩)
      simp only [splitTree, htree, hk, true_or, if_true]
    · obtain ⟨plan, g', heq, htasks, hpainted⟩ : ∃ plan g',
          g.splitTree k sources cap = (.ok plan, g') ∧
          plan.tasks = (balance Cluster.weight (tree.clusters (g.assignScores cap).2.scoreOf
            (shareOf (g.assignScores cap).1.total k)) k).map
              ((g.assignScores cap).2.binTask sources) ∧
          g'.clearColors = (g.assignScores cap).2.clearColors := by
        simp only [splitTree, htree, hk, htotal, or_self, if_false]
        refine ⟨_, _, rfl, rfl, ?_⟩
        rw [clearColors_foldl_paintBranch, clearColors_clearColors]
      exact Or.inr (Or.inr ⟨hreach, hk, tree, _, plan, g', heq, h.callTree htree, rfl, htasks,
        hpainted⟩)

/-! ### What a plan hands out -/

/-- The loads of groups add up to the load of all their members. -/
theorem sum_map_sum {α : Type} (members : α → List Nat) (worth : Nat → Nat) (groups : List α) :
    Weight.sum (groups.map fun group => Weight.sum ((members group).map worth)) =
      Weight.sum ((groups.flatMap members).map worth) := by
  induction groups with
  | nil => rfl
  | cons group groups ih =>
    have hsplit := Weight.sum_append [Weight.sum ((members group).map worth)]
      (groups.map fun group => Weight.sum ((members group).map worth))
    rw [List.singleton_append, Weight.sum_singleton (Weight.sum_le_ceiling _)] at hsplit
    rw [List.map_cons, hsplit, ih, List.flatMap_cons, List.map_append, Weight.sum_append]

namespace TreePlan

variable {k : Nat} {sources : SourceIndex} {cap : ScoreCap} {tree : Arborescence}
  {bins : List (Bin Cluster)} {plan : PartitionPlan} {g' : CallGraph}

theorem length_tasks (h : TreePlan g k sources cap tree bins plan g') : plan.tasks.length = k := by
  rw [h.tasks_eq, h.bins_eq, List.length_map, length_balance]

/-- The bins together hold every cluster once. -/
theorem bins_perm (h : TreePlan g k sources cap tree bins plan g') (hk : k ≠ 0) :
    (bins.flatMap (·.items)).Perm (tree.clusters (g.assignScores cap).2.scoreOf
      (shareOf (g.assignScores cap).1.total k)) := by
  rw [h.bins_eq]
  exact balance_perm hk _

theorem exists_piece (h : TreePlan g k sources cap tree bins plan g') (hk : k ≠ 0) {bin : Bin Cluster}
    (hbin : bin ∈ bins) {c : Cluster} (hc : c ∈ bin.items) :
    ∃ top, Piece tree (g.assignScores cap).2.scoreOf (shareOf (g.assignScores cap).1.total k)
      top c :=
  h.callTree.spans.exists_piece (g.scoreOf_assignScores_le cap)
    ((h.bins_perm hk).mem_iff.1 (List.mem_flatMap.2 ⟨bin, hbin, hc⟩))

/-- The tasks together hold every function once. -/
theorem vertices_perm (h : TreePlan g k sources cap tree bins plan g') (hk : k ≠ 0) :
    (plan.tasks.flatMap (·.vertices)).Perm g.nodes := by
  have hflat : plan.tasks.flatMap (·.vertices) =
      (bins.flatMap (·.items)).flatMap (·.vertices) := by
    rw [h.tasks_eq, List.flatMap_map, List.flatMap_assoc]
    rfl
  rw [hflat]
  exact ((h.bins_perm hk).flatMap_right _).trans
    (h.callTree.spans.clusters_perm (g.scoreOf_assignScores_le cap))

/-- A task weighs what its functions are worth, cut off at the largest word. -/
theorem weight_eq (h : TreePlan g k sources cap tree bins plan g') (hk : k ≠ 0) {task : Task}
    (htask : task ∈ plan.tasks) :
    task.weight = Weight.sum (task.vertices.map (g.assignScores cap).2.scoreOf) := by
  rw [h.tasks_eq, List.mem_map] at htask
  obtain ⟨bin, hbin, rfl⟩ := htask
  have hcluster : ∀ c ∈ bin.items,
      c.weight = Weight.sum (c.vertices.map (g.assignScores cap).2.scoreOf) := by
    intro c hc
    obtain ⟨top, hpiece⟩ := h.exists_piece hk hbin hc
    exact hpiece.weight_eq
  have hbound : ∀ c ∈ tree.clusters (g.assignScores cap).2.scoreOf
      (shareOf (g.assignScores cap).1.total k), c.weight ≤ Weight.ceiling := by
    intro c hc
    obtain ⟨top, hpiece⟩ := h.callTree.spans.exists_piece (g.scoreOf_assignScores_le cap) hc
    rw [hpiece.weight_eq]
    exact Weight.sum_le_ceiling _
  have hweight : bin.weight = Weight.sum (bin.items.map Cluster.weight) := by
    rw [h.bins_eq] at hbin
    exact weight_of_mem_balance hbound hbin
  rw [binTask, hweight, List.map_congr_left hcluster]
  exact sum_map_sum Cluster.vertices _ bin.items

theorem scoreOf_eq (h : TreePlan g k sources cap tree bins plan g') (node : Nat) :
    g'.scoreOf node = (g.assignScores cap).2.scoreOf node :=
  scoreOf_of_clearColors_eq h.painted node

end TreePlan

/-- A plan hands out every function of a graph once, and its weights are exact when
the scores entered in `g'` fit into a word together. -/
structure HandsOut (g : CallGraph) (k total : Nat) (plan : PartitionPlan) (g' : CallGraph) :
    Prop where
  length_tasks : plan.tasks.length = k
  vertices_perm : (plan.tasks.flatMap (·.vertices)).Perm g.nodes
  weight_eq : (g.nodes.map g'.scoreOf).sum < 2 ^ 64 →
    ∀ task ∈ plan.tasks, task.weight = (task.vertices.map g'.scoreOf).sum
  sum_weights : (g.nodes.map g'.scoreOf).sum < 2 ^ 64 → (plan.tasks.map (·.weight)).sum = total

theorem TreePlan.handsOut {k : Nat} {sources : SourceIndex} {cap : ScoreCap} {tree : Arborescence}
    {bins : List (Bin Cluster)} {plan : PartitionPlan} {g' : CallGraph}
    (h : TreePlan g k sources cap tree bins plan g') (hk : k ≠ 0) :
    HandsOut g k (g.assignScores cap).1.total plan g' := by
  have hscore : g'.scoreOf = (g.assignScores cap).2.scoreOf := funext h.scoreOf_eq
  have hsum : (plan.tasks.map fun task => (task.vertices.map g'.scoreOf).sum).sum =
      (g.nodes.map g'.scoreOf).sum := by
    rw [← sum_map_flatMap]
    exact ((h.vertices_perm hk).map _).sum_eq
  have hexact : (g.nodes.map g'.scoreOf).sum < 2 ^ 64 →
      ∀ task ∈ plan.tasks, task.weight = (task.vertices.map g'.scoreOf).sum := by
    intro hfits task htask
    have hle : (task.vertices.map g'.scoreOf).sum ≤ (g.nodes.map g'.scoreOf).sum := by
      rw [← hsum]
      exact List.le_sum_of_mem (List.mem_map_of_mem htask)
    rw [h.weight_eq hk htask, ← hscore]
    refine Weight.sum_eq_of_le ?_
    rw [Weight.ceiling]
    omega
  refine ⟨h.length_tasks, h.vertices_perm hk, hexact, ?_⟩
  intro hfits
  rw [List.map_congr_left (hexact hfits), hsum, total_assignScores, ← hscore]
  refine (Weight.sum_eq_of_le ?_).symm
  rw [Weight.ceiling]
  omega

/-- The tree strategy complains about missed functions exactly when the entry
misses one, about capacity exactly when it misses none and no tasks are asked
for, and otherwise hands out every function once.  A failure changes nothing but
scores. -/
theorem splitTree_hands_out (h : g.WellFormed) (k : Nat) (sources : SourceIndex)
    (cap : ScoreCap) :
    ((g.splitTree k sources cap).1 = .error .notSpanning ↔
      ∃ v, g.hasNode v = true ∧ ¬ g.Reaches g.entry v) ∧
    ((∃ tasks total, (g.splitTree k sources cap).1 = .error (.capacity tasks total)) ↔
      (∀ v, g.hasNode v = true → g.Reaches g.entry v) ∧ k = 0) ∧
    ((∀ v, g.hasNode v = true → g.Reaches g.entry v) → k ≠ 0 →
      ∃ plan, (g.splitTree k sources cap).1 = .ok plan ∧
        HandsOut g k (g.assignScores cap).1.total plan (g.splitTree k sources cap).2) ∧
    (∀ e, (g.splitTree k sources cap).1 = .error e →
      (g.splitTree k sources cap).2.forgetScores = g.forgetScores) := by
  rcases h.splitTree_cases k sources cap with ⟨hout, heq⟩ | ⟨hreach, hk, heq⟩ |
    ⟨hreach, hk, tree, bins, plan, g', heq, hplan⟩
  · have hnot : ¬ ∀ v, g.hasNode v = true → g.Reaches g.entry v := by
      intro hreach
      obtain ⟨v, hv, hmissed⟩ := hout
      exact hmissed (hreach v hv)
    rw [heq]
    exact ⟨iff_of_true rfl hout, iff_of_false (by simp) fun hboth => hnot hboth.1,
      fun hreach => absurd hreach hnot, fun _ _ => rfl⟩
  · have hnot : ¬ ∃ v, g.hasNode v = true ∧ ¬ g.Reaches g.entry v := by
      rintro ⟨v, hv, hmissed⟩
      exact hmissed (hreach v hv)
    rw [heq]
    exact ⟨iff_of_false (by simp) hnot, iff_of_true ⟨_, _, rfl⟩ ⟨hreach, hk⟩,
      fun _ hne => absurd hk hne, fun _ _ => g.forgetScores_assignScores cap⟩
  · have hnot : ¬ ∃ v, g.hasNode v = true ∧ ¬ g.Reaches g.entry v := by
      rintro ⟨v, hv, hmissed⟩
      exact hmissed (hreach v hv)
    rw [heq]
    exact ⟨iff_of_false (by simp) hnot, iff_of_false (by simp) fun hboth => hk hboth.2,
      fun _ _ => ⟨plan, rfl, hplan.handsOut hk⟩, by simp⟩

/-- An entry and the function it calls are handed out to two tasks. -/
theorem splitTree_hands_out_call :
    (ofCall "main" "parse").WellFormed ∧
      ∃ plan, ((ofCall "main" "parse").splitTree 2 {} .none).1 = .ok plan ∧
        HandsOut (ofCall "main" "parse") 2 ((ofCall "main" "parse").assignScores .none).1.total
          plan ((ofCall "main" "parse").splitTree 2 {} .none).2 := by
  have hne : "main" ≠ "parse" := by decide
  have hw : (ofCall "main" "parse").WellFormed := (built_ofCall _ _).wellFormed
  exact ⟨hw, (splitTree_hands_out hw 2 {} .none).2.2.1 (reaches_ofCall hne) (by decide)⟩

end FuzzCampaign.CallGraph

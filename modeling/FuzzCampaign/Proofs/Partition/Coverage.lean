import FuzzCampaign.Proofs.Observation
import FuzzCampaign.Proofs.Partition.Foothold
import Mathlib.Order.Monotone.Basic

/-!
# Both strategies hand out every function

The ranges of the naive strategy tile the list of functions: each one starts where the
one before it ends, the first one starts with the first function, and the last one ends
with the last function.  When there are more ranges than functions, those at the end are
empty.

When the entry reaches every function and there is at least one task to fill, a graph
can be cut by either strategy.  The plan has as many tasks as were asked for, and
together they oblige every function that the source index knows.

Main definitions:

- `CallGraph.RangePlan`: what a plan of the naive strategy hands out.
- `CallGraph.Covers`: the tasks of a plan leave out no function.

Main results:

- `rangeStart_succ`: how long a range is.
- `flatMap_slice`: the ranges one after another are the whole list.
- `splitNaive_ranges`: what the naive strategy answers.
- `RangePlan.covers` and `TreePlan.covers`: no function that the source index knows is
  left out.
- `WellFormed.exists_split`: a graph that is reached from its entry can be cut.
-/

namespace FuzzCampaign

/-- No obligation is listed twice. -/
theorem Obligation.nodup_arrange (obligations : List Obligation) :
    (Obligation.arrange obligations).Nodup :=
  (List.mergeSort_perm _ _).nodup_iff.2 (nodup_eraseDups _)

namespace CallGraph

variable {g : CallGraph}

/-! ## Ranges -/

theorem rangeStart_zero (n k : Nat) : rangeStart n k 0 = 0 := by simp [rangeStart]

/-- The last range ends with the last function. -/
theorem rangeStart_self (n : Nat) {k : Nat} (hk : k ≠ 0) : rangeStart n k k = n := by
  rw [rangeStart, Nat.min_eq_right (Nat.le_of_lt (Nat.mod_lt n (Nat.pos_of_ne_zero hk)))]
  exact Nat.div_add_mod n k

/-- The first ranges are one longer than the others. -/
theorem rangeStart_succ (n k i : Nat) :
    rangeStart n k (i + 1) = rangeStart n k i + if i < n % k then n / k + 1 else n / k := by
  unfold rangeStart
  rw [Nat.succ_mul]
  split <;> omega

theorem rangeStart_le_succ (n k i : Nat) : rangeStart n k i ≤ rangeStart n k (i + 1) := by
  rw [rangeStart_succ]
  exact Nat.le_add_right _ _

/-- No range starts behind the last function. -/
theorem rangeStart_le (n : Nat) {k i : Nat} (hk : k ≠ 0) (hi : i ≤ k) : rangeStart n k i ≤ n :=
  calc rangeStart n k i ≤ rangeStart n k k := monotone_nat_of_le_succ (rangeStart_le_succ n k) hi
    _ = n := rangeStart_self n hk

theorem length_slice (nodes : List Nat) {k i : Nat} (hi : i < k) :
    (slice nodes k i).length =
      if i < nodes.length % k then nodes.length / k + 1 else nodes.length / k := by
  have hend := rangeStart_le nodes.length (i := i + 1) (by omega : k ≠ 0) hi
  have hnext := rangeStart_succ nodes.length k i
  simp only [slice, List.length_take, List.length_drop]
  omega

/-- The first ranges one after another are the beginning of the list. -/
theorem flatMap_slice_range (nodes : List Nat) (k m : Nat) :
    (List.range m).flatMap (slice nodes k) = nodes.take (rangeStart nodes.length k m) := by
  induction m with
  | zero => simp [rangeStart_zero]
  | succ m ih =>
    have hstep := Nat.add_sub_cancel' (rangeStart_le_succ nodes.length k m)
    rw [List.range_succ, List.flatMap_append, ih, List.flatMap_singleton, slice,
      ← List.take_add, hstep]

/-- All ranges one after another are the whole list. -/
theorem flatMap_slice (nodes : List Nat) {k : Nat} (hk : k ≠ 0) :
    (List.range k).flatMap (slice nodes k) = nodes := by
  rw [flatMap_slice_range, rangeStart_self _ hk, List.take_length]

/-! ## What is handed out -/

/-- A plan hands out consecutive ranges of the functions, the longer ones first. -/
structure RangePlan (g : CallGraph) (k : Nat) (sources : SourceIndex) (plan : PartitionPlan) :
    Prop where
  length_tasks : plan.tasks.length = k
  vertices_eq : plan.tasks.flatMap (·.vertices) = g.nodes
  length_vertices : ∀ i task, plan.tasks[i]? = some task → task.vertices.length =
    if i < g.vertexCount % k then g.vertexCount / k + 1 else g.vertexCount / k
  /-- The bounds of every range are in order and within the list of functions. -/
  bounds : ∀ i task, plan.tasks[i]? = some task →
    rangeStart g.vertexCount k i ≤ rangeStart g.vertexCount k (i + 1) ∧
      rangeStart g.vertexCount k (i + 1) ≤ g.vertexCount ∧ task.vertices = slice g.nodes k i
  weight_eq : ∀ task ∈ plan.tasks, task.weight = task.vertices.length
  nodup_obligations : ∀ task ∈ plan.tasks, task.obligations.Nodup
  mem_obligations_iff : ∀ task ∈ plan.tasks, ∀ o, o ∈ task.obligations ↔
    ∃ node ∈ task.vertices, ∃ name, g.name? node = some name ∧
      ∃ location ∈ sources.values name, o = ⟨location.file, name⟩

/-- Every number of ranges can be handed out. -/
theorem exists_rangePlan (g : CallGraph) {k : Nat} (hk : k ≠ 0) (sources : SourceIndex) :
    ∃ plan, (g.splitNaive k sources).1 = .ok plan ∧ RangePlan g k sources plan := by
  refine ⟨_, by rw [splitNaive, if_neg hk], ?_⟩
  have htask : ∀ i task, (((List.range k).map (slice g.nodes k)).map
      (g.sliceTask sources))[i]? = some task →
      i < k ∧ task = g.sliceTask sources (slice g.nodes k i) := by
    intro i task h
    have hi : i < k := by simpa using (List.getElem?_eq_some_iff.1 h).1
    simp only [List.getElem?_map, List.getElem?_range hi, Option.map_some,
      Option.some.injEq] at h
    exact ⟨hi, h.symm⟩
  have hmem : ∀ task ∈ ((List.range k).map (slice g.nodes k)).map (g.sliceTask sources),
      ∃ nodes, task = g.sliceTask sources nodes := by
    intro task h
    obtain ⟨nodes, -, rfl⟩ := List.mem_map.1 h
    exact ⟨nodes, rfl⟩
  refine ⟨?_, ?_, ?_, ?_, ?_, ?_, ?_⟩
  · simp
  · simp only [List.map_map, List.flatMap_map]
    exact flatMap_slice g.nodes hk
  · intro i task h
    obtain ⟨hi, rfl⟩ := htask i task h
    exact length_slice g.nodes hi
  · intro i task h
    obtain ⟨hi, rfl⟩ := htask i task h
    exact ⟨rangeStart_le_succ _ _ _, rangeStart_le _ hk hi, rfl⟩
  · intro task h
    obtain ⟨nodes, rfl⟩ := hmem task h
    rfl
  · intro task h
    obtain ⟨nodes, rfl⟩ := hmem task h
    exact Obligation.nodup_arrange _
  · intro task h o
    obtain ⟨nodes, rfl⟩ := hmem task h
    simp only [sliceTask, mem_obligations, mem_obligationsOf]

/-- Painting the functions of ranges changes colours only. -/
theorem clearColors_splitNaive (g : CallGraph) (k : Nat) (sources : SourceIndex) :
    (g.splitNaive k sources).2.clearColors = g.clearColors := by
  unfold splitNaive
  split
  · rfl
  · dsimp only
    rw [clearColors_foldl, clearColors_clearColors]
    exact fun g slice => clearColors_foldl (clearColors_paint _) slice.1 g

/-- Asked for no tasks, the naive strategy complains about capacity and changes nothing.
Otherwise it cuts the functions into that many ranges and changes nothing but colours. -/
theorem splitNaive_ranges (g : CallGraph) (k : Nat) (sources : SourceIndex) :
    (k = 0 → g.splitNaive k sources = (.error (.capacity 0 g.vertexCount), g)) ∧
      (1 ≤ k → ∃ plan g', g.splitNaive k sources = (.ok plan, g') ∧
        RangePlan g k sources plan ∧ g'.clearColors = g.clearColors) := by
  constructor
  · rintro rfl
    simp [splitNaive]
  · intro hk
    obtain ⟨plan, heq, hplan⟩ := g.exists_rangePlan (by omega : k ≠ 0) sources
    exact ⟨plan, (g.splitNaive k sources).2, Prod.ext heq rfl, hplan,
      g.clearColors_splitNaive k sources⟩

/-- Two functions are cut into three ranges, and into no ranges not at all. -/
theorem splitNaive_ranges_call :
    (ofCall "main" "parse").splitNaive 0 {} = (.error (.capacity 0 2), ofCall "main" "parse") ∧
      ∃ plan g', (ofCall "main" "parse").splitNaive 3 {} = (.ok plan, g') ∧
        plan.tasks.length = 3 ∧ plan.tasks.flatMap (·.vertices) = [0, 1] ∧
        (∀ task, plan.tasks[2]? = some task → task.vertices = []) ∧
        g'.clearColors = (ofCall "main" "parse").clearColors := by
  have hnodes : (ofCall "main" "parse").nodes = [0, 1] := by cbv
  have hcount : (ofCall "main" "parse").vertexCount = 2 := by rw [vertexCount, hnodes]; rfl
  refine ⟨?_, ?_⟩
  · rw [(splitNaive_ranges _ 0 {}).1 rfl, hcount]
  · obtain ⟨plan, g', heq, hplan, hclear⟩ :=
      (splitNaive_ranges (ofCall "main" "parse") 3 {}).2 (by decide)
    refine ⟨plan, g', heq, hplan.length_tasks, hnodes ▸ hplan.vertices_eq, ?_, hclear⟩
    intro task htask
    have hlength := hplan.length_vertices 2 task htask
    rw [hcount] at hlength
    exact List.eq_nil_of_length_eq_zero hlength

/-! ## Functions that the source index knows -/

/-- The tasks of a plan together oblige every function that the source index knows, in
every file that it lists for the function. -/
def Covers (g : CallGraph) (sources : SourceIndex) (plan : PartitionPlan) : Prop :=
  ∀ node name, g.name? node = some name → ∀ location ∈ sources.values name,
    ∃ task ∈ plan.tasks, ⟨location.file, name⟩ ∈ task.obligations

/-- The naive strategy obliges every function in the task that holds it. -/
theorem RangePlan.covers {k : Nat} {sources : SourceIndex} {plan : PartitionPlan}
    (h : RangePlan g k sources plan) : g.Covers sources plan := by
  intro node name hname location hlocation
  have hnode := mem_nodes.2 (hasNode_of_name? hname)
  rw [← h.vertices_eq, List.mem_flatMap] at hnode
  obtain ⟨task, htask, hv⟩ := hnode
  exact ⟨task, htask, (h.mem_obligations_iff task htask _).2
    ⟨node, hv, name, hname, location, hlocation, rfl⟩⟩

/-- The tree strategy obliges every function in the task that holds it. -/
theorem TreePlan.covers {k : Nat} {sources : SourceIndex} {cap : ScoreCap} {tree : Arborescence}
    {bins : List (Bin Cluster)} {plan : PartitionPlan} {g' : CallGraph}
    (h : TreePlan g k sources cap tree bins plan g') (hw : g.WellFormed) (hk : k ≠ 0)
    (hreach : ∀ v, g.hasNode v = true → g.Reaches g.entry v) : g.Covers sources plan := by
  intro node name hname location hlocation
  have hnode := mem_nodes.2 (hasNode_of_name? hname)
  rw [← (h.vertices_perm hk).mem_iff, h.tasks_eq, List.mem_flatMap] at hnode
  obtain ⟨task, htask, hv⟩ := hnode
  obtain ⟨bin, hbin, rfl⟩ := List.mem_map.1 htask
  obtain ⟨c, hc, hvc⟩ := List.mem_flatMap.1 hv
  obtain ⟨top, hpiece⟩ := h.exists_piece hk hbin hc
  obtain ⟨rest, hhead⟩ := hpiece.head
  obtain ⟨way, -, hfoothold⟩ := hw.exists_foothold hreach cap hhead
    (h.hasNode_of_mem hk hbin hc hpiece.top_mem)
  refine h.mem_obligations_iff.2 ⟨bin, hbin, c, hc, node, ?_,
    mem_obligationsOf.2 ⟨name, hname, location, hlocation, rfl⟩⟩
  rw [hfoothold]
  exact List.mem_append_right _ hvc

/-- A graph that is reached from its entry can be cut into any number of tasks. -/
theorem WellFormed.exists_split (h : g.WellFormed)
    (hreach : ∀ v, g.hasNode v = true → g.Reaches g.entry v) {k : Nat} (hk : k ≠ 0)
    (strategy : Strategy) (sources : SourceIndex) (cap : ScoreCap) :
    ∃ plan, (g.split strategy k sources cap).1 = .ok plan ∧ plan.tasks.length = k ∧
      g.Covers sources plan := by
  cases strategy with
  | naive =>
    obtain ⟨plan, heq, hplan⟩ := g.exists_rangePlan hk sources
    exact ⟨plan, heq, hplan.length_tasks, hplan.covers⟩
  | tree =>
    rcases h.splitTree_cases k sources cap with ⟨⟨v, hv, hout⟩, -⟩ | ⟨-, hzero, -⟩ |
      ⟨-, -, tree, bins, plan, g', heq, hplan⟩
    · exact absurd (hreach v hv) hout
    · exact absurd hzero hk
    · exact ⟨plan, congrArg Prod.fst heq, hplan.length_tasks, hplan.covers h hk hreach⟩

end CallGraph

end FuzzCampaign

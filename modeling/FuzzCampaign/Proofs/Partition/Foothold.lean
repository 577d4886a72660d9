import FuzzCampaign.Proofs.CallGraph.ShortestPaths
import FuzzCampaign.Proofs.Partition.TreePlan

/-!
# Every worker has a reachable foothold

A task obliges, for each of its clusters, the functions on a path from the entry
to the top of the cluster, and the cluster itself.  A cluster is connected in a
tree of calls, so that every function of a task is at the end of a call path
whose functions the task obliges.  Paths only visit functions of the graph, and
every function is in some cluster, so that all tasks together oblige what the
source index lists for the functions of the graph.

Main results:

- `CallGraph.mem_obligations`: what a list of functions obliges.
- `CallGraph.TreePlan.exists_path`: the path to a function of a task.
- `CallGraph.splitTree_footholds`: the paths of all tasks, and what the tasks
  oblige together.
-/

namespace FuzzCampaign.CallGraph

open Relation

variable {g : CallGraph}

/-! ## Obligations -/

theorem mem_obligationsOf {sources : SourceIndex} {node : Nat} {o : Obligation} :
    o ∈ g.obligationsOf sources node ↔ ∃ name, g.name? node = some name ∧
      ∃ location ∈ sources.values name, o = ⟨location.file, name⟩ := by
  rw [obligationsOf]
  cases g.name? node with
  | none => simp
  | some name =>
    simp only [List.mem_map, Option.some.injEq, exists_eq_left']
    constructor
    · rintro ⟨location, hlocation, rfl⟩
      exact ⟨location, hlocation, rfl⟩
    · rintro ⟨location, hlocation, rfl⟩
      exact ⟨location, hlocation, rfl⟩

theorem mem_obligations {sources : SourceIndex} {nodes : List Nat} {o : Obligation} :
    o ∈ g.obligations sources nodes ↔ ∃ node ∈ nodes, o ∈ g.obligationsOf sources node := by
  rw [obligations, Obligation.mem_arrange, List.mem_flatMap]

theorem name?_assignScores (g : CallGraph) (cap : ScoreCap) (node : Nat) :
    (g.assignScores cap).2.name? node = g.name? node := by
  rw [name?, name?, vertex?_assignScores, Option.map_map]
  rfl

theorem obligationsOf_assignScores (g : CallGraph) (cap : ScoreCap) (sources : SourceIndex)
    (node : Nat) :
    (g.assignScores cap).2.obligationsOf sources node = g.obligationsOf sources node := by
  rw [obligationsOf, obligationsOf, name?_assignScores]

theorem hasNode_of_name? {node : Nat} {name : String} (h : g.name? node = some name) :
    g.hasNode node = true := by
  rw [name?, Option.map_eq_some_iff] at h
  obtain ⟨v, hv, -⟩ := h
  exact hasNode_iff.2 ⟨v, hv⟩

theorem SameShape.calls_eq {g' : CallGraph} (h : SameShape g g') : g'.Calls = g.Calls := by
  funext a b
  rw [Calls, Calls, h.hasCall_eq]

/-! ## Paths to the functions of a task -/

/-- A cluster obliges its own functions and those on a path to its top. -/
theorem WellFormed.exists_foothold (h : g.WellFormed)
    (hreach : ∀ v, g.hasNode v = true → g.Reaches g.entry v) (cap : ScoreCap) {c : Cluster}
    {top : Nat} {rest : List Nat} (hhead : c.vertices = top :: rest)
    (htop : g.hasNode top = true) :
    ∃ path, g.CallPath g.entry top path ∧
      (g.assignScores cap).2.foothold c = path ++ c.vertices := by
  have hs := g.sameShape_assignScores cap
  have hreach' : (g.assignScores cap).2.Reaches g.entry top := by
    rw [Reaches, hs.calls_eq]
    exact hreach top htop
  obtain ⟨path, hpath, hcall⟩ := exists_shortestPath?
    (by rw [hs.hasNode_eq]; exact h.entry_mem) (by rw [hs.hasNode_eq]; exact htop) hreach'
  refine ⟨path, ⟨hcall.head, hcall.last, ?_⟩, ?_⟩
  · have hchain := hcall.chain
    rwa [hs.calls_eq] at hchain
  · simp only [foothold, hhead, hs.entry_eq, hpath, Option.getD_some]

namespace TreePlan

variable {k : Nat} {sources : SourceIndex} {cap : ScoreCap} {tree : Arborescence}
  {bins : List (Bin Cluster)} {plan : PartitionPlan} {g' : CallGraph}

/-- Inside its cluster every function is at the end of an obliged path. -/
theorem exists_path (h : TreePlan g k sources cap tree bins plan g') (hw : g.WellFormed)
    (hreach : ∀ v, g.hasNode v = true → g.Reaches g.entry v) {top v : Nat} {c : Cluster}
    (hpiece : Piece tree (g.assignScores cap).2.scoreOf
      (shareOf (g.assignScores cap).1.total k) top c) (htop : g.hasNode top = true)
    (hv : v ∈ c.vertices) :
    ∃ path, g.CallPath g.entry v path ∧ ∀ u ∈ path, u ∈ (g.assignScores cap).2.foothold c := by
  obtain ⟨rest, hhead⟩ := hpiece.head
  obtain ⟨way, hway, hfoothold⟩ := hw.exists_foothold hreach cap hhead htop
  rw [hfoothold]
  have hinside := hpiece.connected v hv
  clear hv
  induction hinside with
  | refl => exact ⟨way, hway, fun u hu => List.mem_append_left _ hu⟩
  | @tail p q _ hstep ih =>
    obtain ⟨path, hpath, hmem⟩ := ih
    refine ⟨path ++ [q], hpath.snoc (h.callTree.calls p q hstep.1), ?_⟩
    intro u hu
    rcases List.mem_append.1 hu with hu | hu
    · exact hmem u hu
    · rw [List.mem_singleton.1 hu]
      exact List.mem_append_right _ hstep.2

/-- What a task obliges are the obligations of the footholds of its clusters. -/
theorem mem_obligations_iff (h : TreePlan g k sources cap tree bins plan g') {o : Obligation} :
    (∃ task ∈ plan.tasks, o ∈ task.obligations) ↔ ∃ bin ∈ bins, ∃ c ∈ bin.items,
      ∃ u ∈ (g.assignScores cap).2.foothold c, o ∈ g.obligationsOf sources u := by
  rw [h.tasks_eq]
  constructor
  · rintro ⟨task, htask, ho⟩
    obtain ⟨bin, hbin, rfl⟩ := List.mem_map.1 htask
    rw [binTask, mem_obligations] at ho
    obtain ⟨u, hu, ho⟩ := ho
    obtain ⟨c, hc, hu⟩ := List.mem_flatMap.1 hu
    rw [obligationsOf_assignScores] at ho
    exact ⟨bin, hbin, c, hc, u, hu, ho⟩
  · rintro ⟨bin, hbin, c, hc, u, hu, ho⟩
    refine ⟨_, List.mem_map_of_mem hbin, ?_⟩
    rw [binTask, mem_obligations]
    rw [← obligationsOf_assignScores g cap] at ho
    exact ⟨u, List.mem_flatMap.2 ⟨c, hc, hu⟩, ho⟩

/-- The clusters consist of functions of the graph. -/
theorem hasNode_of_mem (h : TreePlan g k sources cap tree bins plan g') (hk : k ≠ 0)
    {bin : Bin Cluster} (hbin : bin ∈ bins) {c : Cluster} (hc : c ∈ bin.items) {v : Nat}
    (hv : v ∈ c.vertices) : g.hasNode v = true := by
  refine mem_nodes.1 ((h.vertices_perm hk).mem_iff.1 ?_)
  rw [h.tasks_eq, List.mem_flatMap]
  exact ⟨_, List.mem_map_of_mem hbin, List.mem_flatMap.2 ⟨c, hc, hv⟩⟩

end TreePlan

/-- Every function of a task is at the end of a call path from the entry whose
functions the task obliges, and all tasks together oblige exactly what the source
index lists for the functions of the graph. -/
theorem splitTree_footholds (h : g.WellFormed)
    (hreach : ∀ v, g.hasNode v = true → g.Reaches g.entry v) {k : Nat} (hk : 1 ≤ k)
    (sources : SourceIndex) (cap : ScoreCap) :
    ∃ plan, (g.splitTree k sources cap).1 = .ok plan ∧
      (∀ task ∈ plan.tasks, ∀ v ∈ task.vertices, ∃ path, g.CallPath g.entry v path ∧
        ∀ u ∈ path, ∀ name, g.name? u = some name → ∀ location ∈ sources.values name,
          ⟨location.file, name⟩ ∈ task.obligations) ∧
      ∀ o : Obligation, (∃ task ∈ plan.tasks, o ∈ task.obligations) ↔
        ∃ node name, g.name? node = some name ∧
          ∃ location ∈ sources.values name, o = ⟨location.file, name⟩ := by
  have hne : k ≠ 0 := Nat.ne_of_gt hk
  rcases h.splitTree_cases k sources cap with ⟨⟨v, hv, hout⟩, -⟩ | ⟨-, hzero, -⟩ |
    ⟨-, -, tree, bins, plan, g', heq, hplan⟩
  · exact absurd (hreach v hv) hout
  · exact absurd hzero hne
  refine ⟨plan, by rw [heq], ?_, ?_⟩
  · intro task htask v hv
    rw [hplan.tasks_eq, List.mem_map] at htask
    obtain ⟨bin, hbin, rfl⟩ := htask
    obtain ⟨c, hc, hvc⟩ := List.mem_flatMap.1 hv
    obtain ⟨top, hpiece⟩ := hplan.exists_piece hne hbin hc
    have htop := hplan.hasNode_of_mem hne hbin hc hpiece.top_mem
    obtain ⟨path, hpath, hmem⟩ := hplan.exists_path h hreach hpiece htop hvc
    refine ⟨path, hpath, ?_⟩
    intro u hu name hname location hlocation
    rw [binTask, mem_obligations]
    refine ⟨u, List.mem_flatMap.2 ⟨c, hc, hmem u hu⟩, ?_⟩
    rw [obligationsOf_assignScores, mem_obligationsOf]
    exact ⟨name, hname, location, hlocation, rfl⟩
  · intro o
    rw [hplan.mem_obligations_iff]
    constructor
    · rintro ⟨bin, hbin, c, hc, u, -, ho⟩
      exact ⟨u, mem_obligationsOf.1 ho⟩
    · rintro ⟨node, name, hname, hlocation⟩
      have hnode := mem_nodes.2 (hasNode_of_name? hname)
      rw [← (hplan.vertices_perm hne).mem_iff, hplan.tasks_eq, List.mem_flatMap] at hnode
      obtain ⟨task, htask, hv⟩ := hnode
      obtain ⟨bin, hbin, rfl⟩ := List.mem_map.1 htask
      obtain ⟨c, hc, hvc⟩ := List.mem_flatMap.1 hv
      obtain ⟨top, hpiece⟩ := hplan.exists_piece hne hbin hc
      have htop := hplan.hasNode_of_mem hne hbin hc hpiece.top_mem
      obtain ⟨rest, hhead⟩ := hpiece.head
      obtain ⟨way, -, hfoothold⟩ := h.exists_foothold hreach cap hhead htop
      refine ⟨bin, hbin, c, hc, node, ?_, mem_obligationsOf.2 ⟨name, hname, hlocation⟩⟩
      rw [hfoothold]
      exact List.mem_append_right _ hvc

/-- Of an entry and the function it calls, some task obliges the callee in the file
that defines it. -/
theorem splitTree_footholds_call :
    (ofCall "main" "parse").WellFormed ∧
      ∃ plan, ((ofCall "main" "parse").splitTree 2 ⟨[("parse", ⟨"parse.c", "7"⟩)]⟩ .none).1 =
          .ok plan ∧
        ∃ task ∈ plan.tasks, ⟨"parse.c", "parse"⟩ ∈ task.obligations := by
  have hne : "main" ≠ "parse" := by decide
  have hw : (ofCall "main" "parse").WellFormed := (built_ofCall _ _).wellFormed
  obtain ⟨plan, hplan, -, hunion⟩ := splitTree_footholds hw (reaches_ofCall hne)
    (k := 2) (by decide) ⟨[("parse", ⟨"parse.c", "7"⟩)]⟩ .none
  refine ⟨hw, plan, hplan, (hunion _).2 ⟨1, "parse", ?_, ⟨"parse.c", "7"⟩, ?_, rfl⟩⟩
  · rw [name?, vertex?_ofCall hne]
    rfl
  · exact NameIndex.mem_values.2 (List.mem_singleton_self _)

end FuzzCampaign.CallGraph

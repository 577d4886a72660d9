import FuzzCampaign.Proofs.Arborescence.Optimality
import FuzzCampaign.Proofs.Arborescence.TreeShape
import FuzzCampaign.Proofs.CallGraph.Reachability
import Mathlib

/-!
# The arborescence of a call graph

The functions of a graph are numbered by their positions, and every call is an
edge between positions.  Paths of calls and paths of edges correspond, so that
the arborescence algorithm finds a tree exactly when the entry reaches every
function.  The edges that it chooses are calls, listed by ascending callee.

Main results:

- `WellFormed.spans`: the arborescence spans the functions of the graph and
  consists of calls.
- `WellFormed.postOrder_recursive`: its functions are listed in recursive post-order.
- `WellFormed.arborescence?_eq_none_iff`: there is none exactly when the entry
  misses a function.
-/

namespace FuzzCampaign.CallGraph

open Relation

variable {g : CallGraph}

/-! ## Positions -/

/-- The entry is one of the nodes. -/
theorem WellFormed.entry_mem_nodes (h : g.WellFormed) : g.entry ∈ g.nodes :=
  mem_nodes.2 h.entry_mem

/-- The rank of a node is below the number of nodes. -/
theorem rank_lt {node : Nat} (h : node ∈ g.nodes) : g.rank node < g.vertexCount :=
  List.idxOf_lt_length_of_mem h

/-- The function at a position. -/
def nodeAt (g : CallGraph) (rank : Nat) : Nat := g.nodes[rank]?.getD 0

/-- A node is found again by its rank. -/
theorem nodeAt_rank {node : Nat} (h : node ∈ g.nodes) : g.nodeAt (g.rank node) = node := by
  have hlt : g.nodes.idxOf node < g.nodes.length := List.idxOf_lt_length_of_mem h
  rw [nodeAt, rank, List.getElem?_eq_getElem hlt, List.getElem_idxOf hlt, Option.getD_some]

/-- Every rank is that of a node. -/
theorem rank_nodeAt {i : Nat} (h : i < g.vertexCount) :
    g.nodeAt i ∈ g.nodes ∧ g.rank (g.nodeAt i) = i := by
  have hlt : i < g.nodes.length := h
  rw [nodeAt, List.getElem?_eq_getElem hlt, Option.getD_some]
  exact ⟨List.getElem_mem hlt, g.nodup_nodes.idxOf_getElem i hlt⟩

/-- Different nodes have different ranks. -/
theorem rank_inj {a b : Nat} (ha : a ∈ g.nodes) (hb : b ∈ g.nodes) (hab : g.rank a = g.rank b) :
    a = b := by
  rw [← nodeAt_rank ha, hab, nodeAt_rank hb]

/-- The positions of all functions but the entry. -/
theorem WellFormed.map_nodeAt_others (h : g.WellFormed) :
    (Edmonds.others g.vertexCount (g.rank g.entry)).map g.nodeAt =
      g.nodes.filter (· != g.entry) := by
  have hall : (List.range g.vertexCount).map g.nodeAt = g.nodes := by
    refine List.ext_getElem (by simp [vertexCount]) ?_
    intro i hi hi'
    simp [nodeAt, List.getElem?_eq_getElem hi']
  have hfilter : Edmonds.others g.vertexCount (g.rank g.entry) =
      (List.range g.vertexCount).filter ((· != g.entry) ∘ g.nodeAt) := by
    refine List.filter_congr ?_
    intro i hi
    obtain ⟨hmem, hrank⟩ := rank_nodeAt (g := g) (List.mem_range.1 hi)
    rw [Function.comp_apply, Bool.eq_iff_iff, bne_iff_ne, bne_iff_ne, not_iff_not]
    constructor
    · rintro rfl
      exact nodeAt_rank h.entry_mem_nodes
    · intro heq
      rw [← hrank, heq]
  rw [hfilter, ← List.filter_map, hall]

/-! ## Calls as edges -/

/-- There is one weighted edge for each call. -/
theorem size_weightedEdges (g : CallGraph) : g.weightedEdges.size = g.arcsInOrder.length := by
  simp [weightedEdges]

/-- A weighted edge leaves from the rank of the caller. -/
theorem source_weightedEdges {i : Nat} (hi : i < g.arcsInOrder.length) :
    Edmonds.source g.weightedEdges i = g.rank (g.arcsInOrder[i]).caller := by
  simp [Edmonds.source, weightedEdges, hi]

/-- A weighted edge leads to the rank of the callee. -/
theorem target_weightedEdges {i : Nat} (hi : i < g.arcsInOrder.length) :
    Edmonds.target g.weightedEdges i = g.rank (g.arcsInOrder[i]).callee := by
  simp [Edmonds.target, weightedEdges, hi]

/-- The ends of a call are nodes, and the one calls the other. -/
theorem WellFormed.arc_mem (h : g.WellFormed) {i : Nat} (hi : i < g.arcsInOrder.length) :
    g.arcsInOrder[i].caller ∈ g.nodes ∧ g.arcsInOrder[i].callee ∈ g.nodes ∧
      g.Calls g.arcsInOrder[i].caller g.arcsInOrder[i].callee := by
  have hmem : g.arcsInOrder[i] ∈ g.arcs := mem_arcsInOrder.1 (List.getElem_mem hi)
  exact ⟨mem_nodes.2 (h.caller_mem _ hmem), mem_nodes.2 (h.callee_mem _ hmem),
    hasCall_iff.2 ⟨_, hmem, rfl, rfl⟩⟩

/-- The weighted edges lie between the ranks of the graph. -/
theorem WellFormed.inRange (h : g.WellFormed) : Edmonds.InRange g.vertexCount g.weightedEdges := by
  intro e he
  rw [weightedEdges, List.mem_toArray, List.mem_map] at he
  obtain ⟨arc, harc, rfl⟩ := he
  rw [mem_arcsInOrder] at harc
  exact ⟨rank_lt (mem_nodes.2 (h.caller_mem arc harc)),
    rank_lt (mem_nodes.2 (h.callee_mem arc harc))⟩

/-- Paths of calls and paths of edges correspond. -/
theorem WellFormed.reaches_iff (h : g.WellFormed) {a b : Nat} (ha : a ∈ g.nodes)
    (hb : b ∈ g.nodes) :
    Edmonds.Reaches g.weightedEdges (g.rank a) (g.rank b) ↔ g.Reaches a b := by
  constructor
  · intro hreach
    have hpath : ∀ r, Edmonds.Reaches g.weightedEdges (g.rank a) r →
        ∃ v ∈ g.nodes, g.rank v = r ∧ g.Reaches a v := by
      intro r hr
      induction hr with
      | refl => exact ⟨a, ha, rfl, ReflTransGen.refl⟩
      | tail _ hstep ih =>
        obtain ⟨v, hv, rfl, hav⟩ := ih
        obtain ⟨e, he, hsource, rfl⟩ := hstep
        rw [weightedEdges, List.mem_toArray, List.mem_map] at he
        obtain ⟨arc, harc, rfl⟩ := he
        rw [mem_arcsInOrder] at harc
        have hcaller := rank_inj (mem_nodes.2 (h.caller_mem arc harc)) hv hsource
        refine ⟨arc.callee, mem_nodes.2 (h.callee_mem arc harc), rfl, hav.tail ?_⟩
        exact hasCall_iff.2 ⟨arc, harc, hcaller, rfl⟩
    obtain ⟨v, hv, hrank, hav⟩ := hpath _ hreach
    rwa [rank_inj hv hb hrank] at hav
  · intro hreach
    refine ReflTransGen.lift g.rank ?_ _ _ hreach
    intro x y hxy
    obtain ⟨arc, harc, rfl, rfl⟩ := hasCall_iff.1 hxy
    refine ⟨⟨g.rank arc.caller, g.rank arc.callee, arc.call.weight.toNat⟩, ?_, rfl, rfl⟩
    rw [weightedEdges, List.mem_toArray, List.mem_map]
    exact ⟨arc, mem_arcsInOrder.2 harc, rfl⟩

/-! ## The tree -/

section Tree

variable {chosen : List Nat}

/-- The callees of the chosen calls are all functions but the entry. -/
theorem WellFormed.callees_chosen (h : g.WellFormed)
    (hmin : Edmonds.MinimumArborescence g.vertexCount (g.rank g.entry) g.weightedEdges chosen) :
    (chosen.filterMap fun i => g.arcsInOrder[i]?.map fun arc => (arc.caller, arc.callee)).map
      (·.2) = g.nodes.filter (· != g.entry) := by
  have hlt : ∀ i ∈ chosen, i < g.arcsInOrder.length := by
    intro i hi
    rw [← size_weightedEdges]
    exact hmin.spanning.lt_size i (List.mem_toFinset.2 hi)
  have htargets : (chosen.filterMap fun i => g.arcsInOrder[i]?.map
      fun arc => (arc.caller, arc.callee)).map (·.2) =
      chosen.map fun i => g.nodeAt (Edmonds.target g.weightedEdges i) := by
    clear hmin
    induction chosen with
    | nil => rfl
    | cons i chosen ih =>
      have hi := hlt i List.mem_cons_self
      rw [List.filterMap_cons_some (b := (g.arcsInOrder[i].caller, g.arcsInOrder[i].callee))
        (by rw [List.getElem?_eq_getElem hi]; rfl), List.map_cons, List.map_cons,
        ih fun j hj => hlt j (List.mem_cons_of_mem _ hj), target_weightedEdges hi,
        nodeAt_rank (h.arc_mem hi).2.1]
  rw [htargets, ← h.map_nodeAt_others, Edmonds.others, ← hmin.targets, List.map_map]
  rfl

/-- The tree lists the chosen calls in the order of the algorithm. -/
theorem WellFormed.edges_sorted (h : g.WellFormed)
    (hmin : Edmonds.MinimumArborescence g.vertexCount (g.rank g.entry) g.weightedEdges chosen) :
    ((chosen.filterMap fun i => g.arcsInOrder[i]?.map fun arc => (arc.caller, arc.callee)).mergeSort
      fun a b => decide (a.2 ≤ b.2)) =
      chosen.filterMap fun i => g.arcsInOrder[i]?.map fun arc => (arc.caller, arc.callee) := by
  refine List.mergeSort_of_pairwise ?_
  have hsorted : (g.nodes.filter (· != g.entry)).Pairwise (· ≤ ·) :=
    (g.nodes_pairwise.imp Nat.le_of_lt).filter _
  rw [← h.callees_chosen hmin, List.pairwise_map] at hsorted
  exact hsorted.imp fun hle => decide_eq_true hle

/-- The chosen calls are those at the chosen indices. -/
theorem mem_filterMap_arcs {p c : Nat} :
    (p, c) ∈ chosen.filterMap (fun i => g.arcsInOrder[i]?.map fun arc => (arc.caller, arc.callee)) ↔
      ∃ i ∈ chosen, ∃ hi : i < g.arcsInOrder.length,
        g.arcsInOrder[i].caller = p ∧ g.arcsInOrder[i].callee = c := by
  rw [List.mem_filterMap]
  constructor
  · rintro ⟨i, hi, harc⟩
    rw [Option.map_eq_some_iff] at harc
    obtain ⟨arc, harc, heq⟩ := harc
    obtain ⟨hlt, rfl⟩ := List.getElem?_eq_some_iff.1 harc
    exact ⟨i, hi, hlt, congrArg Prod.fst heq, congrArg Prod.snd heq⟩
  · rintro ⟨i, hi, hlt, rfl, rfl⟩
    refine ⟨i, hi, ?_⟩
    rw [List.getElem?_eq_getElem hlt]
    rfl

end Tree

/-- The arborescence spans the functions of the graph, and its edges are calls. -/
structure CallTree (g : CallGraph) (t : Arborescence) : Prop where
  root_eq : t.root = g.entry
  spans : t.Spans g.nodes
  calls : ∀ p c, t.IsParent p c → g.Calls p c

/-- What the search returns on a well-formed graph is a tree of its calls. -/
theorem WellFormed.callTree (h : g.WellFormed) {t : Arborescence} (ht : g.arborescence? = some t) :
    g.CallTree t := by
  rw [arborescence?, Option.map_eq_some_iff] at ht
  obtain ⟨chosen, hchosen, rfl⟩ := ht
  have hmin := minimumArborescence_of_eq_some (rank_lt h.entry_mem_nodes) h.inRange hchosen
  simp only [h.edges_sorted hmin]
  have hparent : ∀ p c, Arborescence.IsParent ⟨g.entry, chosen.filterMap fun i =>
      g.arcsInOrder[i]?.map fun arc => (arc.caller, arc.callee)⟩ p c ↔
      ∃ i ∈ chosen, ∃ hi : i < g.arcsInOrder.length,
        g.arcsInOrder[i].caller = p ∧ g.arcsInOrder[i].callee = c :=
    fun p c => mem_filterMap_arcs
  refine ⟨rfl, ⟨g.nodup_nodes, h.entry_mem_nodes, ?_, h.callees_chosen hmin, ?_⟩, ?_⟩
  · intro p c hpc
    obtain ⟨i, -, hi, rfl, -⟩ := (hparent p c).1 hpc
    exact (h.arc_mem hi).1
  · intro v hv
    have hchain := hmin.spanning.leads_to_root (g.rank v) (rank_lt hv)
    -- walk back along the chosen edges, reading every position as a function
    have hread : ∀ r, ReflTransGen (Edmonds.LeadsInto g.weightedEdges chosen.toFinset) r
        (g.rank g.entry) → ∀ v ∈ g.nodes, g.rank v = r → Arborescence.Below ⟨g.entry,
          chosen.filterMap fun i => g.arcsInOrder[i]?.map fun arc => (arc.caller, arc.callee)⟩
          g.entry v := by
      intro r hr
      induction hr using ReflTransGen.head_induction_on with
      | refl =>
        intro v hv hrank
        rw [rank_inj hv h.entry_mem_nodes hrank]
        exact ReflTransGen.refl
      | head hstep _ ih =>
        intro v hv hrank
        obtain ⟨i, hi, htarget, hsource⟩ := hstep
        have hlt : i < g.arcsInOrder.length := by
          rw [← size_weightedEdges]
          exact hmin.spanning.lt_size i hi
        rw [target_weightedEdges hlt] at htarget
        rw [source_weightedEdges hlt] at hsource
        have hcallee := rank_inj (h.arc_mem hlt).2.1 hv (htarget.trans hrank.symm)
        refine (ih _ (h.arc_mem hlt).1 hsource).tail ?_
        exact (hparent _ _).2 ⟨i, List.mem_toFinset.1 hi, hlt, rfl, hcallee⟩
    exact hread _ hchain v hv rfl
  · intro p c hpc
    obtain ⟨i, -, hi, rfl, rfl⟩ := (hparent p c).1 hpc
    exact (h.arc_mem hi).2.2

/-- The loop over the arborescence of a graph ends and lists every function once.  The listing is
the recursive post-order: the functions of every subtree stand side by side, the subtrees of
siblings in the order of the children, every function after those below it and the root last. -/
theorem WellFormed.postOrder_recursive (h : g.WellFormed) {t : Arborescence}
    (ht : g.arborescence? = some t) :
    t.turn^[2 * t.vertexCount] ([], [(t.root, false)]) = (t.postOrder, []) ∧
      t.postOrder.Nodup ∧ (∀ v, v ∈ t.postOrder ↔ g.hasNode v = true) ∧
      t.PostOrdered g.nodes t.postOrder ∧
      (∀ v ∈ g.nodes, ∀ x, t.Below v x → x ≠ v → [x, v].Sublist t.postOrder) ∧
      t.postOrder.getLast? = some t.root := by
  have hspans := (h.callTree ht).spans
  have hordered := hspans.postOrdered
  have hperm := hspans.postOrder_perm
  refine ⟨?_, hperm.nodup_iff.2 hspans.nodup, fun v => hperm.mem_iff.trans mem_nodes, hordered,
    fun v hv x hbelow hne => hordered.descendant_before hv hbelow hne,
    hordered.getLast?_eq hspans.root_mem⟩
  rw [hspans.iterate_turn, hspans.postOrder_eq]

/-- An entry that calls two functions, of which the first one calls a fourth function. -/
def ofBranches : CallGraph :=
  ((((((ofCall "main" "parse").insert (.named "emit")).2.addCall 0 2 {}).2.insert
    (.named "lex")).2).addCall 1 3 {}).2

/-- The graph with branches is well formed. -/
theorem wellFormed_ofBranches : ofBranches.WellFormed :=
  (Built.addCall (.insert (.addCall (.insert (built_ofCall _ _) _) 0 2 {}) _) 1 3 {}).wellFormed

/-- The function that is called by the first branch is listed before the second branch. -/
theorem WellFormed.postOrder_recursive_ofBranches :
    ofBranches.WellFormed ∧ ofBranches.arborescence? = some ⟨0, [(0, 1), (0, 2), (1, 3)]⟩ ∧
      Arborescence.postOrder ⟨0, [(0, 1), (0, 2), (1, 3)]⟩ = [3, 1, 2, 0] ∧
      Arborescence.PostOrdered ⟨0, [(0, 1), (0, 2), (1, 3)]⟩ ofBranches.nodes [3, 1, 2, 0] := by
  have htree : ofBranches.arborescence? = some ⟨0, [(0, 1), (0, 2), (1, 3)]⟩ := by cbv
  obtain ⟨-, -, -, hordered, -⟩ := wellFormed_ofBranches.postOrder_recursive htree
  exact ⟨wellFormed_ofBranches, htree, rfl, hordered⟩

/-- There is no arborescence exactly when the entry misses a function. -/
theorem WellFormed.arborescence?_eq_none_iff (h : g.WellFormed) :
    g.arborescence? = none ↔ ∃ v, g.hasNode v = true ∧ ¬ g.Reaches g.entry v := by
  rw [arborescence?, Option.map_eq_none_iff]
  constructor
  · intro hnone
    rcases edmonds_spec (rank_lt h.entry_mem_nodes) h.inRange with ⟨-, r, hr, hout⟩ | ⟨l, hsome, -⟩
    · obtain ⟨hmem, hrank⟩ := rank_nodeAt hr
      refine ⟨g.nodeAt r, mem_nodes.1 hmem, ?_⟩
      rwa [← h.reaches_iff h.entry_mem_nodes hmem, hrank]
    · rw [hsome] at hnone
      exact absurd hnone (by simp)
  · rintro ⟨v, hv, hout⟩
    have hmem := mem_nodes.2 hv
    rcases edmonds_spec (rank_lt h.entry_mem_nodes) h.inRange with ⟨hnone, -⟩ | ⟨l, -, hmin⟩
    · exact hnone
    · rw [← h.reaches_iff h.entry_mem_nodes hmem] at hout
      exact absurd (hmin.spanning.reaches (rank_lt hmem)) hout

end FuzzCampaign.CallGraph

import FuzzCampaign.Proofs.Arborescence.CallTree
import FuzzCampaign.Proofs.CallGraph.Refinement
import Mathlib.Algebra.BigOperators.Ring.Finset

/-!
# The lightest tree of a call graph

The arborescence of a call graph is found among positions: the functions are numbered
without gaps, and the calls are the edges between their positions.  A set of calls that
spans the functions from the entry corresponds to a set of edges that spans the
positions from the position of the entry, and both weigh the same.  So the tree that is
read back from the chosen edges is lightest among all trees of calls, whatever numbers
the functions have.

The parent of a function, the children of a function and the list of edges are three
views of one tree, and so are the tables of parents and of children that are filled
while the edges are listed.

Main definitions:

- `Arborescence.parentTable`, `Arborescence.childTable`: tables filled edge by edge.
- `CallGraph.SpanningCalls`: a set of calls spans the functions from the entry.
- `CallGraph.LightestTree`: the three views agree, and no such set weighs less.

Main results:

- `CallGraph.WellFormed.spanningArborescence`: spanning calls are a spanning
  arborescence of the positions.
- `CallGraph.lightest_call_tree`: there is a lightest tree, unless the entry misses a
  function.
-/

namespace FuzzCampaign

namespace Arborescence

variable {t : Arborescence} {vertices : List Nat}

/-- The parent of a function is the caller of the one edge that leads to it. -/
theorem Spans.parent?_eq_some_iff (h : t.Spans vertices) {p c : Nat} :
    t.parent? c = some p ↔ (p, c) ∈ t.edges := by
  unfold parent?
  rw [Option.map_eq_some_iff]
  constructor
  · rintro ⟨edge, hfind, rfl⟩
    have hchild : edge.2 = c := by simpa using List.find?_some hfind
    have hmem := List.mem_of_find?_eq_some hfind
    rwa [← hchild]
  · intro hmem
    obtain ⟨edge, hedge⟩ : ∃ edge, t.edges.find? (·.2 == c) = some edge := by
      rw [← Option.isSome_iff_exists, List.find?_isSome]
      exact ⟨(p, c), hmem, by simp⟩
    have hchild : edge.2 = c := by simpa using List.find?_some hedge
    refine ⟨edge, hedge, h.parent_unique (c := c) ?_ hmem⟩
    have hin := List.mem_of_find?_eq_some hedge
    rwa [← hchild]

/-- The parents of all functions, entered edge by edge. -/
def parentTable (t : Arborescence) : Std.HashMap Nat Nat :=
  t.edges.foldl (fun table edge => table.insert edge.2 edge.1) {}

/-- The children of all functions, entered edge by edge. -/
def childTable (t : Arborescence) : Std.HashMap Nat (List Nat) :=
  t.edges.foldl (fun table edge => table.insert edge.1 (table.getD edge.1 [] ++ [edge.2])) {}

/-- Where no two edges lead to one child, no entry is replaced by a later one. -/
theorem getElem?_foldl_parents {edges : List (Nat × Nat)} (hnodup : (edges.map (·.2)).Nodup)
    (table : Std.HashMap Nat Nat) (c : Nat) :
    (edges.foldl (fun table edge => table.insert edge.2 edge.1) table)[c]? =
      ((edges.find? (·.2 == c)).map (·.1)).or table[c]? := by
  induction edges generalizing table with
  | nil => simp
  | cons edge edges ih =>
    rw [List.map_cons, List.nodup_cons] at hnodup
    rw [List.foldl_cons, ih hnodup.2, Std.HashMap.getElem?_insert]
    by_cases hchild : edge.2 = c
    · have hlast : edges.find? (·.2 == c) = none := by
        rw [List.find?_eq_none]
        intro other hother hsame
        rw [hchild, ← beq_iff_eq.1 hsame] at hnodup
        exact hnodup.1 (List.mem_map_of_mem hother)
      simp [hchild, hlast]
    · simp [hchild]

/-- The table of parents has the parent of every vertex. -/
theorem Spans.getElem?_parentTable (h : t.Spans vertices) (c : Nat) :
    t.parentTable[c]? = t.parent? c := by
  rw [parentTable, getElem?_foldl_parents h.nodup_map_child, parent?]
  simp

/-- The children of a function are entered in the order of their edges. -/
theorem getD_foldl_children (edges : List (Nat × Nat)) (table : Std.HashMap Nat (List Nat))
    (p : Nat) :
    (edges.foldl (fun table edge =>
      table.insert edge.1 (table.getD edge.1 [] ++ [edge.2])) table).getD p [] =
      table.getD p [] ++ (edges.filter (·.1 == p)).map (·.2) := by
  induction edges generalizing table with
  | nil => simp
  | cons edge edges ih =>
    rw [List.foldl_cons, ih, Std.HashMap.getD_insert]
    by_cases hparent : edge.1 = p
    · simp [hparent]
    · simp [hparent]

/-- The table of children has the children of every vertex. -/
theorem getD_childTable (t : Arborescence) (p : Nat) :
    t.childTable.getD p [] = t.children p := by
  rw [childTable, getD_foldl_children, children]
  simp

/-- Every function climbs to the root, from parent to parent. -/
theorem Spans.climbs (h : t.Spans vertices) {v : Nat} (hv : v ∈ vertices) :
    Relation.ReflTransGen (fun c p => t.parent? c = some p) v t.root := by
  have hdown := Relation.ReflTransGen.swap _ _ (h.below_root v hv)
  refine Relation.ReflTransGen.lift id ?_ _ _ hdown
  intro c p hpc
  exact h.parent?_eq_some_iff.2 hpc

end Arborescence

namespace CallGraph

open Relation

variable {g : CallGraph}

/-- A set of calls spans the functions from the entry: nothing leads to the entry, one
call leads to every other function, and the entry leads to all of them. -/
structure SpanningCalls (g : CallGraph) (tree : Finset (Nat × Nat)) : Prop where
  calls : ∀ p c, (p, c) ∈ tree → g.Calls p c
  ne_entry : ∀ p c, (p, c) ∈ tree → c ≠ g.entry
  existsUnique_parent : ∀ v ∈ g.nodes, v ≠ g.entry → ∃! p, (p, v) ∈ tree
  below_entry : ∀ v ∈ g.nodes, ReflTransGen (fun p c => (p, c) ∈ tree) g.entry v

/-- The weight of the call between two functions. -/
def callWeight (g : CallGraph) (call : Nat × Nat) : Nat :=
  ((g.arc? call.1 call.2).map (·.call.weight.toNat)).getD 0

/-! ## Calls by position -/

/-- The ends of the call at a position. -/
def endsAt (g : CallGraph) (i : Nat) : Nat × Nat :=
  (g.arcsInOrder[i]?.map fun arc => (arc.caller, arc.callee)).getD (0, 0)

/-- The ends of a call at an index. -/
theorem endsAt_of_lt {i : Nat} (hi : i < g.arcsInOrder.length) :
    g.endsAt i = (g.arcsInOrder[i].caller, g.arcsInOrder[i].callee) := by
  simp [endsAt, hi]

/-- No two positions have the same ends. -/
theorem WellFormed.endsAt_inj (h : g.WellFormed) {i j : Nat} (hi : i < g.arcsInOrder.length)
    (hj : j < g.arcsInOrder.length) (hij : g.endsAt i = g.endsAt j) : i = j := by
  have hnodup : (g.arcsInOrder.map fun arc => (arc.caller, arc.callee)).Nodup :=
    (g.arcsInOrder_perm.map _).nodup_iff.2 h.nodup_ends
  rw [endsAt_of_lt hi, endsAt_of_lt hj] at hij
  have hlength : (g.arcsInOrder.map fun arc => (arc.caller, arc.callee)).length =
      g.arcsInOrder.length := List.length_map _
  rw [← hlength] at hi hj
  refine hnodup.getElem_inj_iff.1 (?_ : _[i] = _[j])
  simpa using hij

/-- Every call has a position. -/
theorem exists_endsAt {p c : Nat} (hcall : g.Calls p c) :
    ∃ i < g.arcsInOrder.length, g.endsAt i = (p, c) := by
  obtain ⟨arc, harc, rfl, rfl⟩ := hasCall_iff.1 hcall
  obtain ⟨i, hi, rfl⟩ := List.getElem_of_mem (mem_arcsInOrder.2 harc)
  exact ⟨i, hi, endsAt_of_lt hi⟩

/-- An edge between positions weighs what its call weighs. -/
theorem WellFormed.weight_eq (h : g.WellFormed) {i : Nat} (hi : i < g.arcsInOrder.length) :
    Edmonds.weight g.weightedEdges i = g.callWeight (g.endsAt i) := by
  have harc : g.arc? g.arcsInOrder[i].caller g.arcsInOrder[i].callee = some g.arcsInOrder[i] :=
    h.arc?_eq_some_iff.2 ⟨mem_arcsInOrder.1 (List.getElem_mem hi), rfl, rfl⟩
  rw [endsAt_of_lt hi]
  simp [callWeight, harc, Edmonds.weight, weightedEdges, hi]

/-! ## Spanning sets of calls -/

/-- The positions of a set of calls. -/
def positions (g : CallGraph) (tree : Finset (Nat × Nat)) : Finset Nat :=
  (Finset.range g.arcsInOrder.length).filter fun i => g.endsAt i ∈ tree

/-- The positions of a tree are the indices of its calls. -/
theorem mem_positions {tree : Finset (Nat × Nat)} {i : Nat} :
    i ∈ g.positions tree ↔ i < g.arcsInOrder.length ∧ g.endsAt i ∈ tree := by
  simp [positions]

/-- A set of calls weighs what its edges weigh. -/
theorem WellFormed.sum_weight_positions (h : g.WellFormed) {tree : Finset (Nat × Nat)}
    (hcalls : ∀ p c, (p, c) ∈ tree → g.Calls p c) :
    ∑ i ∈ g.positions tree, Edmonds.weight g.weightedEdges i =
      ∑ call ∈ tree, (g.callWeight call : Int) := by
  refine Finset.sum_nbij g.endsAt ?_ ?_ ?_ ?_
  · intro i hi
    exact (mem_positions.1 hi).2
  · intro i hi j hj hij
    exact h.endsAt_inj (mem_positions.1 hi).1 (mem_positions.1 hj).1 hij
  · rintro ⟨p, c⟩ hmem
    obtain ⟨i, hi, hends⟩ := exists_endsAt (hcalls p c hmem)
    have hin : i ∈ g.positions tree := mem_positions.2 ⟨hi, by rwa [hends]⟩
    exact ⟨i, hin, hends⟩
  · intro i hi
    exact h.weight_eq (mem_positions.1 hi).1

/-- Spanning calls are a spanning arborescence of the positions. -/
theorem WellFormed.spanningArborescence (h : g.WellFormed) {tree : Finset (Nat × Nat)}
    (htree : g.SpanningCalls tree) :
    Edmonds.SpanningArborescence g.vertexCount (g.rank g.entry) g.weightedEdges
      (g.positions tree) := by
  have hentry := h.entry_mem_nodes
  refine ⟨?_, ?_, ?_, ?_⟩
  · intro i hi
    rw [size_weightedEdges]
    exact (mem_positions.1 hi).1
  · intro i hi htarget
    obtain ⟨hlt, hmem⟩ := mem_positions.1 hi
    rw [target_weightedEdges hlt] at htarget
    rw [endsAt_of_lt hlt] at hmem
    exact htree.ne_entry _ _ hmem (rank_inj (h.arc_mem hlt).2.1 hentry htarget)
  · intro r hr hne
    obtain ⟨hnode, hrank⟩ := rank_nodeAt hr
    have hother : g.nodeAt r ≠ g.entry := by
      intro heq
      rw [heq] at hrank
      exact hne hrank.symm
    obtain ⟨p, hp, hunique⟩ := htree.existsUnique_parent _ hnode hother
    obtain ⟨i, hi, hends⟩ := exists_endsAt (htree.calls _ _ hp)
    have hcallee : g.arcsInOrder[i].callee = g.nodeAt r := by
      rw [endsAt_of_lt hi] at hends
      exact congrArg Prod.snd hends
    refine ⟨i, ⟨mem_positions.2 ⟨hi, by rwa [hends]⟩, ?_⟩, ?_⟩
    · rw [target_weightedEdges hi, hcallee, hrank]
    · rintro j ⟨hj, htarget⟩
      obtain ⟨hlt, hmem⟩ := mem_positions.1 hj
      rw [target_weightedEdges hlt, ← hrank] at htarget
      have hsame := rank_inj (h.arc_mem hlt).2.1 hnode htarget
      rw [endsAt_of_lt hlt, hsame] at hmem
      refine h.endsAt_inj hlt hi ?_
      rw [hends, endsAt_of_lt hlt, hsame, hunique _ hmem]
  · intro r hr
    obtain ⟨hnode, hrank⟩ := rank_nodeAt hr
    have hup : ∀ v, ReflTransGen (fun p c => (p, c) ∈ tree) g.entry v →
        ReflTransGen (Edmonds.LeadsInto g.weightedEdges (g.positions tree)) (g.rank v)
          (g.rank g.entry) := by
      intro v hv
      induction hv with
      | refl => exact ReflTransGen.refl
      | tail _ hstep ih =>
        obtain ⟨i, hi, hends⟩ := exists_endsAt (htree.calls _ _ hstep)
        have hin : i ∈ g.positions tree := mem_positions.2 ⟨hi, by rwa [hends]⟩
        rw [endsAt_of_lt hi, Prod.mk.injEq] at hends
        refine ReflTransGen.head ⟨i, hin, ?_, ?_⟩ ih
        · rw [target_weightedEdges hi, hends.2]
        · rw [source_weightedEdges hi, hends.1]
    have hchain := hup _ (htree.below_entry _ hnode)
    rwa [hrank] at hchain

/-- The edges of an arborescence of calls span the functions. -/
theorem CallTree.spanningCalls {t : Arborescence} (h : g.CallTree t) :
    g.SpanningCalls t.edges.toFinset := by
  have hmem : ∀ p c, (p, c) ∈ t.edges.toFinset ↔ t.IsParent p c := by
    intro p c
    exact List.mem_toFinset
  refine ⟨?_, ?_, ?_, ?_⟩
  · intro p c hpc
    exact h.calls p c ((hmem p c).1 hpc)
  · intro p c hpc
    rw [← h.root_eq]
    exact (h.spans.child_mem ((hmem p c).1 hpc)).2
  · intro v hv hne
    have hchild : v ∈ t.edges.map (·.2) := by
      rw [h.spans.children_eq, List.mem_filter]
      exact ⟨hv, by simpa [h.root_eq] using hne⟩
    obtain ⟨⟨p, c⟩, hedge, rfl⟩ := List.mem_map.1 hchild
    refine ⟨p, (hmem p c).2 hedge, ?_⟩
    intro q hq
    exact h.spans.parent_unique ((hmem q c).1 hq) hedge
  · intro v hv
    have hbelow := h.spans.below_root v hv
    rw [h.root_eq] at hbelow
    refine ReflTransGen.lift id ?_ _ _ hbelow
    intro p c hpc
    exact (hmem p c).2 hpc

/-! ## The lightest tree -/

/-- A tree of calls from the entry: the parents, the children, their tables and the edges
tell the same, in ascending order of the children, every function climbs to the root, and
no spanning set of calls weighs less. -/
structure LightestTree (g : CallGraph) (t : Arborescence) : Prop where
  root_eq : t.root = g.entry
  parent?_root : t.parent? t.root = none
  exists_parent : ∀ v ∈ g.nodes, v ≠ t.root → ∃ p, t.parent? v = some p
  parent?_iff : ∀ p c, t.parent? c = some p ↔ (p, c) ∈ t.edges
  children_iff : ∀ p c, c ∈ t.children p ↔ (p, c) ∈ t.edges
  parentTable_eq : ∀ c, t.parentTable[c]? = t.parent? c
  childTable_eq : ∀ p, t.childTable.getD p [] = t.children p
  children_ascending : ∀ p, (t.children p).Pairwise (· < ·)
  edges_ascending : t.edges.Pairwise fun a b => a.2 < b.2
  climbs : ∀ v ∈ g.nodes, ReflTransGen (fun c p => t.parent? c = some p) v t.root
  spanning : g.SpanningCalls t.edges.toFinset
  weight_le : ∀ tree, g.SpanningCalls tree →
    (t.edges.map g.callWeight).sum ≤ ∑ call ∈ tree, g.callWeight call

/-- The edges of a tree of calls are listed by ascending child. -/
theorem CallTree.edges_ascending {t : Arborescence} (h : g.CallTree t) :
    t.edges.Pairwise fun a b => a.2 < b.2 := by
  have hsorted : (g.nodes.filter (· != t.root)).Pairwise (· < ·) := g.nodes_pairwise.filter _
  rw [← h.spans.children_eq, List.pairwise_map] at hsorted
  exact hsorted

/-- The tree weighs what the edges weigh that the algorithm has chosen. -/
theorem WellFormed.exists_chosen (h : g.WellFormed) {t : Arborescence}
    (ht : g.arborescence? = some t) :
    ∃ chosen, Edmonds.MinimumArborescence g.vertexCount (g.rank g.entry) g.weightedEdges chosen ∧
      ((t.edges.map g.callWeight).sum : Int) =
        (chosen.map (Edmonds.weight g.weightedEdges)).sum := by
  rw [arborescence?, Option.map_eq_some_iff] at ht
  obtain ⟨chosen, hchosen, rfl⟩ := ht
  have hmin := minimumArborescence_of_eq_some (rank_lt h.entry_mem_nodes) h.inRange hchosen
  refine ⟨chosen, hmin, ?_⟩
  simp only [h.edges_sorted hmin]
  have hlt : ∀ i ∈ chosen, i < g.arcsInOrder.length := by
    intro i hi
    rw [← size_weightedEdges]
    exact hmin.spanning.lt_size i (List.mem_toFinset.2 hi)
  clear hmin hchosen
  induction chosen with
  | nil => simp
  | cons i chosen ih =>
    have hi := hlt i List.mem_cons_self
    have hrest := ih fun j hj => hlt j (List.mem_cons_of_mem _ hj)
    have hends : (g.arcsInOrder[i]?.map fun arc => (arc.caller, arc.callee)) =
        some (g.endsAt i) := by
      simp [endsAt, hi]
    rw [List.filterMap_cons_some (b := g.endsAt i) (by simpa using hends)]
    simp only [List.map_cons, List.sum_cons, Nat.cast_add, hrest, h.weight_eq hi]

/-- There is no tree exactly when the entry does not reach every function.  Otherwise the
tree is a lightest one, whichever numbers are in use. -/
theorem lightest_call_tree (h : g.WellFormed) :
    (g.arborescence? = none ↔ ∃ v, g.hasNode v = true ∧ ¬ g.Reaches g.entry v) ∧
      ∀ t, g.arborescence? = some t → g.LightestTree t := by
  refine ⟨h.arborescence?_eq_none_iff, ?_⟩
  intro t ht
  have htree := h.callTree ht
  have hspans := htree.spans
  have hascending := htree.edges_ascending
  refine ⟨htree.root_eq, ?_, ?_, fun p c => hspans.parent?_eq_some_iff,
    fun p c => Arborescence.mem_children, hspans.getElem?_parentTable, t.getD_childTable, ?_,
    hascending, fun v hv => hspans.climbs hv, htree.spanningCalls, ?_⟩
  · rw [Option.eq_none_iff_forall_ne_some]
    intro p hp
    exact (hspans.child_mem (hspans.parent?_eq_some_iff.1 hp)).2 rfl
  · intro v hv hne
    rw [htree.root_eq] at hne
    obtain ⟨p, hp, -⟩ := htree.spanningCalls.existsUnique_parent v hv hne
    exact ⟨p, hspans.parent?_eq_some_iff.2 (List.mem_toFinset.1 hp)⟩
  · intro p
    unfold Arborescence.children
    rw [List.pairwise_map]
    exact hascending.filter _
  · intro tree hspanning
    obtain ⟨chosen, hmin, hweight⟩ := h.exists_chosen ht
    have hle := hmin.weight_le _ (h.spanningArborescence hspanning)
    rw [h.sum_weight_positions hspanning.calls, ← hweight, ← Nat.cast_sum] at hle
    exact_mod_cast hle

/-! ## A number that is vacant -/

/-- An entry that calls one function, and in between a number that another function has
left vacant. -/
def ofGap (entry removed kept : String) : CallGraph :=
  ((((ofCall entry removed).insert (.named kept)).2.addCall 0 2 {}).2.remove 1).2

/-- A graph with a gap is well formed. -/
theorem wellFormed_ofGap (entry removed kept : String) : (ofGap entry removed kept).WellFormed :=
  (((built_ofCall _ _).insert _).addCall 0 2 {}).remove 1 |>.wellFormed

/-- The entry of a graph with a gap has the first number. -/
theorem entry_ofGap (entry removed kept : String) : (ofGap entry removed kept).entry = 0 := by
  rw [ofGap, entry_remove, entry_addCall, entry_insert, entry_ofCall]

section Gap

variable {entry removed kept : String}

/-- The removed function leaves its slot vacant. -/
theorem vertex?_ofGap (h : [entry, removed, kept].Nodup) (node : Nat) :
    (ofGap entry removed kept).vertex? node =
      #[some (Vertex.named entry), none, some (Vertex.named kept)][node]?.join := by
  simp at h
  simp [ofGap, ofCall, ofEntry, CallGraph.insert, CallGraph.addCall, allocate, Vertex.named, h,
    hasCall, arc?, hasNode, vertex?, CallGraph.pushArc, CallGraph.remove, detach, Arc.joins]

/-- The entry calls the function that was kept, and nothing else calls anything. -/
theorem hasCall_ofGap (h : [entry, removed, kept].Nodup) {p c : Nat} :
    (ofGap entry removed kept).hasCall p c = true ↔ p = 0 ∧ c = 2 := by
  have harcs : (ofGap entry removed kept).arcs = [⟨1, 0, 2, {}⟩] := by
    simp at h
    simp [ofGap, ofCall, ofEntry, CallGraph.insert, CallGraph.addCall, allocate, Vertex.named, h,
      hasCall, arc?, hasNode, vertex?, CallGraph.pushArc, CallGraph.remove, detach, Arc.joins,
      Arc.touches]
  rw [hasCall_iff, harcs]
  simp [eq_comm]

end Gap

/-- The tree joins the two functions on both sides of the vacant number. -/
theorem lightest_call_tree_gap :
    (ofGap "main" "parse" "inflate").WellFormed ∧
      (ofGap "main" "parse" "inflate").hasNode 1 = false ∧
      ∃ t, (ofGap "main" "parse" "inflate").arborescence? = some t ∧
        (ofGap "main" "parse" "inflate").LightestTree t ∧ t.parent? 2 = some 0 := by
  have hnames : ["main", "parse", "inflate"].Nodup := by decide
  have hw := wellFormed_ofGap "main" "parse" "inflate"
  have hreached : ∀ v, (ofGap "main" "parse" "inflate").hasNode v = true →
      (ofGap "main" "parse" "inflate").Reaches (ofGap "main" "parse" "inflate").entry v := by
    intro v hv
    rw [hasNode, vertex?_ofGap hnames] at hv
    rw [entry_ofGap]
    rcases v with _ | _ | _ | v
    · exact ReflTransGen.refl
    · simp at hv
    · exact ReflTransGen.single ((hasCall_ofGap hnames).2 ⟨rfl, rfl⟩)
    · simp at hv
  obtain ⟨hnone, hlightest⟩ := lightest_call_tree hw
  obtain ⟨t, ht⟩ : ∃ t, (ofGap "main" "parse" "inflate").arborescence? = some t := by
    rw [← Option.ne_none_iff_exists']
    intro hmissing
    obtain ⟨v, hv, hmissed⟩ := hnone.1 hmissing
    exact hmissed (hreached v hv)
  have htree := hlightest t ht
  refine ⟨hw, ?_, t, ht, htree, ?_⟩
  · rw [hasNode, vertex?_ofGap hnames]
    rfl
  · have hmem : 2 ∈ (ofGap "main" "parse" "inflate").nodes := by
      rw [mem_nodes, vertex?_ofGap hnames]
      rfl
    have hroot : t.root = 0 := by rw [htree.root_eq, entry_ofGap]
    obtain ⟨p, hp⟩ := htree.exists_parent 2 hmem (by omega)
    have hedge := List.mem_toFinset.2 ((htree.parent?_iff p 2).1 hp)
    obtain ⟨rfl, -⟩ := (hasCall_ofGap hnames).1 (htree.spanning.calls p 2 hedge)
    exact hp

end CallGraph

end FuzzCampaign

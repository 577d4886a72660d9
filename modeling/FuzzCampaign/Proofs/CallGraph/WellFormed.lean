import FuzzCampaign.CallGraph.Dot
import Mathlib.Data.List.Nodup
import Mathlib.Data.List.Perm.Basic

/-!
# Well-formed call graphs

The entry is a function of its graph, every call has both its ends in the graph,
two functions are joined by at most one call in each direction, and numbers that
were freed are not in use.  Every graph that is built from its entry by the
operations on call graphs has these properties.

Main definitions:

- `CallGraph.WellFormed`: the properties.
- `CallGraph.Built`: graphs that the operations build.

Main results:

- `CallGraph.Built.wellFormed`: every graph that can be built is well formed.
- `CallGraph.built_ofDot`: the graph of a text in the DOT language can be built.
-/

namespace FuzzCampaign.CallGraph

variable {g : CallGraph}

/-- What the operations on call graphs preserve about numbers. -/
structure WellFormed (g : CallGraph) : Prop where
  entry_mem : g.hasNode g.entry = true
  caller_mem : ∀ arc ∈ g.arcs, g.hasNode arc.caller = true
  callee_mem : ∀ arc ∈ g.arcs, g.hasNode arc.callee = true
  arcs_distinct : g.arcs.Pairwise fun a b => ¬ (a.caller = b.caller ∧ a.callee = b.callee)
  nodup_numbers : (g.arcs.map (·.index) ++ g.freeArcs).Nodup
  number_lt : ∀ index ∈ g.arcs.map (·.index) ++ g.freeArcs, index < g.arcBound
  free_vacant : ∀ slot ∈ g.freeSlots, slot < g.slots.size ∧ g.vertex? slot = none
  nodup_free : g.freeSlots.Nodup

/-- Two formulations of "at most one call between two functions". -/
theorem pairwise_ends_iff (arcs : List Arc) :
    arcs.Pairwise (fun a b => ¬ (a.caller = b.caller ∧ a.callee = b.callee)) ↔
      (arcs.map fun arc => (arc.caller, arc.callee)).Nodup := by
  rw [List.Nodup, List.pairwise_map]
  simp

/-- The ends of the calls of a well-formed graph are pairwise different. -/
theorem WellFormed.nodup_ends (h : g.WellFormed) :
    (g.arcs.map fun arc => (arc.caller, arc.callee)).Nodup :=
  (pairwise_ends_iff g.arcs).1 h.arcs_distinct

/-- The numbers of the calls of a well-formed graph are pairwise different. -/
theorem WellFormed.nodup_indices (h : g.WellFormed) : (g.arcs.map (·.index)).Nodup :=
  (List.nodup_append.1 h.nodup_numbers).1

/-! ## Functions after each operation -/

/-- A node that the graph has is a node with a function. -/
theorem hasNode_iff {node : Nat} : g.hasNode node = true ↔ ∃ v, g.vertex? node = some v := by
  rw [hasNode, Option.isSome_iff_exists]

/-- Functions live in the slots of the graph. -/
theorem lt_size_of_vertex? {node : Nat} {v : Vertex} (h : g.vertex? node = some v) :
    node < g.slots.size := by
  by_contra hge
  rw [vertex?, Array.getElem?_eq_none (Nat.le_of_not_lt hge)] at h
  exact absurd h (by simp)

/-- A function that is placed in a graph takes a number that nobody has. -/
structure Placed (g : CallGraph) (v : Vertex) (node : Nat) (g' : CallGraph) : Prop where
  vacant : g.vertex? node = none
  vertex?_eq : ∀ other, g'.vertex? other = if other = node then some v else g.vertex? other
  arcs_eq : g'.arcs = g.arcs
  freeArcs_eq : g'.freeArcs = g.freeArcs
  arcBound_eq : g'.arcBound = g.arcBound
  entry_eq : g'.entry = g.entry
  free_vacant : ∀ slot ∈ g'.freeSlots, slot < g'.slots.size ∧ g'.vertex? slot = none
  nodup_free : g'.freeSlots.Nodup

/-- A function that is placed leaves the others where they are. -/
theorem Placed.vertex?_of_hasNode {v : Vertex} {node other : Nat} {g' : CallGraph}
    (hp : Placed g v node g') (hother : g.hasNode other = true) :
    g'.vertex? other = g.vertex? other := by
  rw [hp.vertex?_eq, if_neg]
  rintro rfl
  rw [hasNode, hp.vacant] at hother
  exact absurd hother (by simp)

/-- Allocation places a function: in the slot that was freed last, else in a new one. -/
theorem WellFormed.allocate (h : g.WellFormed) (v : Vertex) :
    Placed g v (g.allocate v).1 (g.allocate v).2 := by
  cases hfree : g.freeSlots with
  | nil =>
    have hvertex : ∀ other, (g.allocate v).2.vertex? other =
        if other = g.slots.size then some v else g.vertex? other := by
      intro other
      simp only [CallGraph.allocate, hfree, vertex?, Array.getElem?_push]
      split <;> rfl
    have hfirst : (g.allocate v).1 = g.slots.size := by simp [CallGraph.allocate, hfree]
    rw [hfirst]
    refine ⟨?_, hvertex, ?_, ?_, ?_, entry_allocate g v, ?_, ?_⟩
    · rw [vertex?, Array.getElem?_eq_none (Nat.le_refl _)]
      rfl
    · simp [CallGraph.allocate, hfree]
    · simp [CallGraph.allocate, hfree]
    · simp [CallGraph.allocate, hfree]
    · simp [CallGraph.allocate, hfree]
    · simp [CallGraph.allocate, hfree]
  | cons slot rest =>
    obtain ⟨hlt, hvacant⟩ := h.free_vacant slot (by simp [hfree])
    have hnodup := h.nodup_free
    rw [hfree, List.nodup_cons] at hnodup
    have hvertex : ∀ other, (g.allocate v).2.vertex? other =
        if other = slot then some v else g.vertex? other := by
      intro other
      simp only [CallGraph.allocate, hfree, vertex?, Array.getElem?_setIfInBounds]
      by_cases hother : other = slot
      · subst hother
        simp [hlt]
      · simp [hother, Ne.symm hother]
    have hfirst : (g.allocate v).1 = slot := by simp [CallGraph.allocate, hfree]
    rw [hfirst]
    refine ⟨hvacant, hvertex, ?_, ?_, ?_, entry_allocate g v, ?_, ?_⟩
    · simp [CallGraph.allocate, hfree]
    · simp [CallGraph.allocate, hfree]
    · simp [CallGraph.allocate, hfree]
    · intro other hother
      have hmem : other ∈ rest := by simpa [CallGraph.allocate, hfree] using hother
      have hne : other ≠ slot := by
        rintro rfl
        exact hnodup.1 hmem
      obtain ⟨hlt', hvacant'⟩ := h.free_vacant other (by simp [hfree, hmem])
      rw [hvertex, if_neg hne]
      refine ⟨?_, hvacant'⟩
      simpa [CallGraph.allocate, hfree] using hlt'
    · simpa [CallGraph.allocate, hfree] using hnodup.2

/-- A graph with one more function is well formed. -/
theorem WellFormed.of_placed (h : g.WellFormed) {v : Vertex} {node : Nat} {g' : CallGraph}
    (hp : Placed g v node g') : g'.WellFormed := by
  have hkeep : ∀ other, g.hasNode other = true → g'.hasNode other = true := by
    intro other hother
    obtain ⟨w, hw⟩ := hasNode_iff.1 hother
    rw [hasNode_iff, hp.vertex?_eq]
    split
    · exact ⟨v, rfl⟩
    · exact ⟨w, hw⟩
  refine ⟨?_, ?_, ?_, ?_, ?_, ?_, hp.free_vacant, hp.nodup_free⟩
  · rw [hp.entry_eq]
    exact hkeep _ h.entry_mem
  · rw [hp.arcs_eq]
    exact fun arc harc => hkeep _ (h.caller_mem arc harc)
  · rw [hp.arcs_eq]
    exact fun arc harc => hkeep _ (h.callee_mem arc harc)
  · rw [hp.arcs_eq]
    exact h.arcs_distinct
  · rw [hp.arcs_eq, hp.freeArcs_eq]
    exact h.nodup_numbers
  · rw [hp.arcs_eq, hp.freeArcs_eq, hp.arcBound_eq]
    exact h.number_lt

/-- A function is inserted under a number that nobody has, unless its name is
known. -/
theorem WellFormed.placed_insert (h : g.WellFormed) {v : Vertex} (hnew : g.byName[v.name]? = none) :
    Placed g v (g.insert v).1 (g.insert v).2 := by
  have hp := h.allocate v
  simp only [CallGraph.insert, hnew]
  exact ⟨hp.vacant, hp.vertex?_eq, hp.arcs_eq, hp.freeArcs_eq, hp.arcBound_eq, hp.entry_eq,
    hp.free_vacant, hp.nodup_free⟩

/-- A function that is inserted is the only one that was not there. -/
theorem WellFormed.eq_of_vertex?_insert (h : g.WellFormed) {v w : Vertex} {node : Nat}
    (hw : (g.insert v).2.vertex? node = some w) : g.vertex? node = some w ∨ w = v := by
  cases hfind : g.byName[v.name]? with
  | some known => exact Or.inl (by simpa [CallGraph.insert, hfind] using hw)
  | none =>
    rw [(h.placed_insert hfind).vertex?_eq] at hw
    split at hw
    · exact Or.inr (Option.some.inj hw).symm
    · exact Or.inl hw

/-- Inserting a function keeps a graph well formed. -/
theorem WellFormed.insert (h : g.WellFormed) (v : Vertex) : (g.insert v).2.WellFormed := by
  cases hname : g.byName[v.name]? with
  | none => exact h.of_placed (h.placed_insert hname)
  | some node => simpa [CallGraph.insert, hname] using h

/-! ## Removing functions -/

/-- The entry cannot be removed. -/
theorem remove_entry (g : CallGraph) : g.remove g.entry = (none, g) := by
  simp [CallGraph.remove]

/-- Removing a vacant node changes nothing. -/
theorem remove_of_vacant {node : Nat} (h : g.vertex? node = none) : g.remove node = (none, g) := by
  simp [CallGraph.remove, h]

/-- Removing a function other than the entry. -/
theorem remove_of_vertex? {node : Nat} {v : Vertex} (hne : node ≠ g.entry)
    (h : g.vertex? node = some v) :
    g.remove node = (some v,
      { g.detach node with
        slots := g.slots.setIfInBounds node none
        freeSlots := node :: g.freeSlots
        byId := g.byId.erase v.id
        byName := g.byName.erase v.name }) := by
  simp only [CallGraph.remove, hne, if_false, h]
  rfl

/-- A removed function takes its calls with it, in both directions. -/
theorem arcs_remove {node : Nat} (hne : node ≠ g.entry) (h : g.hasNode node = true) :
    (g.remove node).2.arcs = g.arcs.filter fun arc => !arc.touches node := by
  obtain ⟨v, hv⟩ := hasNode_iff.1 h
  rw [remove_of_vertex? hne hv]
  rfl

/-- A removal empties its own slot and no other. -/
theorem vertex?_remove {node : Nat} (hne : node ≠ g.entry) (other : Nat) :
    (g.remove node).2.vertex? other = if other = node then none else g.vertex? other := by
  cases hv : g.vertex? node with
  | none =>
    rw [remove_of_vacant hv]
    split
    · rename_i heq
      rw [heq, hv]
    · rfl
  | some v =>
    have hlt := lt_size_of_vertex? hv
    rw [remove_of_vertex? hne hv]
    simp only [vertex?, Array.getElem?_setIfInBounds]
    by_cases hother : other = node
    · subst hother
      simp [hlt]
    · simp [hother, Ne.symm hother]

/-- A function that is there after a removal was there before. -/
theorem eq_of_vertex?_remove {node other : Nat} {v : Vertex}
    (hv : (g.remove node).2.vertex? other = some v) : g.vertex? other = some v := by
  by_cases hne : node = g.entry
  · rwa [hne, remove_entry] at hv
  · rw [vertex?_remove hne] at hv
    split at hv
    · exact absurd hv (by simp)
    · exact hv

/-- The calls that a function makes, and those that others make to it, are all
calls that touch it. -/
theorem made_append_received_perm (g : CallGraph) (node : Nat) :
    (g.arcs.filter (fun arc => !arc.touches node) ++
      (g.outgoing node ++ (g.incoming node).filter (·.caller != node))).Perm g.arcs := by
  have hmade : (g.arcs.filter (·.touches node)).filter (·.caller == node) = g.outgoing node := by
    rw [List.filter_filter, outgoing]
    refine List.filter_congr ?_
    intro arc _
    by_cases harc : arc.caller = node
    · simp [harc]
    · have hne : (arc.caller == node) = false := by simpa using harc
      simp [hne]
  have hreceived : (g.arcs.filter (·.touches node)).filter (fun arc => !(arc.caller == node)) =
      (g.incoming node).filter (·.caller != node) := by
    rw [List.filter_filter, incoming, List.filter_filter]
    refine List.filter_congr ?_
    intro arc _
    by_cases harc : arc.caller = node
    · simp [harc]
    · have hne : (arc.caller == node) = false := by simpa using harc
      simp [Arc.touches, bne, hne]
  have hsplit := List.filter_append_perm (·.caller == node) (g.arcs.filter (·.touches node))
  rw [hmade, hreceived] at hsplit
  refine (List.Perm.append_left _ hsplit).trans ?_
  refine List.perm_append_comm.trans ?_
  exact List.filter_append_perm (·.touches node) g.arcs

/-- The numbers of the calls that are removed become free. -/
theorem numbers_remove_perm {node : Nat} (hne : node ≠ g.entry) (h : g.hasNode node = true) :
    ((g.remove node).2.arcs.map (·.index) ++ (g.remove node).2.freeArcs).Perm
      (g.arcs.map (·.index) ++ g.freeArcs) := by
  obtain ⟨v, hv⟩ := hasNode_iff.1 h
  have hfree : (g.remove node).2.freeArcs =
      ((g.outgoing node ++ (g.incoming node).filter (·.caller != node)).map
        (·.index)).reverse ++ g.freeArcs := by
    rw [remove_of_vertex? hne hv]
    rfl
  rw [arcs_remove hne h, hfree, ← List.append_assoc]
  refine List.Perm.append_right _ ?_
  refine (List.Perm.append_left _ (List.reverse_perm _)).trans ?_
  rw [← List.map_append]
  exact (g.made_append_received_perm node).map _

/-- Removing a function keeps a graph well formed: its calls leave with it, and its slot becomes
free. -/
theorem WellFormed.remove (h : g.WellFormed) (node : Nat) : (g.remove node).2.WellFormed := by
  by_cases hne : node = g.entry
  · rw [hne, remove_entry]
    exact h
  cases hv : g.vertex? node with
  | none =>
    rw [remove_of_vacant hv]
    exact h
  | some v =>
    have hnode : g.hasNode node = true := hasNode_iff.2 ⟨v, hv⟩
    have hlt := lt_size_of_vertex? hv
    have hvertex := vertex?_remove (g := g) hne
    have harcs := arcs_remove hne hnode
    have hmem : ∀ arc, arc ∈ (g.remove node).2.arcs ↔
        arc ∈ g.arcs ∧ arc.caller ≠ node ∧ arc.callee ≠ node := by
      intro arc
      rw [harcs, List.mem_filter]
      simp [Arc.touches]
    have hkeep : ∀ other, other ≠ node → g.hasNode other = true →
        (g.remove node).2.hasNode other = true := by
      intro other hother hold
      rw [hasNode, hvertex, if_neg hother]
      exact hold
    have hnumbers := numbers_remove_perm hne hnode
    have hfree : (g.remove node).2.freeSlots = node :: g.freeSlots := by
      rw [remove_of_vertex? hne hv]
    refine ⟨?_, ?_, ?_, ?_, ?_, ?_, ?_, ?_⟩
    · rw [entry_remove]
      exact hkeep _ (Ne.symm hne) h.entry_mem
    · intro arc harc
      obtain ⟨hold, hcaller, -⟩ := (hmem arc).1 harc
      exact hkeep _ hcaller (h.caller_mem arc hold)
    · intro arc harc
      obtain ⟨hold, -, hcallee⟩ := (hmem arc).1 harc
      exact hkeep _ hcallee (h.callee_mem arc hold)
    · rw [harcs]
      exact h.arcs_distinct.filter _
    · exact hnumbers.nodup_iff.2 h.nodup_numbers
    · have hbound : (g.remove node).2.arcBound = g.arcBound := by
        rw [remove_of_vertex? hne hv]
        rfl
      rw [hbound]
      exact fun index hindex => h.number_lt index (hnumbers.mem_iff.1 hindex)
    · have hsize : (g.remove node).2.slots.size = g.slots.size := by
        rw [remove_of_vertex? hne hv]
        exact Array.size_setIfInBounds
      rw [hfree, hsize]
      intro slot hslot
      rw [hvertex]
      rcases List.mem_cons.1 hslot with rfl | hslot
      · exact ⟨hlt, if_pos rfl⟩
      · obtain ⟨hslt, hvacant⟩ := h.free_vacant slot hslot
        refine ⟨hslt, ?_⟩
        rw [hvacant, ite_self]
    · rw [hfree, List.nodup_cons]
      refine ⟨?_, h.nodup_free⟩
      intro hslot
      rw [(h.free_vacant node hslot).2] at hv
      exact absurd hv (by simp)

/-! ## Adding calls -/

/-- A call between functions that no call joins is added under a number that is not in use. -/
theorem WellFormed.cons (h : g.WellFormed) {arc : Arc} {bound : Nat} {free : List Nat}
    (hcaller : g.hasNode arc.caller = true) (hcallee : g.hasNode arc.callee = true)
    (hfresh : ∀ other ∈ g.arcs, ¬ (arc.caller = other.caller ∧ arc.callee = other.callee))
    (hnumbers : (arc.index :: g.arcs.map (·.index) ++ free).Nodup)
    (hlt : ∀ index ∈ arc.index :: g.arcs.map (·.index) ++ free, index < bound) :
    WellFormed { g with arcs := arc :: g.arcs, arcBound := bound, freeArcs := free } := by
  refine ⟨h.entry_mem, ?_, ?_, ?_, hnumbers, hlt, h.free_vacant, h.nodup_free⟩
  · rw [List.forall_mem_cons]
    exact ⟨hcaller, h.caller_mem⟩
  · rw [List.forall_mem_cons]
    exact ⟨hcallee, h.callee_mem⟩
  · exact List.pairwise_cons.2 ⟨hfresh, h.arcs_distinct⟩

/-- A call that is added takes a number that was given back, or the next new one. -/
theorem WellFormed.pushArc (h : g.WellFormed) {caller callee : Nat} (call : Call)
    (hnew : g.hasCall caller callee = false) (hcaller : g.hasNode caller = true)
    (hcallee : g.hasNode callee = true) : (g.pushArc caller callee call).WellFormed := by
  have hfresh : ∀ arc ∈ g.arcs, ¬ (caller = arc.caller ∧ callee = arc.callee) := by
    rintro arc harc ⟨rfl, rfl⟩
    have hcall : g.hasCall arc.caller arc.callee = true := hasCall_iff.2 ⟨arc, harc, rfl, rfl⟩
    rw [hnew] at hcall
    exact absurd hcall (by simp)
  rw [CallGraph.pushArc]
  split
  · rename_i index rest hfree
    have hperm : (index :: g.arcs.map (·.index) ++ rest).Perm
        (g.arcs.map (·.index) ++ g.freeArcs) := by
      rw [hfree]
      exact List.perm_middle.symm
    exact h.cons hcaller hcallee hfresh (hperm.nodup_iff.2 h.nodup_numbers)
      fun i hi => h.number_lt i (hperm.mem_iff.1 hi)
  · refine h.cons hcaller hcallee hfresh (List.nodup_cons.2 ⟨?_, h.nodup_numbers⟩) ?_
    · exact fun hmem => Nat.lt_irrefl _ (h.number_lt _ hmem)
    · exact List.forall_mem_cons.2 ⟨Nat.lt_succ_self _, fun index hindex =>
        Nat.lt_succ_of_lt (h.number_lt index hindex)⟩

/-- A new call keeps a graph well formed, whether or not it was there before. -/
theorem WellFormed.addCall (h : g.WellFormed) (caller callee : Nat) (call : Call) :
    (g.addCall caller callee call).2.WellFormed := by
  unfold CallGraph.addCall
  split
  · exact h
  · rename_i hcheck
    simp only [Bool.or_eq_true, Bool.not_eq_true', not_or, Bool.not_eq_true,
      Bool.not_eq_false] at hcheck
    exact h.pushArc call hcheck.1.1 hcheck.1.2 hcheck.2

/-! ## Changing attributes -/

/-- Two graphs have the same functions and calls under the same numbers, with
possibly different attributes. -/
structure SameShape (g g' : CallGraph) : Prop where
  hasNode_eq : ∀ node, g'.hasNode node = g.hasNode node
  size_eq : g'.slots.size = g.slots.size
  ends_eq : g'.arcs.map (fun arc => (arc.index, arc.caller, arc.callee)) =
    g.arcs.map fun arc => (arc.index, arc.caller, arc.callee)
  entry_eq : g'.entry = g.entry
  freeSlots_eq : g'.freeSlots = g.freeSlots
  freeArcs_eq : g'.freeArcs = g.freeArcs
  arcBound_eq : g'.arcBound = g.arcBound

/-- A graph has its own shape. -/
theorem SameShape.refl (g : CallGraph) : SameShape g g :=
  ⟨fun _ => rfl, rfl, rfl, rfl, rfl, rfl, rfl⟩

/-- Sharing a shape is transitive. -/
theorem SameShape.trans {g g' g'' : CallGraph} (h : SameShape g g') (h' : SameShape g' g'') :
    SameShape g g'' :=
  ⟨fun node => (h'.hasNode_eq node).trans (h.hasNode_eq node), h'.size_eq.trans h.size_eq,
    h'.ends_eq.trans h.ends_eq, h'.entry_eq.trans h.entry_eq,
    h'.freeSlots_eq.trans h.freeSlots_eq, h'.freeArcs_eq.trans h.freeArcs_eq,
    h'.arcBound_eq.trans h.arcBound_eq⟩

/-- The ends of the calls decide which calls there are. -/
theorem SameShape.exists_arc {g g' : CallGraph} (h : SameShape g g') {arc : Arc}
    (harc : arc ∈ g'.arcs) :
    ∃ old ∈ g.arcs, old.index = arc.index ∧ old.caller = arc.caller ∧ old.callee = arc.callee := by
  have hmem : (arc.index, arc.caller, arc.callee) ∈
      g'.arcs.map fun arc => (arc.index, arc.caller, arc.callee) := List.mem_map_of_mem harc
  rw [h.ends_eq, List.mem_map] at hmem
  obtain ⟨old, hold, heq⟩ := hmem
  simp only [Prod.mk.injEq] at heq
  exact ⟨old, hold, heq.1, heq.2.1, heq.2.2⟩

/-- Sharing a shape goes both ways. -/
theorem SameShape.symm {g g' : CallGraph} (h : SameShape g g') : SameShape g' g :=
  ⟨fun node => (h.hasNode_eq node).symm, h.size_eq.symm, h.ends_eq.symm, h.entry_eq.symm,
    h.freeSlots_eq.symm, h.freeArcs_eq.symm, h.arcBound_eq.symm⟩

/-- Graphs of one shape have the same calls. -/
theorem SameShape.hasCall_eq {g g' : CallGraph} (h : SameShape g g') (caller callee : Nat) :
    g'.hasCall caller callee = g.hasCall caller callee := by
  rw [Bool.eq_iff_iff, hasCall_iff, hasCall_iff]
  constructor
  · rintro ⟨arc, harc, rfl, rfl⟩
    obtain ⟨old, hold, -, hcaller, hcallee⟩ := h.exists_arc harc
    exact ⟨old, hold, hcaller, hcallee⟩
  · rintro ⟨arc, harc, rfl, rfl⟩
    obtain ⟨new, hnew, -, hcaller, hcallee⟩ := h.symm.exists_arc harc
    exact ⟨new, hnew, hcaller, hcallee⟩

/-- Graphs of one shape have the same nodes. -/
theorem SameShape.nodes_eq {g g' : CallGraph} (h : SameShape g g') : g'.nodes = g.nodes := by
  rw [nodes, nodes, h.size_eq]
  refine List.filter_congr ?_
  intro node _
  exact h.hasNode_eq node

/-- Whether a graph is well formed depends on its shape alone. -/
theorem WellFormed.of_sameShape {g' : CallGraph} (h : g.WellFormed) (hs : SameShape g g') :
    g'.WellFormed := by
  have hindex : g'.arcs.map (·.index) = g.arcs.map (·.index) := by
    have hfst := congrArg (List.map Prod.fst) hs.ends_eq
    simpa [List.map_map, Function.comp_def] using hfst
  have hends : g'.arcs.map (fun arc => (arc.caller, arc.callee)) =
      g.arcs.map fun arc => (arc.caller, arc.callee) := by
    have hsnd := congrArg (List.map Prod.snd) hs.ends_eq
    simpa [List.map_map, Function.comp_def] using hsnd
  refine ⟨?_, ?_, ?_, ?_, ?_, ?_, ?_, ?_⟩
  · rw [hs.hasNode_eq, hs.entry_eq]
    exact h.entry_mem
  · intro arc harc
    obtain ⟨old, hold, -, hcaller, -⟩ := hs.exists_arc harc
    rw [hs.hasNode_eq, ← hcaller]
    exact h.caller_mem old hold
  · intro arc harc
    obtain ⟨old, hold, -, -, hcallee⟩ := hs.exists_arc harc
    rw [hs.hasNode_eq, ← hcallee]
    exact h.callee_mem old hold
  · rw [pairwise_ends_iff, hends]
    exact h.nodup_ends
  · rw [hindex, hs.freeArcs_eq]
    exact h.nodup_numbers
  · rw [hindex, hs.freeArcs_eq, hs.arcBound_eq]
    exact h.number_lt
  · rw [hs.freeSlots_eq, hs.size_eq]
    intro slot hslot
    obtain ⟨hlt, hvacant⟩ := h.free_vacant slot hslot
    refine ⟨hlt, ?_⟩
    have hsame := hs.hasNode_eq slot
    simp only [hasNode, hvacant, Option.isSome_none, Option.isSome_eq_false_iff,
      Option.isNone_iff_eq_none] at hsame
    exact hsame
  · rw [hs.freeSlots_eq]
    exact h.nodup_free

/-- A changed function keeps the shape of the graph. -/
theorem sameShape_modifyVertex (g : CallGraph) (node : Nat) (f : Vertex → Vertex) :
    SameShape g (g.modifyVertex node f) := by
  refine ⟨?_, by simp [modifyVertex], rfl, rfl, rfl, rfl, rfl⟩
  intro other
  rw [hasNode, vertex?_modifyVertex]
  split <;> simp [hasNode]

/-- An annotation keeps the shape of the graph. -/
theorem sameShape_annotate (g : CallGraph) (node : Nat) (f : Annotations → Annotations) :
    SameShape g (g.annotate node f) :=
  g.sameShape_modifyVertex node (·.annotate f)

/-- A changed call keeps the shape of the graph. -/
theorem sameShape_modifyCall (g : CallGraph) (index : Nat) (f : Call → Call) :
    SameShape g (g.modifyCall index f) := by
  refine ⟨fun _ => rfl, rfl, ?_, rfl, rfl, rfl, rfl⟩
  rw [modifyCall, List.map_map]
  refine List.map_congr_left ?_
  intro arc _
  simp only [Function.comp_apply]
  split <;> rfl

/-- Clearing the colours touches nothing but the colours. -/
theorem vertex?_clearColors (g : CallGraph) (node : Nat) :
    g.clearColors.vertex? node =
      (g.vertex? node).map (·.annotate fun notes => { notes with color := none }) := by
  rw [vertex?, vertex?, clearColors, Array.getElem?_map]
  cases g.slots[node]? <;> rfl

/-- Clearing the colours keeps the shape of the graph. -/
theorem sameShape_clearColors (g : CallGraph) : SameShape g g.clearColors := by
  refine ⟨?_, by simp [clearColors], ?_, rfl, rfl, rfl, rfl⟩
  · intro node
    rw [hasNode, vertex?_clearColors, Option.isSome_map, hasNode]
  · rw [clearColors, List.map_map]
    rfl

/-! ## Graphs that can be built -/

/-- The graphs that the operations build from an entry. -/
inductive Built : CallGraph → Prop
  | ofEntry (entry : Vertex) : Built (CallGraph.ofEntry entry)
  | insert {g : CallGraph} (earlier : Built g) (v : Vertex) : Built (g.insert v).2
  | remove {g : CallGraph} (earlier : Built g) (node : Nat) : Built (g.remove node).2
  | addCall {g : CallGraph} (earlier : Built g) (caller callee : Nat) (call : Call) :
      Built (g.addCall caller callee call).2
  | annotate {g : CallGraph} (earlier : Built g) (node : Nat) (f : Annotations → Annotations) :
      Built (g.annotate node f)
  | modifyCall {g : CallGraph} (earlier : Built g) (index : Nat) (f : Call → Call) :
      Built (g.modifyCall index f)
  | clearColors {g : CallGraph} (earlier : Built g) : Built g.clearColors

/-- A graph of its entry alone is well formed. -/
theorem wellFormed_ofEntry (entry : Vertex) : (ofEntry entry).WellFormed := by
  refine ⟨rfl, ?_, ?_, List.Pairwise.nil, List.nodup_nil, ?_, ?_, List.nodup_nil⟩
  · simp [ofEntry]
  · simp [ofEntry]
  · simp [ofEntry]
  · simp [ofEntry]

/-- Every graph that can be built is well formed. -/
theorem Built.wellFormed (h : Built g) : g.WellFormed := by
  induction h with
  | ofEntry entry => exact wellFormed_ofEntry entry
  | insert _ v ih => exact ih.insert v
  | remove _ node ih => exact ih.remove node
  | addCall _ caller callee call ih => exact ih.addCall caller callee call
  | annotate _ node f ih => exact ih.of_sameShape (sameShape_annotate _ node f)
  | modifyCall _ index f ih => exact ih.of_sameShape (sameShape_modifyCall _ index f)
  | clearColors _ ih => exact ih.of_sameShape (sameShape_clearColors _)

/-- The graph of a text in the DOT language can be built. -/
theorem built_ofDot {text entry : String} (h : ofDot text entry = .ok g) : Built g := by
  simp only [ofDot, ofStatements] at h
  split at h
  · exact absurd h (by simp)
  · rename_i node name _
    rw [Except.ok.injEq] at h
    rw [← h]
    have hlabels : ∀ (labels : List (String × String)) (start : CallGraph), Built start →
        Built (labels.foldl (fun g label => g.insertLabelled label.1 label.2) start) := by
      intro labels
      induction labels with
      | nil => exact fun _ hstart => hstart
      | cons label labels ih => exact fun _ hstart => ih _ (hstart.insert _)
    have hedges : ∀ (labels edges : List (String × String)) (start : CallGraph), Built start →
        Built (edges.foldl (addLabelled labels) start) := by
      intro labels edges
      induction edges with
      | nil => exact fun _ hstart => hstart
      | cons edge edges ih =>
        intro start hstart
        refine ih _ ?_
        rw [addLabelled]
        split
        · exact hstart.addCall _ _ _
        · exact hstart
    exact hedges _ _ _ (hlabels _ _ (.ofEntry _))

/-- The graph of an entry that calls one other function. -/
def ofCall (caller callee : String) : CallGraph :=
  (((ofEntry (.named caller)).insert (.named callee)).2.addCall 0 1 {}).2

/-- A call between two functions makes a built graph. -/
theorem built_ofCall (caller callee : String) : Built (ofCall caller callee) :=
  .addCall (.insert (.ofEntry _) _) 0 1 {}

/-- The caller has the first number and the callee the second. -/
theorem vertex?_ofCall {caller callee : String} (h : caller ≠ callee) (node : Nat) :
    (ofCall caller callee).vertex? node =
      #[some (Vertex.named caller), some (Vertex.named callee)][node]?.join := by
  simp [ofCall, ofEntry, CallGraph.insert, CallGraph.addCall, CallGraph.allocate, Vertex.named, h,
    hasCall, arc?, hasNode, vertex?, CallGraph.pushArc]

/-- The caller calls the callee. -/
theorem hasCall_ofCall {caller callee : String} (h : caller ≠ callee) :
    (ofCall caller callee).hasCall 0 1 = true := by
  simp [ofCall, ofEntry, CallGraph.insert, CallGraph.addCall, CallGraph.allocate, Vertex.named, h,
    hasCall, arc?, hasNode, vertex?, CallGraph.pushArc, Arc.joins]

/-- The caller is the entry. -/
theorem entry_ofCall (caller callee : String) : (ofCall caller callee).entry = 0 := by
  rw [ofCall, entry_addCall, entry_insert]
  rfl

end FuzzCampaign.CallGraph

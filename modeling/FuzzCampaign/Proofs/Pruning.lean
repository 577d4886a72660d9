import FuzzCampaign.Proofs.CallGraph.Reachability
import FuzzCampaign.Pruning

/-!
# What pruning leaves

Dropping functions removes them and the calls that touch them, and parks their
names.  After the first pass the graph holds the entry and the instrumented
functions; the second pass removes no call; after the third pass everything is
reachable.  What is left are the functions at the end of a path from the entry
through instrumented functions, and for these a second pruning has nothing to
do.

Main definitions:

- `Survey.Survives`: a function is at the end of such a path.
- `Survey.Dropped`, `Survey.Pass`: what dropping a list of functions does.
- `Survey.Pruned`: what pruning does.

Main results:

- `Survey.pass_dropAll`: a pass drops its functions and nothing else.
- `Survey.pruned_prune`: the three passes leave exactly the survivors.
- `Survey.Pruned.prune_eq`: pruning a pruned graph changes nothing.
-/

namespace FuzzCampaign

/-- A function with the instrumented locations that the index has for it. -/
def Vertex.located (blocks : BlockIndex) (v : Vertex) : Vertex :=
  match blocks.find? v.name with
  | some locations => v.annotate fun notes => { notes with locations := locations }
  | none => v

@[simp] theorem Vertex.id_located (blocks : BlockIndex) (v : Vertex) :
    (v.located blocks).id = v.id := by
  unfold Vertex.located
  split <;> rfl

@[simp] theorem Vertex.origin_located (blocks : BlockIndex) (v : Vertex) :
    (v.located blocks).origin = v.origin := by
  unfold Vertex.located
  split <;> rfl

@[simp] theorem Vertex.name_located (blocks : BlockIndex) (v : Vertex) :
    (v.located blocks).name = v.name := by
  unfold Vertex.located
  split <;> rfl

/-- Locating twice is locating once. -/
@[simp] theorem Vertex.located_located (blocks : BlockIndex) (v : Vertex) :
    (v.located blocks).located blocks = v.located blocks := by
  cases hfind : blocks.find? v.name with
  | none => simp [Vertex.located, hfind]
  | some locations => simp [Vertex.located, hfind, Vertex.annotate]

namespace CallGraph

variable {g : CallGraph}

/-! ## Entering locations -/

/-- Locating a function keeps the shape of the graph. -/
theorem sameShape_locate (blocks : BlockIndex) (g : CallGraph) (node : Nat) :
    SameShape g (locate blocks g node) := by
  unfold locate
  split
  · exact .refl g
  · split
    · exact sameShape_annotate g node _
    · exact .refl g

/-- One function is located and the others stay as they are. -/
theorem vertex?_locate (blocks : BlockIndex) (g : CallGraph) (node other : Nat) :
    (locate blocks g node).vertex? other =
      if node = other then (g.vertex? other).map (·.located blocks) else g.vertex? other := by
  by_cases hne : node = other
  · subst hne
    rw [if_pos rfl]
    cases hv : g.vertex? node with
    | none => simp [locate, name?, hv]
    | some v =>
      cases hfind : blocks.find? v.name with
      | none => simp [locate, name?, hv, hfind, Vertex.located]
      | some locations => simp [locate, name?, hv, hfind, Vertex.located, vertex?_annotate]
  · rw [if_neg hne]
    unfold locate
    split
    · rfl
    · split
      · rw [vertex?_annotate, if_neg hne]
      · rfl

/-- Locating a function touches no call. -/
theorem arcs_locate (blocks : BlockIndex) (g : CallGraph) (node : Nat) :
    (locate blocks g node).arcs = g.arcs := by
  unfold locate
  split
  · rfl
  · split <;> rfl

/-- Nothing is entered for a function that has its locations. -/
theorem locate_eq_self {blocks : BlockIndex} {node : Nat} {v : Vertex}
    (hv : g.vertex? node = some v) (hlocated : v.located blocks = v) :
    locate blocks g node = g := by
  cases hfind : blocks.find? v.name with
  | none => simp [locate, name?, hv, hfind]
  | some locations =>
    have hlocate : locate blocks g node =
        g.annotate node fun notes => { notes with locations := locations } := by
      simp [locate, name?, hv, hfind]
    have hslots : g.slots.modify node (fun slot => slot.map
        (·.annotate fun notes => { notes with locations := locations })) = g.slots := by
      refine Array.ext_getElem? ?_
      intro i
      rw [Array.getElem?_modify]
      split
      · rename_i hi
        subst hi
        simp only [Vertex.located, hfind] at hlocated
        rw [vertex?] at hv
        cases hslot : g.slots[node]? with
        | none => rfl
        | some slot =>
          rw [hslot, Option.join_some] at hv
          rw [hv, Option.map_some, Option.map_some, hlocated]
      · rfl
    rw [hlocate, annotate, hslots]

section LocateAll

variable (blocks : BlockIndex)

/-- The functions of the listed nodes are located and no others. -/
theorem vertex?_foldl_locate (g : CallGraph) (nodes : List Nat) (node : Nat) :
    (nodes.foldl (locate blocks) g).vertex? node =
      if node ∈ nodes then (g.vertex? node).map (·.located blocks) else g.vertex? node := by
  induction nodes generalizing g with
  | nil => rfl
  | cons first nodes ih =>
    rw [List.foldl_cons, ih, vertex?_locate]
    by_cases hfirst : first = node
    · subst hfirst
      simp [Option.map_map, Function.comp_def]
    · simp [hfirst, Ne.symm hfirst]

/-- Locating all functions keeps the shape of the graph. -/
theorem sameShape_locateAll (g : CallGraph) : SameShape g (g.locateAll blocks) := by
  have hfold : ∀ (nodes : List Nat) (g : CallGraph),
      SameShape g (nodes.foldl (locate blocks) g) := by
    intro nodes
    induction nodes with
    | nil => exact .refl
    | cons node nodes ih => exact fun g => (sameShape_locate blocks g node).trans (ih _)
  exact hfold _ g

/-- Every function gets its locations. -/
theorem vertex?_locateAll (g : CallGraph) (node : Nat) :
    (g.locateAll blocks).vertex? node = (g.vertex? node).map (·.located blocks) := by
  rw [locateAll, vertex?_foldl_locate]
  split
  · rfl
  · rename_i hnode
    rw [mem_nodes, Option.not_isSome_iff_eq_none] at hnode
    rw [hnode]
    rfl

/-- Locating all functions touches no call. -/
theorem arcs_locateAll (g : CallGraph) : (g.locateAll blocks).arcs = g.arcs := by
  have hfold : ∀ (nodes : List Nat) (g : CallGraph),
      (nodes.foldl (locate blocks) g).arcs = g.arcs := by
    intro nodes
    induction nodes with
    | nil => exact fun _ => rfl
    | cons node nodes ih => exact fun g => (ih _).trans (arcs_locate blocks g node)
  exact hfold _ g

/-- Nothing is entered when every function has its locations. -/
theorem locateAll_eq_self {g : CallGraph}
    (h : ∀ node v, g.vertex? node = some v → v.located blocks = v) :
    g.locateAll blocks = g := by
  have hfold : ∀ nodes : List Nat, nodes ⊆ g.nodes → nodes.foldl (locate blocks) g = g := by
    intro nodes
    induction nodes with
    | nil => exact fun _ => rfl
    | cons node nodes ih =>
      intro hsub
      obtain ⟨hnode, hrest⟩ := List.cons_subset.1 hsub
      obtain ⟨v, hv⟩ := Option.isSome_iff_exists.1 (mem_nodes.1 hnode)
      rw [List.foldl_cons, locate_eq_self hv (h node v hv)]
      exact ih hrest
  exact hfold _ (List.Subset.refl _)

end LocateAll

end CallGraph

namespace Survey

open CallGraph Relation

variable {s s' : Survey} {blocks : BlockIndex}

/-! ## Dropping functions -/

/-- A list of functions was dropped: they and their calls are gone and their names
parked, and nothing else changed. -/
structure Dropped (s s' : Survey) (dropped : List Nat) : Prop where
  wellFormed : s'.graph.WellFormed
  vertex?_eq : ∀ v, s'.graph.vertex? v = if v ∈ dropped then none else s.graph.vertex? v
  arcs_eq : s'.graph.arcs =
    s.graph.arcs.filter fun arc => decide (arc.caller ∉ dropped) && decide (arc.callee ∉ dropped)
  entry_eq : s'.graph.entry = s.graph.entry
  mem_spare : ∀ name, name ∈ s'.state.spare ↔
    name ∈ s.state.spare ∨ ∃ v ∈ dropped, s.graph.name? v = some name
  round_eq : s'.state.round = s.state.round
  phase_eq : s'.state.phase = s.state.phase
  profiled_eq : s'.state.profiled = s.state.profiled

/-- Dropping a single function. -/
theorem drop_eq (h : s.graph.WellFormed) {node : Nat} (hnode : s.graph.hasNode node = true)
    (hne : node ≠ s.graph.entry) : (s.drop node).1 = 1 ∧ Dropped s (s.drop node).2 [node] := by
  obtain ⟨v, hv⟩ := hasNode_iff.1 hnode
  have hremove := remove_of_vertex? hne hv
  have hgraph : (s.drop node).2.graph = (s.graph.remove node).2 := by
    rw [drop, hremove]
  have hstate : (s.drop node).2.state = s.state.park v.name := by
    rw [drop, hremove]
  have hcount : (s.drop node).1 = 1 := by
    rw [drop, hremove]
  refine ⟨hcount, ?_, ?_, ?_, ?_, ?_, ?_, ?_, ?_⟩
  · rw [hgraph]
    exact h.remove node
  · intro other
    rw [hgraph, vertex?_remove hne]
    simp only [List.mem_singleton]
  · rw [hgraph, arcs_remove hne hnode]
    refine List.filter_congr ?_
    intro arc _
    rw [Bool.eq_iff_iff]
    simp [Arc.touches]
  · rw [hgraph, entry_remove]
  · intro name
    rw [hstate, CampaignState.mem_spare_park, or_comm]
    simp [name?, hv]
  · rw [hstate]
    rfl
  · rw [hstate]
    rfl
  · rw [hstate]
    rfl

/-- What was dropped in two steps is dropped by both lists together. -/
theorem Dropped.trans {s'' : Survey} {a b : List Nat} (h : Dropped s s' a)
    (h' : Dropped s' s'' b) (hdisjoint : ∀ v ∈ b, v ∉ a) : Dropped s s'' (a ++ b) := by
  have hname : ∀ v ∈ b, s'.graph.name? v = s.graph.name? v := by
    intro v hv
    rw [name?, name?, h.vertex?_eq, if_neg (hdisjoint v hv)]
  refine ⟨h'.wellFormed, ?_, ?_, h'.entry_eq.trans h.entry_eq, ?_, h'.round_eq.trans h.round_eq,
    h'.phase_eq.trans h.phase_eq, h'.profiled_eq.trans h.profiled_eq⟩
  · intro v
    rw [h'.vertex?_eq, h.vertex?_eq]
    by_cases ha : v ∈ a
    · simp [ha]
    · simp [ha]
  · rw [h'.arcs_eq, h.arcs_eq, List.filter_filter]
    refine List.filter_congr ?_
    intro arc _
    rw [Bool.eq_iff_iff]
    simp only [Bool.and_eq_true, decide_eq_true_eq, List.mem_append, not_or]
    constructor
    · rintro ⟨⟨hcb, heb⟩, hca, hea⟩
      exact ⟨⟨hca, hcb⟩, hea, heb⟩
    · rintro ⟨⟨hca, hcb⟩, hea, heb⟩
      exact ⟨⟨hcb, heb⟩, hca, hea⟩
  · intro name
    rw [h'.mem_spare, h.mem_spare, or_assoc]
    refine or_congr_right ?_
    constructor
    · rintro (⟨v, hv, hsome⟩ | ⟨v, hv, hsome⟩)
      · exact ⟨v, List.mem_append_left _ hv, hsome⟩
      · exact ⟨v, List.mem_append_right _ hv, (hname v hv) ▸ hsome⟩
    · rintro ⟨v, hv, hsome⟩
      rcases List.mem_append.1 hv with hv | hv
      · exact Or.inl ⟨v, hv, hsome⟩
      · exact Or.inr ⟨v, hv, (hname v hv).trans hsome⟩

/-- The functions that are not dropped are left. -/
theorem Dropped.hasNode_iff {dropped : List Nat} (h : Dropped s s' dropped) {v : Nat} :
    s'.graph.hasNode v = true ↔ s.graph.hasNode v = true ∧ v ∉ dropped := by
  rw [hasNode, hasNode, h.vertex?_eq]
  by_cases hv : v ∈ dropped
  · simp [hv]
  · simp [hv]

/-- Functions of the graph are dropped, each of them once, and counted. -/
structure Pass (s s' : Survey) (count : Nat) (nodes : List Nat) : Prop where
  dropped : Dropped s s' nodes
  nodup : nodes.Nodup
  hasNode_of_mem : ∀ v ∈ nodes, s.graph.hasNode v = true
  count_eq : count = nodes.length

/-- What one pass drops is not there for the next one. -/
theorem Pass.trans {s'' : Survey} {m n : Nat} {a b : List Nat} (h : Pass s s' m a)
    (h' : Pass s' s'' n b) : Pass s s'' (m + n) (a ++ b) := by
  have hleft : ∀ v ∈ b, s.graph.hasNode v = true ∧ v ∉ a :=
    fun v hv => h.dropped.hasNode_iff.1 (h'.hasNode_of_mem v hv)
  refine ⟨h.dropped.trans h'.dropped fun v hv => (hleft v hv).2, ?_, ?_, ?_⟩
  · rw [List.nodup_append]
    refine ⟨h.nodup, h'.nodup, ?_⟩
    rintro v hv w hw rfl
    exact (hleft v hw).2 hv
  · intro v hv
    rcases List.mem_append.1 hv with hv | hv
    · exact h.hasNode_of_mem v hv
    · exact (hleft v hv).1
  · rw [h.count_eq, h'.count_eq, List.length_append]

/-- Each node is dropped once, and the count is that of the nodes. -/
theorem dropped_dropAll (h : s.graph.WellFormed) {nodes : List Nat} (hnodup : nodes.Nodup)
    (hnodes : ∀ v ∈ nodes, s.graph.hasNode v = true ∧ v ≠ s.graph.entry) :
    (s.dropAll nodes).1 = nodes.length ∧ Dropped s (s.dropAll nodes).2 nodes := by
  induction nodes generalizing s with
  | nil =>
    refine ⟨rfl, h, ?_, ?_, rfl, ?_, rfl, rfl, rfl⟩
    · simp
    · simp
    · simp
  | cons node nodes ih =>
    rw [List.nodup_cons] at hnodup
    obtain ⟨hnode, hne⟩ := hnodes node List.mem_cons_self
    obtain ⟨hone, hdrop⟩ := drop_eq h hnode hne
    obtain ⟨hcount, hrest⟩ := ih hdrop.wellFormed hnodup.2 (by
      intro v hv
      obtain ⟨hin, hout⟩ := hnodes v (List.mem_cons_of_mem _ hv)
      have hvn : v ∉ [node] := by
        rw [List.mem_singleton]
        rintro rfl
        exact hnodup.1 hv
      rw [hdrop.hasNode_iff, hdrop.entry_eq]
      exact ⟨⟨hin, hvn⟩, hout⟩)
    refine ⟨?_, ?_⟩
    · rw [dropAll, hone, hcount, List.length_cons, Nat.add_comm]
    · refine hdrop.trans hrest ?_
      intro v hv hmem
      rw [List.mem_singleton] at hmem
      exact hnodup.1 (hmem ▸ hv)

/-- A pass over a list drops it. -/
theorem pass_dropAll (h : s.graph.WellFormed) {nodes : List Nat} (hnodup : nodes.Nodup)
    (hnodes : ∀ v ∈ nodes, s.graph.hasNode v = true ∧ v ≠ s.graph.entry) :
    Pass s (s.dropAll nodes).2 (s.dropAll nodes).1 nodes := by
  obtain ⟨hcount, hdropped⟩ := dropped_dropAll h hnodup hnodes
  exact ⟨hdropped, hnodup, fun v hv => (hnodes v hv).1, hcount⟩

/-- What was dropped and what is left make up the functions of the graph. -/
theorem Pass.count_add_vertexCount {count : Nat} {dropped : List Nat}
    (h : Pass s s' count dropped) : count + s'.graph.vertexCount = s.graph.vertexCount := by
  have hmem : ∀ v, v ∈ s'.graph.nodes ↔ v ∈ s.graph.nodes ∧ v ∉ dropped := by
    intro v
    rw [mem_nodes, mem_nodes]
    exact h.dropped.hasNode_iff
  have hperm : (dropped ++ s'.graph.nodes).Perm s.graph.nodes := by
    rw [List.perm_ext_iff_of_nodup _ s.graph.nodup_nodes]
    · intro v
      rw [List.mem_append, hmem]
      by_cases hv : v ∈ dropped
      · exact iff_of_true (Or.inl hv) (mem_nodes.2 (h.hasNode_of_mem v hv))
      · simp [hv]
    · rw [List.nodup_append]
      refine ⟨h.nodup, s'.graph.nodup_nodes, ?_⟩
      rintro v hv w hw rfl
      exact ((hmem v).1 hw).2 hv
  rw [h.count_eq, vertexCount, vertexCount, ← hperm.length_eq, List.length_append]

/-! ## The three passes -/

/-- A function has instrumented blocks. -/
def Instrumented (blocks : BlockIndex) (g : CallGraph) (node : Nat) : Prop :=
  ∃ name, g.name? node = some name ∧ blocks.contains name = true

/-- A function is at the end of a call path from the entry whose other functions
have instrumented blocks. -/
def Survives (blocks : BlockIndex) (g : CallGraph) : Nat → Prop :=
  ReflTransGen (fun a b => g.Calls a b ∧ (b = g.entry ∨ Instrumented blocks g b)) g.entry

/-- What pruning does: survivors stay with their locations entered, the calls
between them stay as they are, and the names of all others are parked. -/
structure Pruned (blocks : BlockIndex) (s s' : Survey) (report : PruneReport) : Prop where
  hasNode_iff : ∀ v, s'.graph.hasNode v = true ↔ Survives blocks s.graph v
  vertex?_eq : ∀ v, s'.graph.hasNode v = true →
    s'.graph.vertex? v = (s.graph.vertex? v).map (·.located blocks)
  arcs_eq : s'.graph.arcs =
    s.graph.arcs.filter fun arc => s'.graph.hasNode arc.caller && s'.graph.hasNode arc.callee
  entry_eq : s'.graph.entry = s.graph.entry
  mem_spare : ∀ name, name ∈ s'.state.spare ↔ name ∈ s.state.spare ∨
    ∃ v, s.graph.name? v = some name ∧ s'.graph.hasNode v = false
  round_eq : s'.state.round = s.state.round
  phase_eq : s'.state.phase = s.state.phase
  profiled_eq : s'.state.profiled = s.state.profiled
  total_eq : report.total + s'.graph.vertexCount = s.graph.vertexCount

/-- The first pass drops the functions that are not instrumented, save the entry. -/
theorem mem_uninstrumented {g : CallGraph} {v : Nat} :
    v ∈ g.uninstrumented blocks ↔
      g.hasNode v = true ∧ v ≠ g.entry ∧ ¬ Instrumented blocks g v := by
  rw [uninstrumented, List.mem_filter, mem_nodes, hasNode]
  refine and_congr_right ?_
  intro hv
  obtain ⟨w, hw⟩ := Option.isSome_iff_exists.1 hv
  simp [Instrumented, name?, hw]

/-- The second pass drops the functions without any call, save the entry. -/
theorem mem_disconnected {g : CallGraph} {v : Nat} :
    v ∈ g.disconnected ↔ g.hasNode v = true ∧ v ≠ g.entry ∧
      ∀ arc ∈ g.arcs, arc.caller ≠ v ∧ arc.callee ≠ v := by
  rw [disconnected, List.mem_filter, mem_nodes, hasNode]
  refine and_congr_right ?_
  intro _
  simp only [Bool.and_eq_true, bne_iff_ne, beq_iff_eq, inDegree, outDegree, incoming, outgoing,
    List.length_eq_zero_iff, List.filter_eq_nil_iff, and_assoc]
  refine and_congr_right ?_
  intro _
  constructor
  · rintro ⟨hin, hout⟩ arc harc
    exact ⟨hout arc harc, hin arc harc⟩
  · intro hnone
    exact ⟨fun arc harc => (hnone arc harc).2, fun arc harc => (hnone arc harc).1⟩

/-- The third pass drops what the entry does not reach. -/
theorem mem_unreachable {g : CallGraph} (h : g.WellFormed) {v : Nat} :
    v ∈ g.unreachable ↔ g.hasNode v = true ∧ ¬ g.Reaches g.entry v := by
  rw [unreachable, List.mem_filter, mem_nodes, hasNode]
  refine and_congr_right ?_
  intro _
  simp [mem_reachable_iff h.entry_mem]

/-- After the first pass the entry and the instrumented functions are left. -/
theorem pass_dropUninstrumented (blocks : BlockIndex) (h : s.graph.WellFormed) :
    Pass ⟨s.graph.locateAll blocks, s.state⟩ (s.dropUninstrumented blocks).2
      (s.dropUninstrumented blocks).1 (s.graph.uninstrumented blocks) := by
  have hs := sameShape_locateAll blocks s.graph
  refine pass_dropAll (h.of_sameShape hs) (s.graph.nodup_nodes.filter _) ?_
  intro v hv
  obtain ⟨hnode, hne, -⟩ := mem_uninstrumented.1 hv
  rw [hs.hasNode_eq, hs.entry_eq]
  exact ⟨hnode, hne⟩

/-- The second pass drops the functions without any call. -/
theorem pass_dropDisconnected (h : s.graph.WellFormed) :
    Pass s s.dropDisconnected.2 s.dropDisconnected.1 s.graph.disconnected := by
  refine pass_dropAll h (s.graph.nodup_nodes.filter _) ?_
  intro v hv
  obtain ⟨hnode, hne, -⟩ := mem_disconnected.1 hv
  exact ⟨hnode, hne⟩

/-- The third pass drops what cannot be reached. -/
theorem pass_dropUnreachable (h : s.graph.WellFormed) :
    Pass s s.dropUnreachable.2 s.dropUnreachable.1 s.graph.unreachable := by
  refine pass_dropAll h (s.graph.nodup_nodes.filter _) ?_
  intro v hv
  obtain ⟨hnode, hout⟩ := (mem_unreachable h).1 hv
  refine ⟨hnode, ?_⟩
  rintro rfl
  exact hout ReflTransGen.refl

/-- Calls between functions that stay are kept. -/
theorem Dropped.calls_iff {dropped : List Nat} (h : Dropped s s' dropped) {a b : Nat} :
    s'.graph.Calls a b ↔ s.graph.Calls a b ∧ a ∉ dropped ∧ b ∉ dropped := by
  rw [Calls, Calls, hasCall_iff, hasCall_iff, h.arcs_eq]
  constructor
  · rintro ⟨arc, harc, rfl, rfl⟩
    rw [List.mem_filter, Bool.and_eq_true, decide_eq_true_eq, decide_eq_true_eq] at harc
    exact ⟨⟨arc, harc.1, rfl, rfl⟩, harc.2⟩
  · rintro ⟨⟨arc, harc, rfl, rfl⟩, hout⟩
    refine ⟨arc, ?_, rfl, rfl⟩
    rw [List.mem_filter, Bool.and_eq_true, decide_eq_true_eq, decide_eq_true_eq]
    exact ⟨harc, hout⟩

/-- The first pass leaves exactly the survivors reachable. -/
theorem reaches_dropUninstrumented (blocks : BlockIndex) (h : s.graph.WellFormed) (v : Nat) :
    (s.dropUninstrumented blocks).2.graph.Reaches s.graph.entry v ↔
      Survives blocks s.graph v := by
  have hdropped := (pass_dropUninstrumented blocks h).dropped
  have hlocate : (s.graph.locateAll blocks).Calls = s.graph.Calls := by
    funext a b
    rw [Calls, Calls, (sameShape_locateAll blocks s.graph).hasCall_eq]
  have hcalls : ∀ a b, (s.dropUninstrumented blocks).2.graph.Calls a b ↔
      s.graph.Calls a b ∧ a ∉ s.graph.uninstrumented blocks ∧
        b ∉ s.graph.uninstrumented blocks := by
    intro a b
    rw [hdropped.calls_iff, hlocate]
  have hkeep : ∀ b, s.graph.hasNode b = true →
      (b ∉ s.graph.uninstrumented blocks ↔ b = s.graph.entry ∨ Instrumented blocks s.graph b) := by
    intro b hb
    rw [mem_uninstrumented]
    simp only [hb, true_and, not_and, not_not, ne_eq]
    exact or_iff_not_imp_left.symm
  have hcallee : ∀ {a b}, s.graph.Calls a b → s.graph.hasNode b = true := by
    intro a b hab
    obtain ⟨arc, harc, -, rfl⟩ := hasCall_iff.1 hab
    exact h.callee_mem arc harc
  constructor
  · intro hreach
    refine ReflTransGen.lift id ?_ _ _ hreach
    intro a b hab
    obtain ⟨hcall, -, hb⟩ := (hcalls a b).1 hab
    exact ⟨hcall, (hkeep b (hcallee hcall)).1 hb⟩
  · intro hsurvives
    have hboth : (s.dropUninstrumented blocks).2.graph.Reaches s.graph.entry v ∧
        v ∉ s.graph.uninstrumented blocks := by
      induction hsurvives with
      | refl => exact ⟨ReflTransGen.refl, (hkeep _ h.entry_mem).2 (Or.inl rfl)⟩
      | @tail a b _ hstep ih =>
        have hb := (hkeep b (hcallee hstep.1)).2 hstep.2
        exact ⟨ih.1.tail ((hcalls a b).2 ⟨hstep.1, ih.2, hb⟩), hb⟩
    exact hboth.1

/-- The second pass removes no call. -/
theorem reaches_dropDisconnected (h : s.graph.WellFormed) :
    s.dropDisconnected.2.graph.Reaches = s.graph.Reaches := by
  have hdropped := (pass_dropDisconnected h).dropped
  have hcalls : s.dropDisconnected.2.graph.Calls = s.graph.Calls := by
    funext a b
    rw [eq_iff_iff, hdropped.calls_iff, and_iff_left_iff_imp]
    intro hab
    obtain ⟨arc, harc, rfl, rfl⟩ := hasCall_iff.1 hab
    refine ⟨fun hmem => ?_, fun hmem => ?_⟩
    · exact ((mem_disconnected.1 hmem).2.2 arc harc).1 rfl
    · exact ((mem_disconnected.1 hmem).2.2 arc harc).2 rfl
  rw [Reaches, Reaches, hcalls]

/-- The three passes together. -/
theorem pass_prune (blocks : BlockIndex) (h : s.graph.WellFormed) :
    ∃ dropped, Pass ⟨s.graph.locateAll blocks, s.state⟩ (s.prune blocks).2
      (s.prune blocks).1.total dropped := by
  have hfirst := pass_dropUninstrumented blocks h
  have hsecond := pass_dropDisconnected hfirst.dropped.wellFormed
  have hthird := pass_dropUnreachable hsecond.dropped.wellFormed
  simp only [prune, PruneReport.total]
  exact ⟨_, (hfirst.trans hsecond).trans hthird⟩

/-- After the third pass exactly the survivors are left. -/
theorem hasNode_prune (blocks : BlockIndex) (h : s.graph.WellFormed) (v : Nat) :
    (s.prune blocks).2.graph.hasNode v = true ↔ Survives blocks s.graph v := by
  have hfirst := (pass_dropUninstrumented blocks h).dropped
  have hsecond := (pass_dropDisconnected hfirst.wellFormed).dropped
  have hthird := (pass_dropUnreachable hsecond.wellFormed).dropped
  have hreach := reaches_dropDisconnected hfirst.wellFormed
  have hw := hsecond.wellFormed
  have hentry : (s.dropUninstrumented blocks).2.dropDisconnected.2.graph.entry = s.graph.entry :=
    (hsecond.entry_eq.trans hfirst.entry_eq).trans (sameShape_locateAll blocks s.graph).entry_eq
  rw [← reaches_dropUninstrumented blocks h, ← hreach, ← hentry]
  simp only [prune]
  refine hthird.hasNode_iff.trans ?_
  rw [mem_unreachable hw]
  constructor
  · rintro ⟨hv, hkept⟩
    by_contra hout
    exact hkept ⟨hv, hout⟩
  · intro hv
    exact ⟨hw.hasNode_of_reaches hw.entry_mem hv, fun hout => hout.2 hv⟩

/-- Pruning leaves exactly the survivors. -/
theorem pruned_prune (h : s.graph.WellFormed) :
    Pruned blocks s (s.prune blocks).2 (s.prune blocks).1 := by
  obtain ⟨dropped, hpass⟩ := pass_prune blocks h
  have hdropped := hpass.dropped
  have hshape := sameShape_locateAll blocks s.graph
  have hleft : ∀ v, (s.prune blocks).2.graph.hasNode v = true ↔
      s.graph.hasNode v = true ∧ v ∉ dropped := by
    intro v
    rw [hdropped.hasNode_iff, hshape.hasNode_eq]
  have hname : ∀ v, (s.graph.locateAll blocks).name? v = s.graph.name? v := by
    intro v
    rw [name?, name?, vertex?_locateAll, Option.map_map]
    simp [Function.comp_def]
  refine ⟨hasNode_prune blocks h, ?_, ?_, hdropped.entry_eq.trans hshape.entry_eq, ?_,
    hdropped.round_eq, hdropped.phase_eq, hdropped.profiled_eq, ?_⟩
  · intro v hv
    rw [hdropped.vertex?_eq, if_neg ((hleft v).1 hv).2, vertex?_locateAll]
  · rw [hdropped.arcs_eq, arcs_locateAll]
    refine List.filter_congr ?_
    intro arc harc
    rw [Bool.eq_iff_iff, Bool.and_eq_true, Bool.and_eq_true, decide_eq_true_eq,
      decide_eq_true_eq, hleft, hleft]
    simp [h.caller_mem arc harc, h.callee_mem arc harc]
  · intro name
    rw [hdropped.mem_spare]
    refine or_congr_right ?_
    constructor
    · rintro ⟨v, hv, hsome⟩
      refine ⟨v, (hname v) ▸ hsome, ?_⟩
      rw [Bool.eq_false_iff, ne_eq, hleft]
      exact fun hboth => hboth.2 hv
    · rintro ⟨v, hsome, hout⟩
      refine ⟨v, ?_, (hname v).trans hsome⟩
      rw [Bool.eq_false_iff, ne_eq, hleft, not_and, not_not] at hout
      rw [name?, Option.map_eq_some_iff] at hsome
      obtain ⟨w, hw, -⟩ := hsome
      exact hout (hasNode_iff.2 ⟨w, hw⟩)
  · rw [hpass.count_add_vertexCount, vertexCount, vertexCount, hshape.nodes_eq]

/-! ## Pruning again -/

namespace Pruned

variable {report : PruneReport}

/-- A call between survivors stays. -/
theorem calls_iff (h : Pruned blocks s s' report) {a b : Nat} :
    s'.graph.Calls a b ↔ s.graph.Calls a b ∧ Survives blocks s.graph a ∧
      Survives blocks s.graph b := by
  rw [Calls, Calls, hasCall_iff, hasCall_iff, h.arcs_eq, ← h.hasNode_iff, ← h.hasNode_iff]
  constructor
  · rintro ⟨arc, harc, rfl, rfl⟩
    rw [List.mem_filter, Bool.and_eq_true] at harc
    exact ⟨⟨arc, harc.1, rfl, rfl⟩, harc.2⟩
  · rintro ⟨⟨arc, harc, rfl, rfl⟩, hboth⟩
    exact ⟨arc, List.mem_filter.2 ⟨harc, Bool.and_eq_true_iff.2 hboth⟩, rfl, rfl⟩

/-- A function that survives is reached from the entry by functions that survive. -/
theorem reaches (h : Pruned blocks s s' report) {v : Nat} (hv : Survives blocks s.graph v) :
    s'.graph.Reaches s'.graph.entry v := by
  rw [h.entry_eq]
  induction hv with
  | refl => exact ReflTransGen.refl
  | tail ha hstep ih => exact ih.tail (h.calls_iff.2 ⟨hstep.1, ha, ha.tail hstep⟩)

/-- In a pruned graph every pass finds nothing to do. -/
theorem passes_eq_nil (h : Pruned blocks s s' report) (hw : s'.graph.WellFormed) :
    s'.graph.uninstrumented blocks = [] ∧ s'.graph.disconnected = [] ∧
      s'.graph.unreachable = [] := by
  have hname : ∀ v, Survives blocks s.graph v → s'.graph.name? v = s.graph.name? v := by
    intro v hv
    rw [name?, name?, h.vertex?_eq v ((h.hasNode_iff v).2 hv), Option.map_map]
    simp [Function.comp_def]
  refine ⟨?_, ?_, ?_⟩
  · rw [List.eq_nil_iff_forall_not_mem]
    intro v hv
    obtain ⟨hnode, hne, hout⟩ := mem_uninstrumented.1 hv
    have hsurvives := (h.hasNode_iff v).1 hnode
    rw [h.entry_eq] at hne
    rcases ReflTransGen.cases_tail hsurvives with heq | ⟨a, -, -, heq | ⟨name, hsome, hblocks⟩⟩
    · exact hne heq
    · exact hne heq
    · exact hout ⟨name, (hname v hsurvives).trans hsome, hblocks⟩
  · rw [List.eq_nil_iff_forall_not_mem]
    intro v hv
    obtain ⟨hnode, hne, hnone⟩ := mem_disconnected.1 hv
    have hsurvives := (h.hasNode_iff v).1 hnode
    rw [h.entry_eq] at hne
    rcases ReflTransGen.cases_tail hsurvives with heq | ⟨a, ha, hcall, -⟩
    · exact hne heq
    · obtain ⟨arc, harc, -, hcallee⟩ := hasCall_iff.1 (h.calls_iff.2 ⟨hcall, ha, hsurvives⟩)
      exact (hnone arc harc).2 hcallee
  · rw [List.eq_nil_iff_forall_not_mem]
    intro v hv
    obtain ⟨hnode, hout⟩ := (mem_unreachable hw).1 hv
    exact hout (h.reaches ((h.hasNode_iff v).1 hnode))

/-- Pruning a pruned graph changes nothing. -/
theorem prune_eq (h : Pruned blocks s s' report) (hw : s'.graph.WellFormed) :
    s'.prune blocks = ({}, s') := by
  obtain ⟨hfirst, hsecond, hthird⟩ := h.passes_eq_nil hw
  have hlocate : s'.graph.locateAll blocks = s'.graph := by
    refine locateAll_eq_self blocks ?_
    intro node v hv
    rw [h.vertex?_eq node (CallGraph.hasNode_iff.2 ⟨v, hv⟩), Option.map_eq_some_iff] at hv
    obtain ⟨old, -, rfl⟩ := hv
    exact Vertex.located_located blocks old
  have hpass : s'.dropUninstrumented blocks = (0, s') := by
    rw [dropUninstrumented, hfirst, hlocate]
    rfl
  have hpass' : s'.dropDisconnected = (0, s') := by
    rw [dropDisconnected, hsecond]
    rfl
  have hpass'' : s'.dropUnreachable = (0, s') := by
    rw [dropUnreachable, hthird]
    rfl
  simp only [prune, hpass, hpass', hpass'']

end Pruned

/-- Pruning leaves exactly the functions at the end of a call path from the entry
through instrumented functions, and pruning again changes nothing. -/
theorem prune_survivors (h : s.graph.WellFormed) (blocks : BlockIndex) :
    Pruned blocks s (s.prune blocks).2 (s.prune blocks).1 ∧
      (s.prune blocks).2.prune blocks = ({}, (s.prune blocks).2) := by
  obtain ⟨dropped, hpass⟩ := pass_prune blocks h
  exact ⟨pruned_prune h, (pruned_prune h).prune_eq hpass.dropped.wellFormed⟩

/-- Of an entry and the function it calls only the entry survives when nothing is
instrumented. -/
theorem prune_survivors_call :
    (ofCall "main" "parse").WellFormed ∧
      ((⟨ofCall "main" "parse", {}⟩ : Survey).prune {}).2.graph.hasNode 1 = false ∧
      "parse" ∈ ((⟨ofCall "main" "parse", {}⟩ : Survey).prune {}).2.state.spare := by
  have hne : "main" ≠ "parse" := by decide
  have hw : (ofCall "main" "parse").WellFormed := (built_ofCall _ _).wellFormed
  have hpruned := (prune_survivors (s := ⟨ofCall "main" "parse", {}⟩) hw {}).1
  have hname : (ofCall "main" "parse").name? 1 = some "parse" := by
    rw [name?, vertex?_ofCall hne]
    rfl
  have hgone : ((⟨ofCall "main" "parse", {}⟩ : Survey).prune {}).2.graph.hasNode 1 = false := by
    rw [Bool.eq_false_iff, ne_eq, hpruned.hasNode_iff]
    intro hsurvives
    rcases Relation.ReflTransGen.cases_tail hsurvives with heq | ⟨_, -, -, heq | ⟨_, -, hblocks⟩⟩
    · exact absurd heq (by rw [entry_ofCall]; decide)
    · exact absurd heq (by rw [entry_ofCall]; decide)
    · simp [NameIndex.contains, NameIndex.find?, NameIndex.values] at hblocks
  exact ⟨hw, hgone, (hpruned.mem_spare "parse").2 (Or.inr ⟨1, hname, hgone⟩)⟩

end Survey

end FuzzCampaign

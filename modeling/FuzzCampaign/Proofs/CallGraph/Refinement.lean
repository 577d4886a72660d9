import FuzzCampaign.Proofs.CallGraph.Plain

/-!
# Call graphs refine plain graphs

A call graph and a plain graph start from the same entry and go through the same
operations.  Then each question that can be asked about the call graph has the answer of
the plain graph.  Numbers are given out and taken back on the way, and this does not
show: a function that takes a free number over brings its own attributes and no calls,
and a number stays with its function until this is removed.

Main definitions:

- `CallGraph.Follows`: a call graph and a plain graph after the same operations.
- `CallGraph.Answers`: questions to a call graph have the answers of a plain graph.
- `CallGraph.Behaves`: what an operation does not change.

Main results:

- `CallGraph.Represents.answers`: what represents a plain graph answers like it.
- `CallGraph.Follows.refines`: a call graph answers like the plain graph after any
  sequence of operations, and each operation changes what it should and nothing else.
-/

namespace FuzzCampaign.CallGraph

variable {g : CallGraph} {m : PlainGraph}

/-! ## Answers -/

/-- Each question about a call graph has the answer of a plain graph.  Numbers and names
belong together one to one, and numbers are listed in ascending order. -/
structure Answers (g : CallGraph) (m : PlainGraph) : Prop where
  entry : g.node? m.entry = some g.entry
  node? : ∀ name, (∃ node, g.node? name = some node) ↔ name ∈ m.functions
  containsName : ∀ name, g.containsName name = true ↔ name ∈ m.functions
  nodeById? : ∀ id node, g.nodeById? id = some node ↔
    ∃ name v, g.node? name = some node ∧ m.functions.lookup name = some v ∧ v.id = id
  vertex? : ∀ node v, g.vertex? node = some v ↔
    ∃ name, g.node? name = some node ∧ m.functions.lookup name = some v
  name_eq : ∀ name v, m.functions.lookup name = some v → v.name = name
  hasCall : ∀ a b, g.hasCall a b = true ↔
    ∃ x y, g.node? x = some a ∧ g.node? y = some b ∧ m.HasCall x y
  arc? : ∀ a b call, (g.arc? a b).map (·.call) = some call ↔
    ∃ x y, g.node? x = some a ∧ g.node? y = some b ∧ ⟨x, y, call⟩ ∈ m.calls
  callAt? : ∀ index call, g.callAt? index = some call ↔
    ∃ a b arc, g.arc? a b = some arc ∧ arc.index = index ∧ arc.call = call
  arcsInOrder : (g.arcsInOrder.map g.reading).Perm (m.calls.toList.map NamedCall.reading)
  index_lt : g.arcsInOrder.Pairwise fun a b => a.index < b.index
  nodes : (g.nodes.map g.name?).Perm (m.functions.keys.toList.map some)
  node_lt : g.nodes.Pairwise (· < ·)
  vertexCount : g.vertexCount = m.functions.keys.card
  edgeCount : g.edgeCount = m.calls.card
  inDegree : ∀ node name, g.node? name = some node →
    g.inDegree node = (m.calls.filter (·.callee = name)).card
  outDegree : ∀ node name, g.node? name = some node →
    g.outDegree node = (m.calls.filter (·.caller = name)).card
  degree_vacant : ∀ node, g.vertex? node = none → g.inDegree node = 0 ∧ g.outDegree node = 0
  one_call : ∀ c ∈ m.calls, ∀ d ∈ m.calls, c.caller = d.caller → c.callee = d.callee → c = d

theorem Represents.nodup_arcs (h : Represents g m) : g.arcs.Nodup :=
  List.Nodup.of_map _ h.wellFormed.nodup_ends

/-- The calls of a graph are read as those of the plain graph, each as one. -/
theorem Represents.readings_perm (h : Represents g m) :
    (g.arcs.map g.reading).Perm (m.calls.toList.map NamedCall.reading) := by
  have harcs : (g.arcs.map g.reading).Nodup := by
    refine h.nodup_arcs.map_on ?_
    intro arc harc other hother heq
    rw [reading, reading, Prod.mk.injEq, Prod.mk.injEq] at heq
    exact h.arc_unique harc hother heq.1 heq.2.1
  have hcalls : (m.calls.toList.map NamedCall.reading).Nodup :=
    m.calls.nodup_toList.map NamedCall.reading_injective
  rw [List.perm_ext_iff_of_nodup harcs hcalls]
  intro r
  simp only [List.mem_map, Finset.mem_toList]
  constructor
  · rintro ⟨arc, harc, rfl⟩
    obtain ⟨c, hc⟩ := h.wellFormed.exists_reading harc
    exact ⟨c, (h.calls c).2 ⟨arc, harc, hc⟩, hc.symm⟩
  · rintro ⟨c, hc, rfl⟩
    exact (h.calls c).1 hc

/-- The numbers of a graph are read as the names of the plain graph, each as one. -/
theorem Represents.names_perm (h : Represents g m) :
    (g.nodes.map g.name?).Perm (m.functions.keys.toList.map some) := by
  have hsome : ∀ node ∈ g.nodes, ∃ name, g.name? node = some name := by
    intro node hnode
    obtain ⟨v, hv⟩ := Option.isSome_iff_exists.1 (mem_nodes.1 hnode)
    exact ⟨v.name, name?_eq_some_iff.2 ⟨v, hv, rfl⟩⟩
  have hnodes : (g.nodes.map g.name?).Nodup := by
    refine g.nodup_nodes.map_on ?_
    intro a ha b _ heq
    obtain ⟨name, hname⟩ := hsome a ha
    exact h.indexed.name_unique hname (heq ▸ hname)
  have hkeys : (m.functions.keys.toList.map some).Nodup :=
    m.functions.keys.nodup_toList.map (Option.some_injective _)
  rw [List.perm_ext_iff_of_nodup hnodes hkeys]
  intro r
  simp only [List.mem_map, Finset.mem_toList, Finmap.mem_keys, h.mem_functions]
  constructor
  · rintro ⟨node, hnode, rfl⟩
    obtain ⟨name, hname⟩ := hsome node hnode
    exact ⟨name, ⟨node, hname⟩, hname.symm⟩
  · rintro ⟨name, ⟨node, hname⟩, rfl⟩
    obtain ⟨v, hv, -⟩ := name?_eq_some_iff.1 hname
    exact ⟨node, mem_nodes.2 (by rw [hv]; rfl), hname⟩

/-- As many calls have a property as are read to have it. -/
theorem Represents.countP_arcs (h : Represents g m) {p : Arc → Bool} {q : NamedCall → Prop}
    [DecidablePred q] (r : Option String × Option String × Call → Bool)
    (hp : ∀ arc ∈ g.arcs, p arc = true ↔ r (g.reading arc) = true)
    (hq : ∀ c, q c ↔ r c.reading = true) : g.arcs.countP p = (m.calls.filter q).card := by
  have hcard : (m.calls.filter q).card = m.calls.toList.countP fun c => decide (q c) := by
    rw [← Multiset.coe_countP, Finset.coe_toList, Finset.card_def, Finset.filter_val,
      Multiset.countP_eq_card_filter]
  calc g.arcs.countP p
      = g.arcs.countP fun arc => r (g.reading arc) := List.countP_congr hp
    _ = (g.arcs.map g.reading).countP r := List.countP_map.symm
    _ = (m.calls.toList.map NamedCall.reading).countP r := h.readings_perm.countP_eq r
    _ = m.calls.toList.countP fun c => r c.reading := List.countP_map
    _ = m.calls.toList.countP fun c => decide (q c) :=
        List.countP_congr fun c _ => by rw [decide_eq_true_eq, hq]
    _ = (m.calls.filter q).card := hcard.symm

/-- A number is the one of a name if it is read as this name. -/
theorem Indexed.beq_iff (h : g.Indexed) {node other : Nat} {name : String}
    (hnode : g.name? node = some name) :
    (other == node) = true ↔ (g.name? other == some name) = true := by
  rw [beq_iff_eq, beq_iff_eq]
  exact ⟨fun heq => heq ▸ hnode, fun heq => h.name_unique heq hnode⟩

theorem Represents.inDegree_eq (h : Represents g m) {node : Nat} {name : String}
    (hnode : g.name? node = some name) :
    g.inDegree node = (m.calls.filter (·.callee = name)).card := by
  rw [inDegree, incoming, ← List.countP_eq_length_filter]
  refine h.countP_arcs (fun r => r.2.1 == some name) (fun arc _ => h.indexed.beq_iff hnode) ?_
  intro c
  simp [NamedCall.reading]

theorem Represents.outDegree_eq (h : Represents g m) {node : Nat} {name : String}
    (hnode : g.name? node = some name) :
    g.outDegree node = (m.calls.filter (·.caller = name)).card := by
  rw [outDegree, outgoing, ← List.countP_eq_length_filter]
  refine h.countP_arcs (fun r => r.1 == some name) (fun arc _ => h.indexed.beq_iff hnode) ?_
  intro c
  simp [NamedCall.reading]

/-- A number without a function has no calls. -/
theorem WellFormed.degree_vacant (h : g.WellFormed) {node : Nat} (hnode : g.vertex? node = none) :
    g.inDegree node = 0 ∧ g.outDegree node = 0 := by
  have hvacant : g.hasNode node ≠ true := by
    rw [hasNode, hnode]
    simp
  rw [inDegree, incoming, outDegree, outgoing, List.length_eq_zero_iff, List.length_eq_zero_iff,
    List.filter_eq_nil_iff, List.filter_eq_nil_iff]
  constructor
  · intro arc harc heq
    exact hvacant (beq_iff_eq.1 heq ▸ h.callee_mem arc harc)
  · intro arc harc heq
    exact hvacant (beq_iff_eq.1 heq ▸ h.caller_mem arc harc)

/-- Calls are listed in strictly ascending order of their numbers. -/
theorem WellFormed.arcsInOrder_pairwise (h : g.WellFormed) :
    g.arcsInOrder.Pairwise fun a b => a.index < b.index := by
  have hnodup : (g.arcsInOrder.map Arc.index).Nodup :=
    (g.arcsInOrder_perm.map Arc.index).nodup_iff.2 h.nodup_indices
  exact g.arcsInOrder_pairwise_le.imp₂ (fun _ _ hle hne => Nat.lt_of_le_of_ne hle hne)
    (List.pairwise_map.1 hnodup)

/-- What only one item of a list has is found at this item. -/
theorem find?_eq_some_iff_of_unique {α : Type} {items : List α} {p : α → Bool} {a : α}
    (h : ∀ b ∈ items, ∀ c ∈ items, p b = true → p c = true → b = c) :
    items.find? p = some a ↔ a ∈ items ∧ p a = true := by
  constructor
  · intro hfind
    exact ⟨List.mem_of_find?_eq_some hfind, List.find?_some hfind⟩
  · rintro ⟨hmem, ha⟩
    obtain ⟨b, hb⟩ := Option.isSome_iff_exists.1 (List.find?_isSome.2 ⟨a, hmem, ha⟩)
    rw [hb, h b (List.mem_of_find?_eq_some hb) a hmem (List.find?_some hb) ha]

/-- The call between two functions is the one that joins them. -/
theorem WellFormed.arc?_eq_some_iff (h : g.WellFormed) {a b : Nat} {arc : Arc} :
    g.arc? a b = some arc ↔ arc ∈ g.arcs ∧ arc.caller = a ∧ arc.callee = b := by
  rw [arc?, find?_eq_some_iff_of_unique, Arc.joins_iff]
  intro first hfirst second hsecond hjoins hjoins'
  obtain ⟨hcaller, hcallee⟩ := Arc.joins_iff.1 hjoins
  obtain ⟨hcaller', hcallee'⟩ := Arc.joins_iff.1 hjoins'
  exact List.inj_on_of_nodup_map h.nodup_ends hfirst hsecond
    (Prod.ext (hcaller.trans hcaller'.symm) (hcallee.trans hcallee'.symm))

/-- The call with a number is the call between two functions that has it. -/
theorem WellFormed.callAt?_iff (h : g.WellFormed) {index : Nat} {call : Call} :
    g.callAt? index = some call ↔
      ∃ a b arc, g.arc? a b = some arc ∧ arc.index = index ∧ arc.call = call := by
  have hunique : ∀ b ∈ g.arcs, ∀ c ∈ g.arcs, (b.index == index) = true →
      (c.index == index) = true → b = c := by
    intro b hb c hc hbi hci
    exact List.inj_on_of_nodup_map h.nodup_indices hb hc
      ((beq_iff_eq.1 hbi).trans (beq_iff_eq.1 hci).symm)
  simp only [callAt?, Option.map_eq_some_iff, find?_eq_some_iff_of_unique hunique, beq_iff_eq,
    h.arc?_eq_some_iff]
  constructor
  · rintro ⟨arc, ⟨hmem, hindex⟩, hcall⟩
    exact ⟨_, _, arc, ⟨hmem, rfl, rfl⟩, hindex, hcall⟩
  · rintro ⟨-, -, arc, ⟨hmem, -, -⟩, hindex, hcall⟩
    exact ⟨arc, ⟨hmem, hindex⟩, hcall⟩

/-- The attributes of the call between two functions are those of the call between their
names. -/
theorem Represents.arc?_iff (h : Represents g m) {a b : Nat} {call : Call} :
    (g.arc? a b).map (·.call) = some call ↔
      ∃ x y, g.node? x = some a ∧ g.node? y = some b ∧ ⟨x, y, call⟩ ∈ m.calls := by
  simp only [Option.map_eq_some_iff, h.wellFormed.arc?_eq_some_iff, h.indexed _ _, h.calls]
  constructor
  · rintro ⟨arc, ⟨hmem, rfl, rfl⟩, rfl⟩
    obtain ⟨c, hc⟩ := h.wellFormed.exists_reading hmem
    obtain ⟨hcaller, hcallee, -⟩ := reading_eq_iff.1 hc
    exact ⟨_, _, hcaller, hcallee, arc, hmem, reading_eq_iff.2 ⟨hcaller, hcallee, rfl⟩⟩
  · rintro ⟨x, y, hx, hy, arc, hmem, hread⟩
    obtain ⟨hcaller, hcallee, hcall⟩ := reading_eq_iff.1 hread
    exact ⟨arc, ⟨hmem, h.indexed.name_unique hcaller hx, h.indexed.name_unique hcallee hy⟩, hcall⟩

/-- What represents a plain graph answers like it. -/
theorem Represents.answers (h : Represents g m) : Answers g m where
  entry := (h.indexed _ _).2 h.entry
  node? name := h.mem_functions_iff.symm
  containsName name := by
    rw [h.mem_functions_iff, containsName, Std.HashMap.contains_eq_isSome_getElem?,
      Option.isSome_iff_exists]
    rfl
  nodeById? id node := by
    have hid : g.nodeById? id = some node ↔ g.id? node = some id := h.identified id node
    rw [hid, id?, Option.map_eq_some_iff]
    constructor
    · rintro ⟨v, hv, hvid⟩
      have hname := name?_eq_some_iff.2 ⟨v, hv, rfl⟩
      exact ⟨v.name, v, (h.indexed _ _).2 hname, (h.lookup_eq hname).trans hv, hvid⟩
    · rintro ⟨name, v, hnode, hlookup, hvid⟩
      rw [h.lookup_eq ((h.indexed _ _).1 hnode)] at hlookup
      exact ⟨v, hlookup, hvid⟩
  vertex? node v := by
    constructor
    · intro hv
      have hname := name?_eq_some_iff.2 ⟨v, hv, rfl⟩
      exact ⟨v.name, (h.indexed _ _).2 hname, (h.lookup_eq hname).trans hv⟩
    · rintro ⟨name, hnode, hlookup⟩
      rwa [h.lookup_eq ((h.indexed _ _).1 hnode)] at hlookup
  name_eq name v hlookup := ((h.functions name v).1 hlookup).1
  hasCall a b := by
    constructor
    · intro hcall
      obtain ⟨arc, hmem, rfl, rfl⟩ := CallGraph.hasCall_iff.1 hcall
      obtain ⟨c, hc⟩ := h.wellFormed.exists_reading hmem
      obtain ⟨hcaller, hcallee, -⟩ := reading_eq_iff.1 hc
      exact ⟨_, _, (h.indexed _ _).2 hcaller, (h.indexed _ _).2 hcallee,
        (h.hasCall_iff hcaller hcallee).2 hcall⟩
    · rintro ⟨x, y, hx, hy, hcall⟩
      exact (h.hasCall_iff ((h.indexed _ _).1 hx) ((h.indexed _ _).1 hy)).1 hcall
  arc? a b call := h.arc?_iff
  callAt? index call := h.wellFormed.callAt?_iff
  arcsInOrder := (g.arcsInOrder_perm.map _).trans h.readings_perm
  index_lt := h.wellFormed.arcsInOrder_pairwise
  nodes := h.names_perm
  node_lt := g.nodes_pairwise
  vertexCount := by
    have hlength := h.names_perm.length_eq
    rwa [List.length_map, List.length_map, Finset.length_toList] at hlength
  edgeCount := by
    have hlength := h.readings_perm.length_eq
    rwa [List.length_map, List.length_map, Finset.length_toList] at hlength
  inDegree node name hnode := h.inDegree_eq ((h.indexed _ _).1 hnode)
  outDegree node name hnode := h.outDegree_eq ((h.indexed _ _).1 hnode)
  degree_vacant node := h.wellFormed.degree_vacant
  one_call c hc d hd hcaller hcallee := by
    obtain ⟨arc, harc, hread⟩ := (h.calls c).1 hc
    obtain ⟨other, hother, hread'⟩ := (h.calls d).1 hd
    obtain ⟨hx, hy, -⟩ := reading_eq_iff.1 hread
    obtain ⟨hx', hy', -⟩ := reading_eq_iff.1 hread'
    have hsame : arc = other := by
      refine h.arc_unique harc hother ?_ ?_
      · rw [hx, hx', hcaller]
      · rw [hy, hy', hcallee]
    exact NamedCall.reading_injective (hread.symm.trans (hsame ▸ hread'))

/-! ## What operations change -/

/-- Each operation changes what it should and nothing else.  A number that is given out
again brings no calls with it, and all other numbers stay with their functions. -/
structure Behaves (g : CallGraph) : Prop where
  insert_known : ∀ v node, g.node? v.name = some node → g.insert v = (node, g)
  insert_new : ∀ v, g.node? v.name = none → Placed g v (g.insert v).1 (g.insert v).2 ∧
    (g.insert v).2.inDegree (g.insert v).1 = 0 ∧ (g.insert v).2.outDegree (g.insert v).1 = 0
  remove_nothing : ∀ node, node = g.entry ∨ g.vertex? node = none → g.remove node = (none, g)
  remove_function : ∀ node v, node ≠ g.entry → g.vertex? node = some v →
    (g.remove node).1 = some v ∧
      (g.remove node).2.arcs = (g.arcs.filter fun arc => !arc.touches node) ∧
      ∀ other, (g.remove node).2.vertex? other = if other = node then none else g.vertex? other
  addCall_nothing : ∀ a b call, g.hasCall a b = true ∨ g.hasNode a = false ∨ g.hasNode b = false →
    g.addCall a b call = (false, g)
  addCall_new : ∀ a b call, g.hasCall a b = false → g.hasNode a = true → g.hasNode b = true →
    (g.addCall a b call).1 = true ∧ ∃ index, index ∉ g.arcs.map (·.index) ∧
      (g.addCall a b call).2.arcs = ⟨index, a, b, call⟩ :: g.arcs
  vertex?_addCall : ∀ a b call node, (g.addCall a b call).2.vertex? node = g.vertex? node
  vertex?_modifyVertex : ∀ node f other, (g.modifyVertex node f).vertex? other =
    if node = other then (g.vertex? other).map f else g.vertex? other
  arcs_modifyVertex : ∀ node f, (g.modifyVertex node f).arcs = g.arcs
  vertex?_modifyCall : ∀ index f node, (g.modifyCall index f).vertex? node = g.vertex? node
  sameShape_modifyCall : ∀ index f, SameShape g (g.modifyCall index f)

theorem WellFormed.behaves (h : g.WellFormed) : Behaves g where
  insert_known v node hnode := by
    rw [node?] at hnode
    simp [CallGraph.insert, hnode]
  insert_new v hnew := by
    have hplaced := h.placed_insert hnew
    have hdegree := h.degree_vacant hplaced.vacant
    refine ⟨hplaced, ?_, ?_⟩
    · rw [inDegree, incoming, hplaced.arcs_eq]
      exact hdegree.1
    · rw [outDegree, outgoing, hplaced.arcs_eq]
      exact hdegree.2
  remove_nothing node hnode := by
    rcases hnode with rfl | hvacant
    · exact remove_entry g
    · exact remove_of_vacant hvacant
  remove_function node v hne hv :=
    ⟨by rw [remove_of_vertex? hne hv], arcs_remove hne (hasNode_iff.2 ⟨v, hv⟩), vertex?_remove hne⟩
  addCall_nothing a b call hnothing := by
    rcases hnothing with hcall | hcaller | hcallee
    · simp [CallGraph.addCall, hcall]
    · simp [CallGraph.addCall, hcaller]
    · simp [CallGraph.addCall, hcallee]
  addCall_new a b call hcall hcaller hcallee := by
    have hadd : g.addCall a b call = (true, g.pushArc a b call) := by
      simp [CallGraph.addCall, hcall, hcaller, hcallee]
    obtain ⟨index, harcs, -⟩ := g.exists_arcs_pushArc a b call
    have hnodup := (h.addCall a b call).nodup_indices
    rw [hadd, harcs, List.map_cons, List.nodup_cons] at hnodup
    rw [hadd]
    exact ⟨rfl, index, hnodup.1, harcs⟩
  vertex?_addCall a b call node := CallGraph.vertex?_addCall g a b node call
  vertex?_modifyVertex node f other := CallGraph.vertex?_modifyVertex g node other f
  arcs_modifyVertex _ _ := rfl
  vertex?_modifyCall _ _ _ := rfl
  sameShape_modifyCall := CallGraph.sameShape_modifyCall g

/-! ## Sequences of operations -/

/-- A call graph and a plain graph after the same operations, from the same entry on.
The plain graph is given names where the call graph is given numbers; numbers that
nobody has stand for nothing.  A function is inserted under an identity that no other
one has, and changing a function leaves its identity and its name alone. -/
inductive Follows : CallGraph → PlainGraph → Prop
  | ofEntry (entry : Vertex) : Follows (ofEntry entry) (PlainGraph.ofEntry entry)
  | insert {g : CallGraph} {m : PlainGraph} (earlier : Follows g m) (v : Vertex)
      (hfresh : ∀ node w, g.vertex? node = some w → w.id = v.id → w.name = v.name) :
      Follows (g.insert v).2 (m.insert v)
  | remove {g : CallGraph} {m : PlainGraph} (earlier : Follows g m) (node : Nat) :
      Follows (g.remove node).2 ((g.name? node).elim m m.remove)
  | addCall {g : CallGraph} {m : PlainGraph} (earlier : Follows g m) (caller callee : Nat)
      (call : Call) :
      Follows (g.addCall caller callee call).2
        ((g.name? caller).elim m fun x => (g.name? callee).elim m fun y => m.addCall x y call)
  | modifyVertex {g : CallGraph} {m : PlainGraph} (earlier : Follows g m) (node : Nat)
      (f : Vertex → Vertex) (hid : ∀ v, (f v).id = v.id) (hname : ∀ v, (f v).name = v.name) :
      Follows (g.modifyVertex node f)
        ((g.name? node).elim m fun name => m.modifyVertex name f)
  | modifyCall {g : CallGraph} {m : PlainGraph} (earlier : Follows g m) (index : Nat)
      (f : Call → Call) :
      Follows (g.modifyCall index f)
        ((g.callNames? index).elim m fun names => m.modifyCall names.1 names.2 f)

theorem Follows.represents (h : Follows g m) : Represents g m := by
  induction h with
  | ofEntry entry => exact represents_ofEntry entry
  | insert _ v hfresh ih => exact ih.insert hfresh
  | remove _ node ih => exact ih.remove node
  | addCall _ caller callee call ih => exact ih.addCall caller callee call
  | modifyVertex _ node f hid hname ih => exact ih.modifyVertex node hid hname
  | modifyCall _ index f ih => exact ih.modifyCall index f

/-- After any sequence of operations a call graph answers each question like the plain
graph, and each further operation changes what it should and nothing else. -/
theorem Follows.refines (h : Follows g m) : Answers g m ∧ Behaves g :=
  ⟨h.represents.answers, h.represents.wellFormed.behaves⟩

/-- A call from an entry to another function is entered in a plain graph. -/
theorem exists_follows_ofCall {caller callee : String} (hne : caller ≠ callee) :
    ∃ m, Follows (ofCall caller callee) m := by
  refine ⟨_, ((Follows.ofEntry (.named caller)).insert (.named callee) ?_).addCall 0 1 {}⟩
  intro node w hw hid
  cases node with
  | zero =>
    obtain rfl := Option.some.inj hw
    exact absurd (congrArg VertexId.text hid) hne
  | succ node => simp [ofEntry, vertex?] at hw

/-- A callee is removed and another function takes its number over: the number belongs
to the new function, which nobody calls. -/
theorem refines_reused_number :
    ∃ g m, Follows g m ∧ g.vertex? 1 = some (.named "inflate") ∧
      g.node? "inflate" = some 1 ∧ "inflate" ∈ m.functions ∧ g.inDegree 1 = 0 ∧
      g.hasCall 0 1 = false := by
  have hne : "main" ≠ "parse" := by decide
  obtain ⟨m, hcall⟩ := exists_follows_ofCall hne
  have hremoved := hcall.remove 1
  have hentry : (1 : Nat) ≠ (ofCall "main" "parse").entry := by
    rw [entry_ofCall]
    decide
  have honly : ∀ node w, ((ofCall "main" "parse").remove 1).2.vertex? node = some w →
      w = .named "main" := by
    intro node w hw
    rw [vertex?_remove hentry, vertex?_ofCall hne] at hw
    rcases node with _ | _ | node
    · exact (Option.some.inj hw).symm
    · simp at hw
    · simp at hw
  have hfresh : ∀ node w, ((ofCall "main" "parse").remove 1).2.vertex? node = some w →
      w.id = (Vertex.named "inflate").id → w.name = (Vertex.named "inflate").name := by
    intro node w hw hid
    rw [honly node w hw] at hid
    exact absurd hid (by decide)
  have hnew : ((ofCall "main" "parse").remove 1).2.node? "inflate" = none := by
    rw [Option.eq_none_iff_forall_ne_some]
    intro node hnode
    obtain ⟨w, hw, hname⟩ := name?_eq_some_iff.1 ((hremoved.represents.indexed _ _).1 hnode)
    rw [honly node w hw] at hname
    exact absurd hname (by decide)
  have hslot : (((ofCall "main" "parse").remove 1).2.insert (.named "inflate")).1 = 1 := by
    have hfree : ((ofCall "main" "parse").remove 1).2.freeSlots =
        1 :: (ofCall "main" "parse").freeSlots := by
      rw [remove_of_vertex? hentry (vertex?_ofCall hne 1)]
    rw [node?] at hnew
    simp [CallGraph.insert, allocate, Vertex.named, hnew, hfree]
  have hfollows := hremoved.insert (.named "inflate") hfresh
  obtain ⟨hanswers, -⟩ := hfollows.refines
  obtain ⟨hplaced, hin, -⟩ := hremoved.refines.2.insert_new (.named "inflate") hnew
  rw [hslot] at hplaced hin
  have hvertex : (((ofCall "main" "parse").remove 1).2.insert (.named "inflate")).2.vertex? 1 =
      some (.named "inflate") := by
    rw [hplaced.vertex?_eq, if_pos rfl]
  obtain ⟨name, hnode, hlookup⟩ := (hanswers.vertex? 1 _).1 hvertex
  obtain rfl : "inflate" = name := hanswers.name_eq name _ hlookup
  refine ⟨_, _, hfollows, hvertex, hnode, (hanswers.node? _).1 ⟨1, hnode⟩, hin, ?_⟩
  rw [Bool.eq_false_iff]
  intro hagain
  obtain ⟨arc, harc, -, hcallee⟩ := hasCall_iff.1 hagain
  rw [inDegree, incoming, List.length_eq_zero_iff, List.filter_eq_nil_iff] at hin
  exact hin arc harc (beq_iff_eq.2 hcallee)

end FuzzCampaign.CallGraph

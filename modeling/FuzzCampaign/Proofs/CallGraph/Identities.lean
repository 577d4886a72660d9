import FuzzCampaign.Proofs.CallGraph.Built

/-!
# The table of identities

A graph is consistent when both its tables are right: names and identities lead to the
functions that have them.  The table of names is always right, since a function is
inserted only under a name that is new.  Nothing of the kind is asked of identities:
inserting a function under an identity that another one has takes the entry of the
other away.

Main definitions:

- `CallGraph.Identified`: the table of identities is right.

Main results:

- `CallGraph.isConsistent_iff`: consistency is that both tables are right.
- `CallGraph.Identified.insert`: inserting under a new identity keeps the table right.
-/

namespace FuzzCampaign.CallGraph

variable {g g' : CallGraph}

/-- The functions of a graph with their nodes. -/
theorem mem_vertices {node : Nat} {v : Vertex} :
    (node, v) ∈ g.vertices ↔ g.vertex? node = some v := by
  simp only [vertices, List.mem_filterMap, Option.map_eq_some_iff, Prod.mk.injEq]
  constructor
  · rintro ⟨_, _, _, hv, rfl, rfl⟩
    exact hv
  · intro hv
    exact ⟨node, mem_nodes.2 (by rw [hv]; rfl), v, hv, rfl, rfl⟩

/-- The functions are listed by their numbers. -/
theorem map_fst_vertices (g : CallGraph) : g.vertices.map (·.1) = g.nodes := by
  have hnumber : ∀ node ∈ g.nodes,
      ((g.vertex? node).map fun v => (node, v)).map (·.1) = some node := by
    intro node hnode
    obtain ⟨v, hv⟩ := Option.isSome_iff_exists.1 (mem_nodes.1 hnode)
    rw [hv]
    rfl
  rw [vertices, List.map_filterMap, List.filterMap_congr hnumber, List.filterMap_some]

/-- No function is listed twice. -/
theorem nodup_vertices (g : CallGraph) : g.vertices.Nodup := by
  have hnodes := g.nodup_nodes
  rw [← map_fst_vertices] at hnodes
  exact hnodes.of_map _

/-- The identity of the function with a number. -/
def id? (g : CallGraph) (node : Nat) : Option VertexId := (g.vertex? node).map (·.id)

/-- The table of identities leads from an identity to the function that has it, and to
nothing else. -/
def Identified (g : CallGraph) : Prop := Leads g.byId g.id?

/-- The table of identities is right if it finds each function and has one entry for
each. -/
theorem identified_iff : g.Identified ↔ g.byId.size = g.vertexCount ∧
    ∀ node ∈ g.nodes, ∀ id, g.id? node = some id → g.byId[id]? = some node := by
  have hid : ∀ node, node ∈ g.nodes ↔ (g.id? node).isSome := by
    intro node
    rw [mem_nodes, id?, Option.isSome_map]
  exact (leads_iff g.nodup_nodes hid).symm

/-- The table of names is right if it finds each function and has one entry for each. -/
theorem indexed_iff : g.Indexed ↔ g.byName.size = g.vertexCount ∧
    ∀ node ∈ g.nodes, ∀ name, g.name? node = some name → g.byName[name]? = some node := by
  have hname : ∀ node, node ∈ g.nodes ↔ (g.name? node).isSome := by
    intro node
    rw [mem_nodes, name?, Option.isSome_map]
  exact (leads_iff g.nodup_nodes hname).symm

/-- A graph is consistent if and only if both its tables are right. -/
theorem isConsistent_iff : g.isConsistent = true ↔ g.Identified ∧ g.Indexed := by
  rw [identified_iff, indexed_iff]
  simp only [isConsistent, Bool.and_eq_true, beq_iff_eq, List.all_eq_true, Prod.forall,
    mem_vertices]
  constructor
  · rintro ⟨⟨hidSize, hnameSize⟩, hall⟩
    refine ⟨⟨hidSize, ?_⟩, hnameSize, ?_⟩
    · intro node _ id hsome
      obtain ⟨v, hv, rfl⟩ := Option.map_eq_some_iff.1 hsome
      exact (hall node v hv).1
    · intro node _ name hsome
      obtain ⟨v, hv, rfl⟩ := Option.map_eq_some_iff.1 hsome
      exact (hall node v hv).2
  · rintro ⟨⟨hidSize, hidAll⟩, hnameSize, hnameAll⟩
    refine ⟨⟨hidSize, hnameSize⟩, ?_⟩
    intro node v hv
    have hnode : node ∈ g.nodes := mem_nodes.2 (by rw [hv]; rfl)
    exact ⟨hidAll node hnode v.id (by rw [id?, hv]; rfl),
      hnameAll node hnode v.name (by rw [name?, hv]; rfl)⟩

/-! ## Identities after each operation -/

/-- A graph of its entry alone has the table of ids for it. -/
theorem identified_ofEntry (entry : Vertex) : (ofEntry entry).Identified := by
  intro id node
  by_cases hid : entry.id = id
  · cases node with
    | zero => simp [ofEntry, id?, vertex?, hid]
    | succ node => simp [ofEntry, id?, vertex?, hid]
  · cases node with
    | zero => simp [ofEntry, id?, vertex?, hid]
    | succ node => simp [ofEntry, id?, vertex?, hid]

/-- A function whose identity nobody else has keeps the table right. -/
theorem Identified.insert (h : g.Identified) (hw : g.WellFormed) (hi : g.Indexed) {v : Vertex}
    (hfresh : ∀ node w, g.vertex? node = some w → w.id = v.id → w.name = v.name) :
    (g.insert v).2.Identified := by
  cases hfind : g.byName[v.name]? with
  | some known => simpa [CallGraph.insert, hfind] using h
  | none =>
    have hplaced := hw.placed_insert hfind
    have htable : (g.insert v).2.byId = g.byId.insert v.id (g.insert v).1 := by
      simp [CallGraph.insert, hfind]
    have hnew : g.byId[v.id]? = none := by
      rw [Option.eq_none_iff_forall_ne_some]
      intro node hsome
      obtain ⟨w, hw, hid⟩ := Option.map_eq_some_iff.1 ((h v.id node).1 hsome)
      refine hi.name?_ne hfind node ?_
      rw [name?, hw, Option.map_some, hfresh node w hw hid]
    have hvacant : g.id? (g.insert v).1 = none := by
      rw [id?, hplaced.vacant]
      rfl
    have hleads : Leads (g.byId.insert v.id (g.insert v).1) (g.insert v).2.id? := by
      refine Leads.insert h hnew hvacant ?_
      intro other
      rw [id?, hplaced.vertex?_eq]
      split <;> rfl
    rwa [← htable] at hleads

/-- Removing a function takes its id out of the table. -/
theorem Identified.remove (h : g.Identified) (node : Nat) : (g.remove node).2.Identified := by
  by_cases hne : node = g.entry
  · rwa [hne, remove_entry]
  cases hv : g.vertex? node with
  | none => rwa [remove_of_vacant hv]
  | some v =>
    have htable : (g.remove node).2.byId = g.byId.erase v.id := by
      rw [remove_of_vertex? hne hv]
    have hgone : g.id? node = some v.id := by
      rw [id?, hv]
      rfl
    have hleads : Leads (g.byId.erase v.id) (g.remove node).2.id? := by
      refine Leads.erase h hgone ?_
      intro other
      rw [id?, vertex?_remove hne]
      split <;> rfl
    rwa [← htable] at hleads

/-- Changing neither the table nor an identity keeps the table right. -/
theorem Identified.congr (h : g.Identified) (htable : g'.byId = g.byId)
    (hid : ∀ node, g'.id? node = g.id? node) : g'.Identified := by
  intro id node
  rw [htable, hid]
  exact h id node

/-- A change that leaves the id alone keeps all ids. -/
theorem id?_modifyVertex (g : CallGraph) (node other : Nat) {f : Vertex → Vertex}
    (hid : ∀ v, (f v).id = v.id) : (g.modifyVertex node f).id? other = g.id? other := by
  rw [id?, id?, vertex?_modifyVertex]
  split
  · rw [Option.map_map]
    exact Option.map_congr fun v _ => hid v
  · rfl

/-- Annotations are no ids. -/
theorem id?_annotate (g : CallGraph) (node other : Nat) (f : Annotations → Annotations) :
    (g.annotate node f).id? other = g.id? other :=
  g.id?_modifyVertex node other fun _ => rfl

/-- An annotation keeps the table of ids right. -/
theorem Identified.annotate (h : g.Identified) (node : Nat) (f : Annotations → Annotations) :
    (g.annotate node f).Identified :=
  h.congr rfl (id?_annotate g node · f)

/-- A new call is entered nowhere in the table of ids. -/
theorem byId_addCall (g : CallGraph) (caller callee : Nat) (call : Call) :
    (g.addCall caller callee call).2.byId = g.byId := by
  unfold addCall pushArc
  split
  · rfl
  · split <;> rfl

/-- A new call keeps all functions. -/
theorem vertex?_addCall (g : CallGraph) (caller callee node : Nat) (call : Call) :
    (g.addCall caller callee call).2.vertex? node = g.vertex? node := by
  rw [vertex?, (g.addCall_cases caller callee call).1, vertex?]

/-- A new call keeps the table of ids right. -/
theorem Identified.addCall (h : g.Identified) (caller callee : Nat) (call : Call) :
    (g.addCall caller callee call).2.Identified :=
  h.congr (byId_addCall g caller callee call) fun node => by rw [id?, vertex?_addCall, id?]

end FuzzCampaign.CallGraph

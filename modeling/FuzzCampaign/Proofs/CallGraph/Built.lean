import FuzzCampaign.Coverage.Ingest
import FuzzCampaign.Partition.Plan
import FuzzCampaign.Proofs.CallGraph.Tables
import FuzzCampaign.Proofs.CallGraph.WellFormed

/-!
# A campaign builds its graphs

Pruning removes functions and enters locations, observed calls insert functions
and add calls, coverage changes attributes only, and so do scores and colours.
All of this is made of the operations on call graphs, so that a graph that can be
built can still be built after each step of a campaign.

Main results:

- `CallGraph.Built.indexed`: in a graph that can be built the table of names leads
  from every name to the function that has it.
- `CallGraph.Stable`: properties of graphs that a campaign keeps step by step.
- `Survey.built_prune` and `Survey.built_ingest`: what a round does to its graph.
- `CallGraph.Built.split`: what cutting does to it.
-/

namespace FuzzCampaign

namespace CallGraph

variable {g : CallGraph}

/-! ## The table of names -/

/-- The table of names leads from a name to the function that has it, and to
nothing else. -/
def Indexed (g : CallGraph) : Prop :=
  ∀ name node, g.node? name = some node ↔ g.name? node = some name

/-- No two functions of an indexed graph share a name. -/
theorem Indexed.name_unique (h : g.Indexed) {a b : Nat} {name : String}
    (ha : g.name? a = some name) (hb : g.name? b = some name) : a = b :=
  Leads.unique h ha hb

/-- A name that the table does not know belongs to nobody. -/
theorem Indexed.name?_ne (h : g.Indexed) {name : String} (hnew : g.node? name = none)
    (node : Nat) : g.name? node ≠ some name := by
  intro hname
  rw [(h name node).2 hname] at hnew
  exact absurd hnew (by simp)

/-- A graph of its entry alone has the table for it. -/
theorem indexed_ofEntry (entry : Vertex) : (ofEntry entry).Indexed := by
  intro name node
  by_cases hname : entry.name = name
  · cases node with
    | zero => simp [ofEntry, node?, name?, vertex?, hname]
    | succ node => simp [ofEntry, node?, name?, vertex?, hname]
  · cases node with
    | zero => simp [ofEntry, node?, name?, vertex?, hname]
    | succ node => simp [ofEntry, node?, name?, vertex?, hname]

/-- Inserting a function enters its name. -/
theorem Indexed.insert (h : g.Indexed) (hw : g.WellFormed) (v : Vertex) :
    (g.insert v).2.Indexed := by
  cases hfind : g.byName[v.name]? with
  | some known => simpa [CallGraph.insert, hfind] using h
  | none =>
    have hplaced := hw.placed_insert hfind
    have htable : (g.insert v).2.byName = g.byName.insert v.name (g.insert v).1 := by
      simp [CallGraph.insert, hfind]
    have hvacant : g.name? (g.insert v).1 = none := by
      rw [name?, hplaced.vacant]
      rfl
    have hleads : Leads (g.byName.insert v.name (g.insert v).1) (g.insert v).2.name? := by
      refine Leads.insert h hfind hvacant ?_
      intro other
      rw [name?, hplaced.vertex?_eq]
      split <;> rfl
    rwa [← htable] at hleads

/-- Removing a function takes its name out of the table. -/
theorem Indexed.remove (h : g.Indexed) (node : Nat) : (g.remove node).2.Indexed := by
  by_cases hne : node = g.entry
  · rwa [hne, remove_entry]
  cases hv : g.vertex? node with
  | none => rwa [remove_of_vacant hv]
  | some v =>
    have htable : (g.remove node).2.byName = g.byName.erase v.name := by
      rw [remove_of_vertex? hne hv]
    have hgone : g.name? node = some v.name := by
      rw [name?, hv]
      rfl
    have hleads : Leads (g.byName.erase v.name) (g.remove node).2.name? := by
      refine Leads.erase h hgone ?_
      intro other
      rw [name?, vertex?_remove hne]
      split <;> rfl
    rwa [← htable] at hleads

/-- Changing neither the table nor a name keeps a graph indexed. -/
theorem Indexed.congr {g' : CallGraph} (h : g.Indexed) (htable : g'.byName = g.byName)
    (hname : ∀ node, g'.name? node = g.name? node) : g'.Indexed := by
  intro name node
  rw [node?, htable, ← node?, hname]
  exact h name node

/-- A change that leaves the name alone keeps all names. -/
theorem name?_modifyVertex (g : CallGraph) (node other : Nat) {f : Vertex → Vertex}
    (hname : ∀ v, (f v).name = v.name) :
    (g.modifyVertex node f).name? other = g.name? other := by
  rw [name?, name?, vertex?_modifyVertex]
  split
  · rw [Option.map_map]
    exact Option.map_congr fun v _ => hname v
  · rfl

/-- Annotations are no names. -/
theorem name?_annotate (g : CallGraph) (node other : Nat) (f : Annotations → Annotations) :
    (g.annotate node f).name? other = g.name? other :=
  g.name?_modifyVertex node other fun _ => rfl

/-- Colours are no names. -/
theorem name?_clearColors (g : CallGraph) (node : Nat) :
    g.clearColors.name? node = g.name? node := by
  rw [name?, name?, vertex?_clearColors, Option.map_map]
  rfl

/-- A new call touches neither functions nor names. -/
theorem addCall_cases (g : CallGraph) (caller callee : Nat) (call : Call) :
    (g.addCall caller callee call).2.slots = g.slots ∧
      (g.addCall caller callee call).2.byName = g.byName := by
  unfold addCall pushArc
  split
  · exact ⟨rfl, rfl⟩
  · split <;> exact ⟨rfl, rfl⟩

/-- A new call keeps all names. -/
theorem name?_addCall (g : CallGraph) (caller callee node : Nat) (call : Call) :
    (g.addCall caller callee call).2.name? node = g.name? node := by
  rw [name?, name?, vertex?, vertex?, (g.addCall_cases caller callee call).1]

/-- In a graph that can be built the table of names is right. -/
theorem Built.indexed (h : Built g) : g.Indexed := by
  induction h with
  | ofEntry entry => exact indexed_ofEntry entry
  | insert earlier v ih => exact ih.insert earlier.wellFormed v
  | remove _ node ih => exact ih.remove node
  | addCall _ caller callee call ih =>
    exact ih.congr (addCall_cases _ caller callee call).2 (name?_addCall _ caller callee · call)
  | annotate _ node f ih => exact ih.congr rfl (name?_annotate _ node · f)
  | modifyCall _ index f ih => exact ih.congr rfl fun _ => rfl
  | clearColors _ ih => exact ih.congr rfl (name?_clearColors _)

/-! ## Cutting a graph -/

/-- Steps that build keep a graph buildable, one after another. -/
theorem Built.foldl {α : Type} {step : CallGraph → α → CallGraph}
    (hstep : ∀ g a, Built g → Built (step g a)) (h : Built g) (items : List α) :
    Built (items.foldl step g) := by
  induction items generalizing g with
  | nil => exact h
  | cons item items ih => exact ih (hstep g item h)

/-- Assigning scores keeps a graph built. -/
theorem Built.assignScores (h : Built g) (cap : ScoreCap) : Built (g.assignScores cap).2 :=
  h.foldl (fun _ entry hg => hg.annotate entry.1 _) _

/-- Painting a node keeps a graph built. -/
theorem Built.paint (h : Built g) (color : Color) (node : Nat) : Built (paint color g node) :=
  h.annotate node _

/-- Painting a branch keeps a graph built. -/
theorem Built.paintBranch (h : Built g) (t : Arborescence) (color : Color) (node : Nat) :
    Built (paintBranch t color g node) := by
  refine (h.paint color node).foldl ?_ (t.children node)
  intro g callee hg
  rw [paintCall]
  split
  · exact hg.modifyCall _ _
  · exact hg

/-- The naive split keeps a graph built. -/
theorem Built.splitNaive (h : Built g) (k : Nat) (sources : SourceIndex) :
    Built (g.splitNaive k sources).2 := by
  rw [CallGraph.splitNaive]
  split
  · exact h
  · exact h.clearColors.foldl
      (fun _ slice hg => hg.foldl (fun _ node hg => hg.paint _ node) slice.1) _

/-- The split along the call tree keeps a graph built. -/
theorem Built.splitTree (h : Built g) (k : Nat) (sources : SourceIndex) (cap : ScoreCap) :
    Built (g.splitTree k sources cap).2 := by
  have hscored := h.assignScores cap
  cases htree : g.arborescence? with
  | none => simpa only [CallGraph.splitTree, htree] using h
  | some tree =>
    simp only [CallGraph.splitTree, htree]
    split
    · exact hscored
    · exact hscored.clearColors.foldl
        (fun _ task hg => hg.foldl (fun _ node hg => hg.paintBranch tree _ node) task.1.vertices) _

/-- Cutting a graph enters scores and colours. -/
theorem Built.split (h : Built g) (strategy : Strategy) (k : Nat) (sources : SourceIndex)
    (cap : ScoreCap) : Built (g.split strategy k sources cap).2 := by
  cases strategy with
  | tree => exact h.splitTree k sources cap
  | naive => exact h.splitNaive k sources

/-! ## What a campaign does to its graph -/

/-- A property of graphs that a campaign keeps as long as it observes new functions and
calls, removes functions and changes annotations. -/
structure Stable (P : CallGraph → Prop) : Prop where
  insert : ∀ {g : CallGraph} {name : String}, P g → g.node? name = none →
    P (g.insert (.observed name)).2
  remove : ∀ {g : CallGraph} (node : Nat), P g → P (g.remove node).2
  addCall : ∀ {g : CallGraph} (caller callee : Nat) (call : Call), P g →
    P (g.addCall caller callee call).2
  annotate : ∀ {g : CallGraph} (node : Nat) (f : Annotations → Annotations), P g →
    P (g.annotate node f)

section Stable

variable {P : CallGraph → Prop} {s : Survey}

/-- Coverage keeps what annotations keep. -/
theorem Stable.applyCoverage (hP : Stable P) (h : P g) (records : List CoverageRecord) :
    P (g.applyCoverage records).2 := by
  induction records generalizing g with
  | nil => exact h
  | cons record records ih =>
    refine ih ?_
    rw [applyRecord]
    split
    · split
      · exact hP.annotate _ _ h
      · exact h
    · exact h

/-- Locating the functions keeps what annotations keep. -/
theorem Stable.locateAll (hP : Stable P) (h : P g) (blocks : BlockIndex) :
    P (g.locateAll blocks) := by
  rw [CallGraph.locateAll]
  induction g.nodes generalizing g with
  | nil => exact h
  | cons node nodes ih =>
    refine ih ?_
    rw [locate]
    split
    · exact h
    · split
      · exact hP.annotate _ _ h
      · exact h

/-- Dropping functions keeps what removals keep. -/
theorem Stable.dropAll (hP : Stable P) (h : P s.graph) (nodes : List Nat) :
    P (s.dropAll nodes).2.graph := by
  induction nodes generalizing s with
  | nil => exact h
  | cons node nodes ih =>
    have hdrop : (s.drop node).2.graph = (s.graph.remove node).2 := by
      rw [Survey.drop]
      split <;> simp_all
    refine ih ?_
    rw [hdrop]
    exact hP.remove node h

/-- Pruning enters locations and removes functions one by one. -/
theorem Stable.prune (hP : Stable P) (h : P s.graph) (blocks : BlockIndex) :
    P (s.prune blocks).2.graph := by
  have hfirst : P (s.dropUninstrumented blocks).2.graph := by
    rw [Survey.dropUninstrumented]
    exact hP.dropAll (hP.locateAll h blocks) _
  have hsecond : P (s.dropUninstrumented blocks).2.dropDisconnected.2.graph := by
    rw [Survey.dropDisconnected]
    exact hP.dropAll hfirst _
  simp only [Survey.prune]
  rw [Survey.dropUnreachable]
  exact hP.dropAll hsecond _

/-- Looking up an observed name keeps what insertions keep. -/
theorem Stable.observedNode (hP : Stable P) (h : P s.graph) (name : String) :
    P (s.observedNode name).2.graph := by
  rw [Survey.observedNode]
  split
  · exact h
  · rename_i hnew
    exact hP.insert h hnew

/-- Observing a call keeps what insertions and new calls keep. -/
theorem Stable.observeCall (hP : Stable P) (h : P s.graph) (fact : CallFact) :
    P (s.observeCall fact).graph :=
  hP.addCall _ _ _ (hP.observedNode (hP.observedNode h fact.caller) fact.callee)

/-- Observation inserts functions that are new, and adds calls. -/
theorem Stable.observe (hP : Stable P) (h : P s.graph) (facts : List CallFact) :
    P (s.observe facts).graph := by
  induction facts generalizing s with
  | nil => exact h
  | cons fact facts ih => exact ih (hP.observeCall h fact)

end Stable

/-- Being built is kept by everything that a campaign does to its graph. -/
theorem stable_built : Stable Built :=
  ⟨fun h _ => h.insert _, fun node h => h.remove node,
    fun caller callee call h => h.addCall caller callee call, fun node f h => h.annotate node f⟩

end CallGraph

namespace Survey

open CallGraph

variable {s : Survey}

/-! ## Pruning and profiling -/

/-- Pruning keeps a graph built. -/
theorem built_prune (h : s.graph.Built) (blocks : BlockIndex) :
    (s.prune blocks).2.graph.Built :=
  stable_built.prune h blocks

/-- Looking up an observed name keeps a graph built. -/
theorem built_observedNode (h : s.graph.Built) (name : String) :
    (s.observedNode name).2.graph.Built :=
  stable_built.observedNode h name

/-- Observing a call keeps a graph built. -/
theorem built_observeCall (h : s.graph.Built) (fact : CallFact) :
    (s.observeCall fact).graph.Built :=
  stable_built.observeCall h fact

/-- Observing calls keeps a graph built. -/
theorem built_observe (h : s.graph.Built) (facts : List CallFact) :
    (s.observe facts).graph.Built :=
  stable_built.observe h facts

/-- A profiling pass inserts functions, adds calls and changes attributes. -/
theorem built_ingest (h : s.graph.Built) (output : ProfileOutput) :
    (s.ingest output).2.graph.Built := by
  rw [ingest]
  exact stable_built.applyCoverage (built_observe h _) _

end Survey

end FuzzCampaign

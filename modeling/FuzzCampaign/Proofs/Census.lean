import FuzzCampaign.Proofs.CallGraph.Built
import FuzzCampaign.Proofs.Pruning

/-!
# No function is lost

Between two rounds a survey is pruned, extended by observed calls and given new
coverage.  Pruning parks the names that it removes, and an observed function
leaves the spare set when it joins the graph.  A function that was ever known is
therefore live or spare, and never both, however often it is pruned and
rediscovered.

Main definitions:

- `Survey.Change`: what happens to a survey between two rounds.
- `Survey.Census`: the known functions are live or spare, and not both.

Main results:

- `Survey.Census.apply`: one change keeps the census.
- `Survey.live_or_spare`: a survey that starts without spare functions accounts for
  its own functions and for all observed ones.
-/

namespace FuzzCampaign

namespace CallGraph

/-- A function of this name is in the graph. -/
def HasName (g : CallGraph) (name : String) : Prop := ∃ node, g.name? node = some name

variable {g : CallGraph}

/-- Finding a name in the table is having it in the graph. -/
theorem Indexed.hasName_iff (h : g.Indexed) {name : String} :
    g.HasName name ↔ ∃ node, g.node? name = some node :=
  exists_congr fun node => (h name node).symm

theorem name?_applyRecord (g : CallGraph) (record : CoverageRecord) (node : Nat) :
    (g.applyRecord record).2.name? node = g.name? node := by
  rw [applyRecord]
  split
  · split
    · exact name?_annotate g _ node _
    · rfl
  · rfl

/-- Coverage changes no name. -/
theorem name?_applyCoverage (g : CallGraph) (records : List CoverageRecord) (node : Nat) :
    (g.applyCoverage records).2.name? node = g.name? node := by
  induction records generalizing g with
  | nil => rfl
  | cons record records ih => exact (ih _).trans (name?_applyRecord g record node)

/-- Inserting a function that nobody knows adds its name. -/
theorem hasName_insert (h : g.WellFormed) {v : Vertex} (hnew : g.node? v.name = none)
    {name : String} : (g.insert v).2.HasName name ↔ g.HasName name ∨ v.name = name := by
  have hplaced := h.placed_insert hnew
  have hname : ∀ node, (g.insert v).2.name? node =
      if node = (g.insert v).1 then some v.name else g.name? node := by
    intro node
    rw [name?, hplaced.vertex?_eq]
    split <;> rfl
  have hvacant : g.name? (g.insert v).1 = none := by
    rw [name?, hplaced.vacant]
    rfl
  constructor
  · rintro ⟨node, hnode⟩
    rw [hname] at hnode
    split at hnode
    · exact Or.inr (Option.some.inj hnode)
    · exact Or.inl ⟨node, hnode⟩
  · rintro (⟨node, hnode⟩ | rfl)
    · refine ⟨node, ?_⟩
      rw [hname, if_neg]
      · exact hnode
      · rintro rfl
        rw [hvacant] at hnode
        exact absurd hnode (by simp)
    · exact ⟨(g.insert v).1, by rw [hname, if_pos rfl]⟩

end CallGraph

namespace Survey

open CallGraph

variable {s : Survey} {known : String → Prop}

/-! ## The census -/

/-- Every known function is live or spare, and none is both. -/
structure Census (s : Survey) (known : String → Prop) : Prop where
  built : s.graph.Built
  disjoint : ∀ name, ¬ (s.graph.HasName name ∧ name ∈ s.state.spare)
  union : ∀ name, s.graph.HasName name ∨ name ∈ s.state.spare ↔ known name

/-- A pruned function becomes spare. -/
theorem Census.prune (h : Census s known) (blocks : BlockIndex) :
    Census (s.prune blocks).2 known := by
  have hindexed := h.built.indexed
  have hpruned : Pruned blocks s (s.prune blocks).2 (s.prune blocks).1 :=
    pruned_prune h.built.wellFormed
  have hname : ∀ v, (s.prune blocks).2.graph.hasNode v = true →
      (s.prune blocks).2.graph.name? v = s.graph.name? v := by
    intro v hv
    rw [name?, name?, hpruned.vertex?_eq v hv, Option.map_map]
    simp [Function.comp_def]
  have hlive : ∀ {v name}, (s.prune blocks).2.graph.name? v = some name →
      (s.prune blocks).2.graph.hasNode v = true ∧ s.graph.name? v = some name := by
    intro v name hsome
    have hv : (s.prune blocks).2.graph.hasNode v = true := by
      obtain ⟨w, hw, -⟩ := Option.map_eq_some_iff.1 hsome
      exact hasNode_iff.2 ⟨w, hw⟩
    exact ⟨hv, (hname v hv) ▸ hsome⟩
  refine ⟨built_prune h.built blocks, ?_, ?_⟩
  · rintro name ⟨⟨v, hsome⟩, hspare⟩
    obtain ⟨hv, hold⟩ := hlive hsome
    rcases (hpruned.mem_spare name).1 hspare with hspare | ⟨w, hw, hgone⟩
    · exact h.disjoint name ⟨⟨v, hold⟩, hspare⟩
    · rw [hindexed.name_unique hw hold, hv] at hgone
      exact absurd hgone (by simp)
  · intro name
    rw [← h.union, hpruned.mem_spare]
    constructor
    · rintro (⟨v, hsome⟩ | hspare | ⟨v, hsome, -⟩)
      · exact Or.inl ⟨v, (hlive hsome).2⟩
      · exact Or.inr hspare
      · exact Or.inl ⟨v, hsome⟩
    · rintro (⟨v, hsome⟩ | hspare)
      · cases hv : (s.prune blocks).2.graph.hasNode v with
        | true => exact Or.inl ⟨v, (hname v hv).trans hsome⟩
        | false => exact Or.inr (Or.inr ⟨v, hsome, hv⟩)
      · exact Or.inr (Or.inl hspare)

/-- An observed function is live. -/
theorem Census.observedNode (h : Census s known) (name : String) :
    Census (s.observedNode name).2 fun other => known other ∨ name = other := by
  have hbuilt := built_observedNode h.built name
  cases hfind : s.graph.node? name with
  | some node =>
    have hlive : known name :=
      (h.union name).1 (Or.inl (h.built.indexed.hasName_iff.2 ⟨node, hfind⟩))
    rw [observedNode_of_node? hfind]
    refine ⟨h.built, h.disjoint, ?_⟩
    intro other
    rw [h.union]
    constructor
    · exact Or.inl
    · rintro (hknown | rfl)
      · exact hknown
      · exact hlive
  | none =>
    have hstate : (s.observedNode name).2.state = s.state.unpark name := by
      simp [Survey.observedNode, hfind]
    have hnames : ∀ other, (s.observedNode name).2.graph.HasName other ↔
        s.graph.HasName other ∨ name = other := by
      intro other
      rw [graph_observedNode_of_none hfind]
      exact hasName_insert h.built.wellFormed hfind
    refine ⟨hbuilt, ?_, ?_⟩
    · rintro other ⟨hlive, hspare⟩
      rw [hstate, CampaignState.mem_spare_unpark] at hspare
      rcases (hnames other).1 hlive with hlive | heq
      · exact h.disjoint other ⟨hlive, hspare.2⟩
      · exact hspare.1 heq
    · intro other
      rw [hnames, hstate, CampaignState.mem_spare_unpark, ← h.union]
      constructor
      · rintro ((hlive | heq) | ⟨-, hspare⟩)
        · exact Or.inl (Or.inl hlive)
        · exact Or.inr heq
        · exact Or.inl (Or.inr hspare)
      · rintro ((hlive | hspare) | heq)
        · exact Or.inl (Or.inl hlive)
        · by_cases heq : name = other
          · exact Or.inl (Or.inr heq)
          · exact Or.inr ⟨heq, hspare⟩
        · exact Or.inl (Or.inr heq)

/-- Both ends of an observed call are live. -/
theorem Census.observeCall (h : Census s known) (fact : CallFact) :
    Census (s.observeCall fact)
      fun other => known other ∨ fact.caller = other ∨ fact.callee = other := by
  have hends := (h.observedNode fact.caller).observedNode fact.callee
  have hnames : ∀ name, (s.observeCall fact).graph.HasName name ↔
      ((s.observedNode fact.caller).2.observedNode fact.callee).2.graph.HasName name :=
    fun name => exists_congr fun node => by rw [Survey.observeCall, name?_addCall]
  refine ⟨built_observeCall h.built fact, ?_, ?_⟩
  · intro name hboth
    rw [hnames] at hboth
    exact hends.disjoint name hboth
  · intro name
    rw [hnames, ← or_assoc]
    exact hends.union name

/-- All functions named in observed calls are live. -/
theorem Census.observe (h : Census s known) (facts : List CallFact) :
    Census (s.observe facts) fun other => known other ∨ other ∈ CallFact.touched facts := by
  have htouched : ∀ (facts : List CallFact) (name : String), name ∈ CallFact.touched facts ↔
      ∃ fact ∈ facts, fact.caller = name ∨ fact.callee = name := by
    intro facts name
    simp [CallFact.touched, eq_comm]
  induction facts generalizing s known with
  | nil => exact ⟨h.built, h.disjoint, fun name => by simp [h.union, htouched]⟩
  | cons fact facts ih =>
    have hrest := ih (h.observeCall fact)
    refine ⟨hrest.built, hrest.disjoint, ?_⟩
    intro name
    rw [observe_cons, hrest.union, htouched, htouched, List.exists_mem_cons_iff, or_assoc]

/-- Coverage changes neither names nor the spare set. -/
theorem Census.cover (h : Census s known) (records : List CoverageRecord) :
    Census { s with graph := (s.graph.applyCoverage records).2 } known := by
  have hnames : ∀ name, (s.graph.applyCoverage records).2.HasName name ↔ s.graph.HasName name :=
    fun name => exists_congr fun node => by rw [name?_applyCoverage]
  refine ⟨stable_built.applyCoverage h.built records, ?_, ?_⟩
  · intro name hboth
    rw [hnames] at hboth
    exact h.disjoint name hboth
  · intro name
    rw [hnames]
    exact h.union name

/-! ## Sequences of changes -/

/-- What happens to a survey between two rounds. -/
inductive Change where
  | prune (blocks : BlockIndex)
  | observe (facts : List CallFact)
  | cover (records : List CoverageRecord)

/-- The functions that a change names. -/
def Change.observed : Change → List String
  | .prune _ => []
  | .observe facts => CallFact.touched facts
  | .cover _ => []

/-- Change a survey. -/
def apply (s : Survey) : Change → Survey
  | .prune blocks => (s.prune blocks).2
  | .observe facts => s.observe facts
  | .cover records => { s with graph := (s.graph.applyCoverage records).2 }

/-- A change makes known what it observes. -/
theorem Census.apply (h : Census s known) (change : Change) :
    Census (s.apply change) fun name => known name ∨ name ∈ change.observed := by
  cases change with
  | prune blocks => simpa [Survey.apply, Change.observed] using h.prune blocks
  | observe facts => exact h.observe facts
  | cover records => simpa [Survey.apply, Change.observed] using h.cover records

theorem Census.foldl_apply (h : Census s known) (changes : List Change) :
    Census (changes.foldl Survey.apply s)
      fun name => known name ∨ ∃ change ∈ changes, name ∈ change.observed := by
  induction changes generalizing s known with
  | nil => simpa using h
  | cons change changes ih => simpa [or_assoc] using ih (h.apply change)

/-- However often a survey without spare functions is pruned, extended and covered:
the functions that it started with and those that were observed since are live or
spare, and no other is, and none is both. -/
theorem live_or_spare (h : s.graph.Built) (hspare : ∀ name, name ∉ s.state.spare)
    (changes : List Change) :
    (∀ name, ¬ ((changes.foldl Survey.apply s).graph.HasName name ∧
      name ∈ (changes.foldl Survey.apply s).state.spare)) ∧
    ∀ name, (changes.foldl Survey.apply s).graph.HasName name ∨
        name ∈ (changes.foldl Survey.apply s).state.spare ↔
      s.graph.HasName name ∨ ∃ change ∈ changes, name ∈ change.observed := by
  have hstart : Census s s.graph.HasName :=
    ⟨h, fun name hboth => hspare name hboth.2, fun name => by simp [hspare name]⟩
  have hcensus := hstart.foldl_apply changes
  exact ⟨hcensus.disjoint, hcensus.union⟩

/-- An entry that calls one function is pruned, seen to call another one, and pruned
again: both callees are accounted for, and a function that nobody named is not. -/
theorem live_or_spare_rediscovered :
    (ofCall "main" "parse").Built ∧ (∀ name, name ∉ ({} : CampaignState).spare) ∧
      let s := [Change.prune {}, .observe [⟨"main", "inflate"⟩], .prune {}].foldl Survey.apply
        ⟨ofCall "main" "parse", {}⟩
      (s.graph.HasName "parse" ∨ "parse" ∈ s.state.spare) ∧
        (s.graph.HasName "inflate" ∨ "inflate" ∈ s.state.spare) ∧
        ¬ (s.graph.HasName "inflate" ∧ "inflate" ∈ s.state.spare) ∧
        ¬ s.graph.HasName "crc" ∧ "crc" ∉ s.state.spare := by
  have hne : "main" ≠ "parse" := by decide
  have hbuilt : (ofCall "main" "parse").Built := built_ofCall _ _
  have hspare : ∀ name, name ∉ ({} : CampaignState).spare := by simp
  have hname : ∀ node, (ofCall "main" "parse").name? node =
      #[some "main", some "parse"][node]?.join := by
    intro node
    rw [name?, vertex?_ofCall hne]
    rcases node with _ | _ | node
    · rfl
    · rfl
    · simp
  obtain ⟨hdisjoint, hunion⟩ := live_or_spare (s := ⟨ofCall "main" "parse", {}⟩) hbuilt hspare
    [.prune {}, .observe [⟨"main", "inflate"⟩], .prune {}]
  have hunknown : ¬ ((ofCall "main" "parse").HasName "crc" ∨
      ∃ change ∈ [Change.prune {}, .observe [⟨"main", "inflate"⟩], .prune {}],
        "crc" ∈ change.observed) := by
    rintro (⟨node, hnode⟩ | ⟨change, hchange, hcrc⟩)
    · rw [hname] at hnode
      rcases node with _ | _ | node <;> simp at hnode
    · simp only [List.mem_cons, List.not_mem_nil, or_false] at hchange
      rcases hchange with rfl | rfl | rfl <;> simp [Change.observed, CallFact.touched] at hcrc
  refine ⟨hbuilt, hspare, (hunion "parse").2 (Or.inl ⟨1, ?_⟩),
    (hunion "inflate").2 (Or.inr ⟨.observe [⟨"main", "inflate"⟩], by simp, ?_⟩),
    hdisjoint "inflate", fun hlive => hunknown ((hunion "crc").1 (Or.inl hlive)),
    fun hspare => hunknown ((hunion "crc").1 (Or.inr hspare))⟩
  · rw [hname]
    rfl
  · simp [Change.observed, CallFact.touched]

end Survey

end FuzzCampaign

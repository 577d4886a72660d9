import FuzzCampaign.Proofs.CallGraph.Plain
import FuzzCampaign.Proofs.Retention

/-!
# What observed calls add

Observed calls are entered one after another, and each may insert its caller, insert its
callee and add a call between them.  All of this comes down to two lists: the names that
are mentioned, and the calls.  Of the names those that the graph does not know become
functions, each once and in the order in which they are mentioned first, and leave the
spare set; of the calls those that the graph does not know are added in the same way.
So what is known afterwards depends on which calls were observed, and on nothing else.

Main definitions:

- `newItems`: the items of a list that are not known, each once.
- `Survey.Extends`: names and calls were entered in a survey, and nothing else happened.

Main results:

- `Survey.Extends.observedNode` and `Survey.Extends.addCall`: what one step adds.
- `Survey.extends_observe`: what a list of observed calls adds.
- `Survey.observe_adds`: the same, with its consequences for calls that are observed
  again or in another order, and for the counts of a profiling pass.
-/

namespace FuzzCampaign

/-! ## Items in the order of their first mention -/

section Items

/-- A further item stands at the end unless it stood there before. -/
theorem eraseDups_concat {α : Type} [BEq α] [LawfulBEq α] (items : List α) (a : α) :
    (items ++ [a]).eraseDups = items.eraseDups ++ if a ∈ items then [] else [a] := by
  rw [List.eraseDups_append]
  by_cases hmem : a ∈ items
  · simp [List.removeAll, hmem]
  · simp [List.removeAll, hmem, List.eraseDups_cons]

variable {α : Type} [DecidableEq α] {known : α → Bool} {items : List α} {a : α}

/-- The items that are not known, each once, in the order of their first mention. -/
def newItems (known : α → Bool) (items : List α) : List α :=
  items.eraseDups.filter (!known ·)

@[simp] theorem newItems_nil : newItems known [] = [] := rfl

/-- An item is new when it occurs and was not known. -/
theorem mem_newItems : a ∈ newItems known items ↔ a ∈ items ∧ known a = false := by
  simp [newItems]

/-- An item that is known or was mentioned before is not new. -/
theorem newItems_concat_of_known (h : known a = true ∨ a ∈ items) :
    newItems known (items ++ [a]) = newItems known items := by
  rw [newItems, eraseDups_concat, newItems]
  rcases h with hknown | hmem
  · split <;> simp [hknown]
  · simp [hmem]

/-- An item that is mentioned for the first time is the last new one. -/
theorem newItems_concat (hknown : known a = false) (hmem : a ∉ items) :
    newItems known (items ++ [a]) = newItems known items ++ [a] := by
  rw [newItems, eraseDups_concat, newItems]
  simp [hknown, hmem]

end Items

section Mentions

variable {α : Type} [BEq α] [LawfulBEq α] {items : List α}

/-- Each item is listed once, in the order of the first mentions. -/
theorem pairwise_idxOf_eraseDups (items : List α) :
    items.eraseDups.Pairwise fun a b => items.idxOf a < items.idxOf b := by
  induction items using List.reverseRecOn with
  | nil => exact List.Pairwise.nil
  | append_singleton items a ih =>
    have hidx : ∀ b ∈ items, (items ++ [a]).idxOf b = items.idxOf b :=
      fun b hb => List.idxOf_append_of_mem hb
    have hfront : items.eraseDups.Pairwise fun b c =>
        (items ++ [a]).idxOf b < (items ++ [a]).idxOf c := by
      refine ih.imp_of_mem ?_
      intro b c hb hc hlt
      rwa [hidx b (List.mem_eraseDups.1 hb), hidx c (List.mem_eraseDups.1 hc)]
    rw [eraseDups_concat]
    split
    · rwa [List.append_nil]
    · rename_i hmem
      rw [List.pairwise_append]
      refine ⟨hfront, List.pairwise_singleton _ _, ?_⟩
      intro b hb c hc
      rw [List.mem_singleton] at hc
      subst hc
      have hb := List.mem_eraseDups.1 hb
      rw [hidx b hb, List.idxOf_append_of_notMem hmem]
      have hlt := List.idxOf_lt_length_of_mem hb
      omega

/-- Each item is listed once. -/
theorem nodup_eraseDups (items : List α) : items.eraseDups.Nodup := by
  refine (pairwise_idxOf_eraseDups items).imp ?_
  rintro a b hlt rfl
  exact Nat.lt_irrefl _ hlt

/-- A list without repetitions stays as it is. -/
theorem eraseDups_of_nodup (h : items.Nodup) : items.eraseDups = items := by
  induction items using List.reverseRecOn with
  | nil => rfl
  | append_singleton items a ih =>
    obtain ⟨hitems, -, hnew⟩ := List.nodup_append.1 h
    have ha : a ∉ items := fun hmem => hnew a hmem a List.mem_cons_self rfl
    rw [eraseDups_concat, ih hitems, if_neg ha]

/-- Items that were listed once already are listed in the same order again. -/
theorem eraseDups_append_eraseDups (front back : List α) :
    (front.eraseDups ++ back.eraseDups).eraseDups = (front ++ back).eraseDups := by
  induction back using List.reverseRecOn with
  | nil => rw [List.eraseDups_nil, List.append_nil, List.append_nil,
      eraseDups_of_nodup (nodup_eraseDups front)]
  | append_singleton back a ih =>
    rw [← List.append_assoc, eraseDups_concat (front ++ back), eraseDups_concat back, ← ih]
    by_cases hback : a ∈ back
    · rw [if_pos hback, if_pos (List.mem_append_right _ hback), List.append_nil, List.append_nil]
    · rw [if_neg hback, ← List.append_assoc, eraseDups_concat]
      simp only [List.mem_append, List.mem_eraseDups]

end Mentions

/-- The functions at the ends of a list of calls, in the order of their mention. -/
def CallFact.endpoints (facts : List CallFact) : List String :=
  facts.flatMap fun fact => [fact.caller, fact.callee]

/-- An observed call, in the form in which calls between numbers are read. -/
def CallFact.reading (fact : CallFact) : Option String × Option String × Call :=
  (some fact.caller, some fact.callee, { origin := .dynamic })

namespace CallGraph

variable {g g' : CallGraph}

/-- A call between functions of these names is in the graph. -/
def knowsCall (g : CallGraph) (fact : CallFact) : Bool :=
  g.arcs.any fun arc =>
    g.name? arc.caller == some fact.caller && g.name? arc.callee == some fact.callee

/-- A call is known when the graph has it between functions of these names. -/
theorem knowsCall_iff {fact : CallFact} :
    g.knowsCall fact = true ↔ ∃ call, (some fact.caller, some fact.callee, call) ∈
      g.arcs.map g.reading := by
  simp [knowsCall, reading]

/-- A call between names is one between the functions that have them. -/
theorem Indexed.knowsCall_eq (h : g.Indexed) {fact : CallFact} {a b : Nat}
    (ha : g.node? fact.caller = some a) (hb : g.node? fact.callee = some b) :
    g.knowsCall fact = g.hasCall a b := by
  have hcaller := (h _ _).1 ha
  have hcallee := (h _ _).1 hb
  rw [Bool.eq_iff_iff, knowsCall, List.any_eq_true, hasCall_iff]
  refine exists_congr fun arc => and_congr_right fun _ => ?_
  rw [Bool.and_eq_true, beq_iff_eq, beq_iff_eq]
  constructor
  · rintro ⟨hx, hy⟩
    exact ⟨h.name_unique hx hcaller, h.name_unique hy hcallee⟩
  · rintro ⟨rfl, rfl⟩
    exact ⟨hcaller, hcallee⟩

/-- A name is contained when the table leads somewhere from it. -/
theorem containsName_eq (g : CallGraph) (name : String) :
    g.containsName name = (g.node? name).isSome :=
  Std.HashMap.contains_eq_isSome_getElem?

/-- The contained names are those of the functions. -/
theorem Indexed.containsName_iff (h : g.Indexed) {name : String} :
    g.containsName name = true ↔ ∃ v, (∃ node, g.vertex? node = some v) ∧ v.name = name := by
  rw [containsName_eq, Option.isSome_iff_exists]
  constructor
  · rintro ⟨node, hnode⟩
    obtain ⟨v, hv, hname⟩ := name?_eq_some_iff.1 ((h name node).1 hnode)
    exact ⟨v, ⟨node, hv⟩, hname⟩
  · rintro ⟨v, ⟨node, hv⟩, hname⟩
    exact ⟨node, (h name node).2 (name?_eq_some_iff.2 ⟨v, hv, hname⟩)⟩

/-- The functions of a graph are as many as its nodes. -/
theorem length_vertices (g : CallGraph) : g.vertices.length = g.vertexCount := by
  rw [vertexCount, ← map_fst_vertices, List.length_map]

/-- A function that is placed is listed beside the others. -/
theorem Placed.vertices_perm {v : Vertex} {node : Nat} (h : Placed g v node g') :
    g'.vertices.Perm (g.vertices ++ [(node, v)]) := by
  have hnodup : (g.vertices ++ [(node, v)]).Nodup := by
    rw [List.nodup_append]
    refine ⟨g.nodup_vertices, List.nodup_singleton _, ?_⟩
    rintro ⟨a, w⟩ ha b hb rfl
    obtain ⟨rfl, rfl⟩ := Prod.mk.inj (List.mem_singleton.1 hb)
    rw [mem_vertices, h.vacant] at ha
    exact absurd ha (by simp)
  rw [List.perm_ext_iff_of_nodup g'.nodup_vertices hnodup]
  rintro ⟨a, w⟩
  rw [List.mem_append, List.mem_singleton, mem_vertices, mem_vertices, h.vertex?_eq]
  by_cases ha : a = node
  · subst ha
    simp [h.vacant, eq_comm]
  · simp [ha]

/-- A new call is no new function. -/
theorem vertices_addCall (g : CallGraph) (caller callee : Nat) (call : Call) :
    (g.addCall caller callee call).2.vertices = g.vertices := by
  have hslots := (g.addCall_cases caller callee call).1
  unfold vertices nodes hasNode vertex?
  rw [hslots]

end CallGraph

/-! ## What is entered -/

namespace Survey

open CallGraph

variable {s s' : Survey} {names : List String} {facts : List CallFact}

/-- Names and calls were entered in a survey.  Functions and calls that were there before
are still there as they were; each name that was new has a function that is marked as
observed, and is no longer spare; each call that was new is there, marked as observed. -/
structure Extends (s : Survey) (names : List String) (facts : List CallFact) (s' : Survey) :
    Prop where
  entry_eq : s'.graph.entry = s.graph.entry
  vertices : ∃ placed : List (Nat × Vertex), s'.graph.vertices.Perm (s.graph.vertices ++ placed) ∧
    placed.map (·.2) = (newItems s.graph.containsName names).map Vertex.observed
  calls : ∃ pushed : List Arc, s'.graph.arcs = pushed.reverse ++ s.graph.arcs ∧
    pushed.map s'.graph.reading = (newItems s.graph.knowsCall facts).map CallFact.reading
  mem_spare : ∀ name, name ∈ s'.state.spare ↔
    name ∈ s.state.spare ∧ name ∉ newItems s.graph.containsName names
  state_eq : { s'.state with spare := s.state.spare } = s.state

/-- A survey extends itself by nothing. -/
theorem Extends.refl (s : Survey) : Extends s [] [] s :=
  ⟨rfl, ⟨[], by simp⟩, ⟨[], by simp⟩, by simp, rfl⟩

/-- A function stays as it is. -/
theorem Extends.vertex?_eq (h : Extends s names facts s') {node : Nat} {v : Vertex}
    (hv : s.graph.vertex? node = some v) : s'.graph.vertex? node = some v := by
  obtain ⟨placed, hperm, -⟩ := h.vertices
  rw [← mem_vertices, hperm.mem_iff, List.mem_append]
  exact Or.inl (mem_vertices.2 hv)

/-- There are the functions that were there, and those that were observed. -/
theorem Extends.exists_vertex?_iff (h : Extends s names facts s') {v : Vertex} :
    (∃ node, s'.graph.vertex? node = some v) ↔ (∃ node, s.graph.vertex? node = some v) ∨
      ∃ name ∈ names, s.graph.containsName name = false ∧ v = .observed name := by
  obtain ⟨placed, hperm, hplaced⟩ := h.vertices
  have hnew : (∃ node, (node, v) ∈ placed) ↔
      ∃ name ∈ names, s.graph.containsName name = false ∧ v = .observed name := by
    have hmem : v ∈ placed.map (·.2) ↔ ∃ node, (node, v) ∈ placed := by simp
    rw [← hmem, hplaced]
    simp only [List.mem_map, mem_newItems, and_assoc, eq_comm (b := v)]
  simp only [← mem_vertices, hperm.mem_iff, List.mem_append, exists_or, hnew]

/-- The names that are known are those that were known, and those that were entered. -/
theorem Extends.containsName_iff (h : Extends s names facts s') (hi : s.graph.Indexed)
    (hi' : s'.graph.Indexed) {name : String} :
    s'.graph.containsName name = true ↔
      s.graph.containsName name = true ∨ name ∈ names := by
  rw [hi'.containsName_iff]
  simp only [h.exists_vertex?_iff]
  constructor
  · rintro ⟨v, hold | ⟨other, hother, -, rfl⟩, hname⟩
    · exact Or.inl (hi.containsName_iff.2 ⟨v, hold, hname⟩)
    · exact Or.inr (hname ▸ hother)
  · intro hknown
    cases hold : s.graph.containsName name with
    | true =>
      obtain ⟨v, hv, hname⟩ := hi.containsName_iff.1 hold
      exact ⟨v, Or.inl hv, hname⟩
    | false =>
      have hname : name ∈ names := hknown.resolve_left (by simp [hold])
      exact ⟨.observed name, Or.inr ⟨name, hname, hold, rfl⟩, rfl⟩

/-- Calls that were there are read as before. -/
theorem Extends.reading_eq (h : Extends s names facts s') (hw : s.graph.WellFormed) {arc : Arc}
    (harc : arc ∈ s.graph.arcs) : s'.graph.reading arc = s.graph.reading arc := by
  have hname : ∀ node, s.graph.hasNode node = true →
      s'.graph.name? node = s.graph.name? node := by
    intro node hnode
    obtain ⟨v, hv⟩ := hasNode_iff.1 hnode
    rw [name?, h.vertex?_eq hv, name?, hv]
  exact reading_congr (hname _ (hw.caller_mem arc harc)) (hname _ (hw.callee_mem arc harc))

/-- There are the calls that were there, and those that were observed. -/
theorem Extends.mem_readings_iff (h : Extends s names facts s') (hw : s.graph.WellFormed)
    {r : Option String × Option String × Call} :
    r ∈ s'.graph.arcs.map s'.graph.reading ↔ r ∈ s.graph.arcs.map s.graph.reading ∨
      ∃ fact ∈ facts, s.graph.knowsCall fact = false ∧ r = fact.reading := by
  obtain ⟨pushed, harcs, hpushed⟩ := h.calls
  have hold : s.graph.arcs.map s'.graph.reading = s.graph.arcs.map s.graph.reading :=
    List.map_congr_left fun arc harc => h.reading_eq hw harc
  rw [harcs, List.map_append, hold, List.map_reverse, hpushed, List.mem_append,
    List.mem_reverse, or_comm]
  simp only [List.mem_map, mem_newItems, and_assoc, eq_comm (b := r)]

/-- After an extension the known calls are the old ones and the new ones. -/
theorem Extends.knowsCall_iff (h : Extends s names facts s') (hw : s.graph.WellFormed)
    {fact : CallFact} : s'.graph.knowsCall fact = true ↔
      s.graph.knowsCall fact = true ∨ fact ∈ facts := by
  rw [CallGraph.knowsCall_iff]
  simp only [h.mem_readings_iff hw]
  constructor
  · rintro ⟨call, hold | ⟨other, hother, -, hread⟩⟩
    · exact Or.inl (CallGraph.knowsCall_iff.2 ⟨call, hold⟩)
    · rw [CallFact.reading, Prod.mk.injEq, Prod.mk.injEq, Option.some.injEq,
        Option.some.injEq] at hread
      obtain ⟨hcaller, hcallee, -⟩ := hread
      have hsame : fact = other := by
        cases fact
        cases other
        simp_all
      exact Or.inr (hsame ▸ hother)
  · intro hknown
    cases hold : s.graph.knowsCall fact with
    | true =>
      obtain ⟨call, hcall⟩ := CallGraph.knowsCall_iff.1 hold
      exact ⟨call, Or.inl hcall⟩
    | false =>
      have hfact : fact ∈ facts := hknown.resolve_left (by simp [hold])
      exact ⟨_, Or.inr ⟨fact, hfact, hold, rfl⟩⟩

/-! ## One step -/

/-- Graphs with one function for each name, and with a table that is right, stay so. -/
theorem stable_indexed : Stable fun g => g.WellFormed ∧ g.Indexed :=
  ⟨fun h _ => ⟨h.1.insert _, h.2.insert h.1 _⟩, fun node h => ⟨h.1.remove node, h.2.remove node⟩,
    fun caller callee call h => ⟨h.1.addCall caller callee call,
      h.2.congr (addCall_cases _ caller callee call).2 (name?_addCall _ caller callee · call)⟩,
    fun node f h => ⟨h.1.of_sameShape (sameShape_annotate _ node f),
      h.2.congr rfl (name?_annotate _ node · f)⟩⟩

/-- What is observed has a number afterwards. -/
theorem node?_observedNode (hw : s.graph.WellFormed) (hi : s.graph.Indexed) (name : String) :
    (s.observedNode name).2.graph.node? name = some (s.observedNode name).1 := by
  cases hfind : s.graph.node? name with
  | some node => rwa [observedNode_of_node? hfind]
  | none =>
    have hplaced := hw.placed_insert (v := .observed name) hfind
    have hnumber : (s.observedNode name).1 = (s.graph.insert (.observed name)).1 := by
      simp [Survey.observedNode, hfind]
    rw [graph_observedNode_of_none hfind, hnumber, hi.insert hw (.observed name) name, name?,
      hplaced.vertex?_eq, if_pos rfl]
    rfl

/-- Observing a name enters it. -/
theorem Extends.observedNode (h : Extends s names facts s') (hi : s.graph.Indexed)
    (hw' : s'.graph.WellFormed) (hi' : s'.graph.Indexed) (name : String) :
    Extends s (names ++ [name]) facts (s'.observedNode name).2 := by
  have hknown : s'.graph.containsName name = true ↔
      s.graph.containsName name = true ∨ name ∈ names := h.containsName_iff hi hi'
  rw [containsName_eq] at hknown
  cases hfind : s'.graph.node? name with
  | some node =>
    have hold := hknown.1 (by simp [hfind])
    rw [observedNode_of_node? hfind]
    refine ⟨h.entry_eq, ?_, h.calls, ?_, h.state_eq⟩
    · rw [newItems_concat_of_known hold]
      exact h.vertices
    · rw [newItems_concat_of_known hold]
      exact h.mem_spare
  | none =>
    obtain ⟨hgraph, hname⟩ := not_or.1 (mt hknown.2 (by simp [hfind]))
    rw [Bool.not_eq_true] at hgraph
    have hplaced := hw'.placed_insert (v := .observed name) hfind
    have hstate : (s'.observedNode name).2.state = s'.state.unpark name := by
      simp [Survey.observedNode, hfind]
    obtain ⟨placed, hperm, hvertices⟩ := h.vertices
    obtain ⟨pushed, harcs, hreadings⟩ := h.calls
    rw [← graph_observedNode_of_none hfind] at hplaced
    refine ⟨hplaced.entry_eq.trans h.entry_eq, ?_, ⟨pushed, hplaced.arcs_eq.trans harcs, ?_⟩,
      ?_, ?_⟩
    · refine ⟨placed ++ [((s'.graph.insert (.observed name)).1, .observed name)],
        hplaced.vertices_perm.trans ?_, ?_⟩
      · rw [← List.append_assoc]
        exact hperm.append_right _
      · rw [newItems_concat hgraph hname, List.map_append, List.map_append, hvertices]
        rfl
    · rw [← hreadings]
      refine List.map_congr_left fun arc harc => ?_
      have hmem : arc ∈ s'.graph.arcs := by
        rw [harcs]
        exact List.mem_append_left _ (List.mem_reverse.2 harc)
      refine reading_congr ?_ ?_
      · rw [name?, hplaced.vertex?_of_hasNode (hw'.caller_mem arc hmem), name?]
      · rw [name?, hplaced.vertex?_of_hasNode (hw'.callee_mem arc hmem), name?]
    · intro other
      rw [hstate, CampaignState.mem_spare_unpark, h.mem_spare, newItems_concat hgraph hname,
        List.mem_append, List.mem_singleton, not_or, and_comm, and_assoc, ne_comm]
    · rw [hstate]
      exact h.state_eq

/-- Adding a call between functions that have these names enters it. -/
theorem Extends.addCall (h : Extends s names facts s') (hw : s.graph.WellFormed)
    (hi' : s'.graph.Indexed) {fact : CallFact} {a b : Nat}
    (ha : s'.graph.node? fact.caller = some a) (hb : s'.graph.node? fact.callee = some b) :
    Extends s names (facts ++ [fact])
      { s' with graph := (s'.graph.addCall a b { origin := .dynamic }).2 } := by
  have hcaller := (hi' _ _).1 ha
  have hcallee := (hi' _ _).1 hb
  have hcall := hi'.knowsCall_eq ha hb
  have hknown : s'.graph.knowsCall fact = true ↔
      s.graph.knowsCall fact = true ∨ fact ∈ facts := h.knowsCall_iff hw
  obtain ⟨pushed, harcs, hreadings⟩ := h.calls
  cases hhas : s'.graph.hasCall a b with
  | true =>
    have hsame : s'.graph.addCall a b { origin := .dynamic } = (false, s'.graph) := by
      simp [CallGraph.addCall, hhas]
    rw [hsame]
    refine ⟨h.entry_eq, h.vertices, ⟨pushed, harcs, ?_⟩, h.mem_spare, h.state_eq⟩
    rw [newItems_concat_of_known (hknown.1 (hcall.trans hhas)), hreadings]
  | false =>
    obtain ⟨hgraph, hfact⟩ := not_or.1 (mt hknown.2 (by simp [hcall, hhas]))
    rw [Bool.not_eq_true] at hgraph
    obtain ⟨v, hv, -⟩ := name?_eq_some_iff.1 hcaller
    obtain ⟨w, hw, -⟩ := name?_eq_some_iff.1 hcallee
    have hpush : (s'.graph.addCall a b { origin := .dynamic }).2 =
        s'.graph.pushArc a b { origin := .dynamic } := by
      simp [CallGraph.addCall, hhas, hasNode_iff.2 ⟨v, hv⟩, hasNode_iff.2 ⟨w, hw⟩]
    obtain ⟨index, hpushed, hname⟩ := s'.graph.exists_arcs_pushArc a b { origin := .dynamic }
    have hread : (s'.graph.pushArc a b { origin := .dynamic }).reading = s'.graph.reading :=
      funext fun arc => reading_congr (hname _) (hname _)
    refine ⟨(entry_addCall _ _ _ _).trans h.entry_eq, ?_,
      ⟨pushed ++ [⟨index, a, b, { origin := .dynamic }⟩], ?_, ?_⟩, h.mem_spare, h.state_eq⟩
    · rw [vertices_addCall]
      exact h.vertices
    · rw [hpush, hpushed, harcs, List.reverse_concat]
      rfl
    · rw [newItems_concat hgraph hfact, List.map_append, List.map_append, hpush, hread,
        hreadings, List.map_singleton, List.map_singleton, reading, hcaller, hcallee]
      rfl

/-- One observed call enters its ends and itself. -/
theorem Extends.observeCall (h : Extends s names facts s') (hw : s.graph.WellFormed)
    (hi : s.graph.Indexed) (hw' : s'.graph.WellFormed) (hi' : s'.graph.Indexed)
    (fact : CallFact) :
    Extends s (names ++ [fact.caller, fact.callee]) (facts ++ [fact]) (s'.observeCall fact) := by
  have hcaller := stable_indexed.observedNode ⟨hw', hi'⟩ fact.caller
  have hcallee := stable_indexed.observedNode hcaller fact.callee
  have hends := (h.observedNode hi hw' hi' fact.caller).observedNode hi hcaller.1 hcaller.2
    fact.callee
  have ha := node?_observedNode hw' hi' fact.caller
  have hb := node?_observedNode hcaller.1 hcaller.2 fact.callee
  -- the caller keeps its number while the callee is inserted
  have ha' : ((s'.observedNode fact.caller).2.observedNode fact.callee).2.graph.node? fact.caller =
      some (s'.observedNode fact.caller).1 := by
    have hkept := (Extends.refl (s'.observedNode fact.caller).2).observedNode hcaller.2 hcaller.1
      hcaller.2 fact.callee
    obtain ⟨v, hv, hname⟩ := name?_eq_some_iff.1 ((hcaller.2 _ _).1 ha)
    exact (hcallee.2 _ _).2 (name?_eq_some_iff.2 ⟨v, hkept.vertex?_eq hv, hname⟩)
  rw [List.append_assoc] at hends
  exact hends.addCall hw hcallee.2 ha' hb

/-- Observed calls enter the functions at their ends and themselves. -/
theorem extends_observe (hw : s.graph.WellFormed) (hi : s.graph.Indexed)
    (facts : List CallFact) : Extends s (CallFact.endpoints facts) facts (s.observe facts) := by
  induction facts using List.reverseRecOn with
  | nil => exact Extends.refl s
  | append_singleton facts fact ih =>
    have hstable := stable_indexed.observe ⟨hw, hi⟩ facts
    rw [observe_append, CallFact.endpoints, List.flatMap_append]
    exact ih.observeCall hw hi hstable.1 hstable.2 fact

/-! ## Calls that are observed again -/

/-- A call that is known between known functions changes nothing. -/
theorem observeCall_of_knowsCall (hi : s.graph.Indexed) {fact : CallFact}
    (h : s.graph.knowsCall fact = true) : s.observeCall fact = s := by
  obtain ⟨arc, -, hnames⟩ := List.any_eq_true.1 h
  rw [Bool.and_eq_true, beq_iff_eq, beq_iff_eq] at hnames
  have ha := (hi _ _).2 hnames.1
  have hb := (hi _ _).2 hnames.2
  have hcall : s.graph.hasCall arc.caller arc.callee = true := by
    rw [← hi.knowsCall_eq ha hb, h]
  simp [Survey.observeCall, observedNode_of_node? ha, observedNode_of_node? hb,
    CallGraph.addCall, hcall]

/-- Observing what is known changes nothing. -/
theorem observe_of_knowsCall (hi : s.graph.Indexed)
    (h : ∀ fact ∈ facts, s.graph.knowsCall fact = true) : s.observe facts = s := by
  induction facts with
  | nil => rfl
  | cons fact facts ih =>
    rw [observe_cons, observeCall_of_knowsCall hi (h fact List.mem_cons_self)]
    exact ih fun other hother => h other (List.mem_cons_of_mem _ hother)

/-- Two surveys know the same functions, the same calls between the same names, and the
same spare names. -/
structure SameKnowledge (s s' : Survey) : Prop where
  functions : ∀ v, (∃ node, s.graph.vertex? node = some v) ↔ ∃ node, s'.graph.vertex? node = some v
  calls : ∀ r, r ∈ s.graph.arcs.map s.graph.reading ↔ r ∈ s'.graph.arcs.map s'.graph.reading
  spare : ∀ name, name ∈ s.state.spare ↔ name ∈ s'.state.spare

/-- What is known depends on which names and calls were entered, not on their order, and
not on how often. -/
theorem Extends.sameKnowledge {t t' : Survey} {names' : List String} {facts' : List CallFact}
    (hw : s.graph.WellFormed) (h : Extends s names facts t) (h' : Extends s names' facts' t')
    (hnames : ∀ name, name ∈ names ↔ name ∈ names')
    (hfacts : ∀ fact, fact ∈ facts ↔ fact ∈ facts') :
    SameKnowledge t t' := by
  refine ⟨?_, ?_, ?_⟩
  · intro v
    simp only [h.exists_vertex?_iff, h'.exists_vertex?_iff, hnames]
  · intro r
    simp only [h.mem_readings_iff hw, h'.mem_readings_iff hw, hfacts]
  · intro name
    simp only [h.mem_spare, h'.mem_spare, mem_newItems, hnames]

/-! ## Counting -/

/-- The functions and calls that are there afterwards are those that were there and the
new ones. -/
theorem Extends.counts (h : Extends s names facts s') :
    s'.graph.vertexCount =
      s.graph.vertexCount + (newItems s.graph.containsName names).length ∧
    s'.graph.edgeCount = s.graph.edgeCount + (newItems s.graph.knowsCall facts).length := by
  obtain ⟨placed, hperm, hplaced⟩ := h.vertices
  obtain ⟨pushed, harcs, hpushed⟩ := h.calls
  have hvertices := congrArg List.length hplaced
  have hcalls := congrArg List.length hpushed
  rw [List.length_map, List.length_map] at hvertices hcalls
  refine ⟨?_, ?_⟩
  · rw [← length_vertices, hperm.length_eq, List.length_append, length_vertices, hvertices]
  · rw [edgeCount, harcs, List.length_append, List.length_reverse, hcalls, edgeCount,
      Nat.add_comm]

/-- A record adds no node and takes none. -/
theorem nodes_applyRecord (g : CallGraph) (record : CoverageRecord) :
    (g.applyRecord record).2.nodes = g.nodes := by
  rw [applyRecord]
  split
  · split
    · exact (sameShape_annotate g _ _).nodes_eq
    · rfl
  · rfl

/-- Coverage changes no number of functions or calls. -/
theorem counts_applyCoverage (g : CallGraph) (records : List CoverageRecord) :
    (g.applyCoverage records).2.vertexCount = g.vertexCount ∧
      (g.applyCoverage records).2.edgeCount = g.edgeCount := by
  induction records generalizing g with
  | nil => exact ⟨rfl, rfl⟩
  | cons record records ih =>
    obtain ⟨hnodes, harcs⟩ := ih (g.applyRecord record).2
    rw [applyCoverage]
    refine ⟨hnodes.trans ?_, harcs.trans ?_⟩
    · rw [vertexCount, nodes_applyRecord, vertexCount]
    · rw [edgeCount, (g.applyRecord_cases record).2.1, edgeCount]

/-- A profiling pass reports the functions that were observed in the order of their first
mention, and how many functions and calls were new. -/
structure Reports (s : Survey) (facts : List CallFact) (result : IngestReport × Survey) :
    Prop where
  coveredFunctions : result.1.coveredFunctions = (CallFact.endpoints facts).eraseDups
  verticesAdded : result.1.verticesAdded =
    (newItems s.graph.containsName (CallFact.endpoints facts)).length
  edgesAdded : result.1.edgesAdded = (newItems s.graph.knowsCall facts).length
  vertexCount : result.2.graph.vertexCount = s.graph.vertexCount + result.1.verticesAdded
  edgeCount : result.2.graph.edgeCount = s.graph.edgeCount + result.1.edgesAdded

/-- The report of an ingest counts what its call log has added. -/
theorem Extends.reports_ingest (output : ProfileOutput)
    (h : Extends s (CallFact.endpoints (CallFact.parseLog output.callLog))
      (CallFact.parseLog output.callLog) (s.observe (CallFact.parseLog output.callLog))) :
    Reports s (CallFact.parseLog output.callLog) (s.ingest output) := by
  obtain ⟨hvertices, hcalls⟩ := h.counts
  obtain ⟨hnodes, harcs⟩ := counts_applyCoverage
    (s.observe (CallFact.parseLog output.callLog)).graph
    (CoverageRecord.parseReport output.coverageReport)
  rw [hvertices] at hnodes
  rw [hcalls] at harcs
  refine ⟨rfl, ?_, ?_, ?_, ?_⟩
  · simp only [ingest, hnodes, Nat.add_sub_cancel_left]
  · simp only [ingest, harcs, Nat.add_sub_cancel_left]
  · simp only [ingest, hnodes, Nat.add_sub_cancel_left]
  · simp only [ingest, harcs, Nat.add_sub_cancel_left]

/-! ## Observation -/

/-- Observed calls add a function for each name and a call for each pair that were not
known, and leave everything else as it is but that the added names are no longer spare.
The functions that they name are listed in the order of their first mention.  Observing
the same calls again changes nothing, and in another order, or more than once, they make
the same known.  A profiling pass counts what was added. -/
theorem observe_adds (hw : s.graph.WellFormed) (hi : s.graph.Indexed)
    (facts : List CallFact) :
    Extends s (CallFact.endpoints facts) facts (s.observe facts) ∧
    ((∀ name, name ∈ CallFact.touched facts ↔
        ∃ fact ∈ facts, name = fact.caller ∨ name = fact.callee) ∧
      (CallFact.touched facts).Pairwise fun a b =>
        (CallFact.endpoints facts).idxOf a < (CallFact.endpoints facts).idxOf b) ∧
    (s.observe facts).observe facts = s.observe facts ∧
    (∀ others, (∀ fact, fact ∈ others ↔ fact ∈ facts) →
      SameKnowledge (s.observe others) (s.observe facts)) ∧
    ∀ output : ProfileOutput, CallFact.parseLog output.callLog = facts →
      Reports s facts (s.ingest output) := by
  have hextends := extends_observe hw hi facts
  have hstable := stable_indexed.observe ⟨hw, hi⟩ facts
  refine ⟨hextends, ⟨?_, pairwise_idxOf_eraseDups _⟩, ?_, ?_, ?_⟩
  · intro name
    simp [CallFact.touched]
  · refine observe_of_knowsCall hstable.2 fun fact hfact => ?_
    exact (hextends.knowsCall_iff hw).2 (Or.inr hfact)
  · intro others hsame
    refine Extends.sameKnowledge hw (extends_observe hw hi others) hextends ?_ hsame
    intro name
    simp only [CallFact.endpoints, List.mem_flatMap, hsame]
  · rintro output rfl
    exact hextends.reports_ingest

/-- A call between two functions contains their names. -/
theorem containsName_ofCall {caller callee : String} (h : caller ≠ callee) :
    (ofCall caller callee).containsName = fun name => name == caller || name == callee := by
  funext name
  simp [ofCall, ofEntry, CallGraph.insert, CallGraph.addCall, allocate, Vertex.named, h,
    containsName, hasCall, arc?, hasNode, vertex?, pushArc, Bool.or_comm, BEq.comm]

/-- A call between two functions is the one known call. -/
theorem knowsCall_ofCall {caller callee : String} (h : caller ≠ callee) :
    (ofCall caller callee).knowsCall = fun fact => fact == ⟨caller, callee⟩ := by
  have harcs : (ofCall caller callee).arcs = [⟨0, 0, 1, {}⟩] := by
    simp [ofCall, ofEntry, CallGraph.insert, CallGraph.addCall, allocate, Vertex.named, h,
      hasCall, arc?, hasNode, vertex?, pushArc]
  have hcaller : (ofCall caller callee).name? 0 = some caller := by
    rw [name?, vertex?_ofCall h]
    rfl
  have hcallee : (ofCall caller callee).name? 1 = some callee := by
    rw [name?, vertex?_ofCall h]
    rfl
  funext fact
  obtain ⟨x, y⟩ := fact
  rw [Bool.eq_iff_iff, knowsCall, harcs]
  simp only [List.any_cons, List.any_nil, Bool.or_false, Bool.and_eq_true, beq_iff_eq, hcaller,
    hcallee, Option.some.injEq, CallFact.mk.injEq]
  exact and_congr eq_comm eq_comm

/-- A spare function is called by the entry, calls itself, and is called once more; a call
that the graph has is observed as well. -/
def rediscovery : List CallFact :=
  [⟨"main", "inflate"⟩, ⟨"inflate", "inflate"⟩, ⟨"main", "parse"⟩, ⟨"main", "inflate"⟩]

/-- The spare function is added with two calls, and is no longer spare. -/
theorem observe_adds_rediscovery :
    let s : Survey := ⟨ofCall "main" "parse", ({} : CampaignState).park "inflate"⟩
    s.graph.WellFormed ∧ s.graph.Indexed ∧ "inflate" ∈ s.state.spare ∧
      CallFact.touched rediscovery = ["main", "inflate", "parse"] ∧
      (s.observe rediscovery).graph.vertexCount = s.graph.vertexCount + 1 ∧
      (s.observe rediscovery).graph.edgeCount = s.graph.edgeCount + 2 ∧
      "inflate" ∉ (s.observe rediscovery).state.spare ∧
      (s.observe rediscovery).observe rediscovery = s.observe rediscovery := by
  intro s
  have hbuilt : s.graph.Built := built_ofCall _ _
  have hnames : newItems s.graph.containsName (CallFact.endpoints rediscovery) = ["inflate"] := by
    rw [containsName_ofCall (by decide)]
    decide
  have hcalls : newItems s.graph.knowsCall rediscovery =
      [⟨"main", "inflate"⟩, ⟨"inflate", "inflate"⟩] := by
    rw [knowsCall_ofCall (by decide)]
    decide
  obtain ⟨hextends, -, hagain, -⟩ := observe_adds hbuilt.wellFormed hbuilt.indexed rediscovery
  obtain ⟨hvertexCount, hedgeCount⟩ := hextends.counts
  rw [hnames] at hvertexCount
  rw [hcalls] at hedgeCount
  refine ⟨hbuilt.wellFormed, hbuilt.indexed, by simp [s], by decide, hvertexCount, hedgeCount,
    ?_, hagain⟩
  rw [hextends.mem_spare, hnames]
  simp

end Survey

end FuzzCampaign

import FuzzCampaign.Proofs.CallGraph.Loading
import FuzzCampaign.Proofs.Retention

/-!
# Consistency through a campaign

A campaign edits a loaded graph: it observes calls, slides windows and prunes, and
functions and calls can be removed and added one by one.  The entry and the table of
names get through all of this.  The table of identities does not: nodes of a
description may be called anything, an observed function takes the identity that is
made from its name, and nobody checks whether a node of the description has it
already.  So a loaded graph stays consistent if and only if its description keeps clear
of the identities of other functions that can be observed.

Main definitions:

- `Survey.Edit`: what is done to the graph of a survey.
- `CallGraph.Unambiguous`: no function has an identity that observation gives to another.

Main results:

- `CallGraph.Loaded.identified`: the tables of a loaded graph are right.
- `CallGraph.stable_sound`: nothing goes wrong in an unambiguous graph.
- `Survey.not_identified_observe`: observing a function whose identity is taken.
- `Survey.consistent_iff_unambiguous`: when a loaded graph stays consistent.
-/

namespace FuzzCampaign

/-- Functions that are observed under different names have different identities. -/
theorem VertexId.dynamic_injective {a b : String} (h : dynamic a = dynamic b) : a = b := by
  have htext : "dyn:" ++ a = "dyn:" ++ b := congrArg VertexId.text h
  have hchars := congrArg String.toList htext
  rw [String.toList_append, String.toList_append] at hchars
  exact String.toList_inj.1 (List.append_cancel_left hchars)

namespace CallGraph

variable {g g' : CallGraph} {first : String × String} {rest : List (String × String)}
  {calls : List (Nat × Nat)}

/-! ## Loaded graphs -/

/-- Labels of different nodes that are new make functions with identities of their own. -/
theorem Identified.loadLabels (h : g.Identified) (hb : g.Built) (labels : List (String × String))
    (hnodup : (labels.map (·.1)).Nodup)
    (hfresh : ∀ label ∈ labels, ∀ node w, g.vertex? node = some w → w.id ≠ ⟨label.1⟩) :
    (g.loadLabels labels).Identified := by
  induction labels generalizing g with
  | nil => exact h
  | cons label labels ih =>
    rw [List.map_cons, List.nodup_cons] at hnodup
    have hins : (g.insert (.labelled label)).2.Identified :=
      h.insert hb.wellFormed hb.indexed fun node w hw hid =>
        absurd hid (hfresh label List.mem_cons_self node w hw)
    refine ih hins (hb.insert _) hnodup.2 ?_
    intro other hother node w hw
    rcases hb.wellFormed.eq_of_vertex?_insert hw with hold | rfl
    · exact hfresh other (List.mem_cons_of_mem _ hother) node w hold
    · intro heq
      have hsame : label.1 = other.1 := congrArg VertexId.text heq
      exact hnodup.1 (hsame ▸ List.mem_map_of_mem hother)

/-- The tables of a loaded graph are right. -/
theorem Loaded.identified (h : g.Loaded first rest calls) : g.Identified := by
  have hnodup := h.nodup_ids
  rw [List.map_cons, List.nodup_cons] at hnodup
  have hfunctions : (ofLabels first rest).Identified := by
    refine (identified_ofEntry _).loadLabels (.ofEntry _) rest hnodup.2 ?_
    intro label hlabel node w hw heq
    have hfirst : w = .labelled first := by
      cases node with
      | zero => exact (Option.some.inj hw).symm
      | succ node => simp [ofEntry, vertex?] at hw
    subst hfirst
    have hsame : first.1 = label.1 := congrArg VertexId.text heq
    exact hnodup.1 (hsame ▸ List.mem_map_of_mem hlabel)
  rw [h.eq]
  exact hfunctions.congr rfl fun _ => rfl

/-- The entry of a loaded graph has the first label. -/
theorem Loaded.name?_entry (h : g.Loaded first rest calls) :
    g.name? g.entry = some first.2 := by
  have hentry : (ofLabels first rest).entry = 0 := entry_loadLabels _ rest
  rw [h.eq, name?, vertex?_withCalls]
  show ((ofLabels first rest).vertex? (ofLabels first rest).entry).map _ = _
  rw [hentry, h.lists.vertex?_eq]
  rfl

/-! ## What a campaign keeps -/

/-- A graph has the entry that it started with. -/
structure SameEntry (start g : CallGraph) : Prop where
  built : g.Built
  entry_eq : g.entry = start.entry
  id?_eq : g.id? start.entry = start.id? start.entry
  name?_eq : g.name? start.entry = start.name? start.entry

theorem Built.sameEntry (h : g.Built) : SameEntry g g := ⟨h, rfl, rfl, rfl⟩

/-- Nothing that is done to a graph touches its entry. -/
theorem stable_sameEntry (start : CallGraph) : Stable (SameEntry start) := by
  refine ⟨?_, ?_, ?_, ?_⟩
  · intro g name h hnew
    have hplaced := h.built.wellFormed.placed_insert (v := .observed name) hnew
    have hsame : (g.insert (.observed name)).2.vertex? start.entry = g.vertex? start.entry :=
      hplaced.vertex?_of_hasNode (h.entry_eq ▸ h.built.wellFormed.entry_mem)
    refine ⟨h.built.insert _, hplaced.entry_eq.trans h.entry_eq, ?_, ?_⟩
    · rw [id?, hsame, ← id?, h.id?_eq]
    · rw [name?, hsame, ← name?, h.name?_eq]
  · intro g node h
    have hsame : (g.remove node).2.vertex? start.entry = g.vertex? start.entry := by
      by_cases hne : node = g.entry
      · rw [hne, remove_entry]
      · rw [vertex?_remove hne, if_neg]
        rintro rfl
        exact hne h.entry_eq.symm
    refine ⟨h.built.remove node, (entry_remove g node).trans h.entry_eq, ?_, ?_⟩
    · rw [id?, hsame, ← id?, h.id?_eq]
    · rw [name?, hsame, ← name?, h.name?_eq]
  · intro g caller callee call h
    refine ⟨h.built.addCall caller callee call,
      (entry_addCall g caller callee call).trans h.entry_eq, ?_, ?_⟩
    · rw [id?, vertex?_addCall, ← id?, h.id?_eq]
    · rw [name?_addCall, h.name?_eq]
  · intro g node f h
    refine ⟨h.built.annotate node f, h.entry_eq, ?_, ?_⟩
    · rw [id?_annotate, h.id?_eq]
    · rw [name?_annotate, h.name?_eq]

/-- The entry is called alike at any two points of a campaign. -/
theorem SameEntry.name?_eq_name? {start : CallGraph} (h : SameEntry start g)
    (h' : SameEntry start g') : g.name? g.entry = g'.name? g'.entry := by
  rw [h.entry_eq, h.name?_eq, h'.entry_eq, h'.name?_eq]

/-- The identity that observation would give to a name belongs to the function of this
name alone.  It may belong to anyone if the name is the one of the entry, which is
always known. -/
def Unambiguous (g : CallGraph) : Prop :=
  ∀ node v name, g.vertex? node = some v → v.id = .dynamic name →
    v.name = name ∨ g.name? g.entry = some name

/-- Functions that were there before and functions that were observed leave a graph
unambiguous. -/
theorem Unambiguous.of_old (h : g.Unambiguous) (hentry : g'.name? g'.entry = g.name? g.entry)
    (hold : ∀ node v, g'.vertex? node = some v →
      (∃ old, g.vertex? node = some old ∧ v.id = old.id ∧ v.name = old.name) ∨
        ∃ name, v = .observed name) : g'.Unambiguous := by
  intro node v name hv hid
  rw [hentry]
  rcases hold node v hv with ⟨old, hvertex, hsameId, hsameName⟩ | ⟨other, rfl⟩
  · rw [hsameName]
    exact h node old name hvertex (hsameId ▸ hid)
  · exact Or.inl (VertexId.dynamic_injective hid)

/-- A graph whose table of identities is right and stays so. -/
structure Sound (start g : CallGraph) : Prop where
  sameEntry : SameEntry start g
  identified : g.Identified
  unambiguous : g.Unambiguous

/-- Observed functions have new identities as long as the graph is unambiguous, and it
is not made ambiguous by them. -/
theorem stable_sound (start : CallGraph) : Stable (Sound start) := by
  have hentry := stable_sameEntry start
  refine ⟨?_, ?_, ?_, ?_⟩
  · intro g name h hnew
    have hsame := hentry.insert h.sameEntry hnew
    have hb := h.sameEntry.built
    have hother : g.name? g.entry ≠ some name := hb.indexed.name?_ne hnew g.entry
    refine ⟨hsame, h.identified.insert hb.wellFormed hb.indexed ?_,
      h.unambiguous.of_old (hsame.name?_eq_name? h.sameEntry) ?_⟩
    · intro node w hw hid
      exact (h.unambiguous node w name hw hid).resolve_right hother
    · intro node w hw
      rcases hb.wellFormed.eq_of_vertex?_insert hw with hold | rfl
      · exact Or.inl ⟨w, hold, rfl, rfl⟩
      · exact Or.inr ⟨name, rfl⟩
  · intro g node h
    have hsame := hentry.remove node h.sameEntry
    refine ⟨hsame, h.identified.remove node,
      h.unambiguous.of_old (hsame.name?_eq_name? h.sameEntry) ?_⟩
    intro other w hw
    exact Or.inl ⟨w, eq_of_vertex?_remove hw, rfl, rfl⟩
  · intro g caller callee call h
    have hsame := hentry.addCall caller callee call h.sameEntry
    refine ⟨hsame, h.identified.addCall caller callee call,
      h.unambiguous.of_old (hsame.name?_eq_name? h.sameEntry) ?_⟩
    intro other w hw
    rw [vertex?_addCall] at hw
    exact Or.inl ⟨w, hw, rfl, rfl⟩
  · intro g node f h
    have hsame := hentry.annotate node f h.sameEntry
    refine ⟨hsame, h.identified.annotate node f,
      h.unambiguous.of_old (hsame.name?_eq_name? h.sameEntry) ?_⟩
    intro other w hw
    rw [vertex?_annotate] at hw
    split at hw
    · obtain ⟨old, hold, rfl⟩ := Option.map_eq_some_iff.1 hw
      exact Or.inl ⟨old, hold, rfl, rfl⟩
    · exact Or.inl ⟨w, hw, rfl, rfl⟩

end CallGraph

namespace Survey

open CallGraph

variable {s : Survey}

/-! ## Edits -/

/-- What is done to the graph of a survey. -/
inductive Edit where
  | change (change : Change)
  | remove (node : Nat)
  | addCall (caller callee : Nat) (call : Call)

/-- Edit a survey. -/
def edit (s : Survey) : Edit → Survey
  | .change change => s.apply change
  | .remove node => { s with graph := (s.graph.remove node).2 }
  | .addCall caller callee call =>
    { s with graph := (s.graph.addCall caller callee call).2 }

end Survey

namespace CallGraph

variable {s : Survey} {P : CallGraph → Prop}

/-- Each edit is made of what a stable property can bear. -/
theorem Stable.edit (hP : Stable P) (h : P s.graph) (edit : Survey.Edit) :
    P (s.edit edit).graph := by
  cases edit with
  | change change =>
    rw [Survey.edit]
    cases change with
    | prune blocks =>
      rw [Survey.apply]
      exact hP.prune h blocks
    | observe facts =>
      rw [Survey.apply]
      exact hP.observe h facts
    | cover records => exact hP.applyCoverage h records
  | remove node => exact hP.remove node h
  | addCall caller callee call => exact hP.addCall caller callee call h

theorem Stable.edits (hP : Stable P) (h : P s.graph) (edits : List Survey.Edit) :
    P (edits.foldl Survey.edit s).graph := by
  induction edits generalizing s with
  | nil => exact h
  | cons edit edits ih =>
    rw [List.foldl_cons]
    exact ih (hP.edit h edit)

end CallGraph

namespace Survey

open CallGraph

variable {s : Survey}

/-! ## A taken identity -/

/-- Two functions with one identity cannot both be in the table. -/
theorem not_identified_of_shared {g : CallGraph} {a b : Nat} {v w : Vertex} (hne : a ≠ b)
    (hv : g.vertex? a = some v) (hw : g.vertex? b = some w) (hid : v.id = w.id) :
    ¬ g.Identified := by
  intro h
  refine hne (Leads.unique h (k := v.id) ?_ ?_)
  · rw [id?, hv]
    rfl
  · rw [id?, hw, hid]
    rfl

theorem hasName_observedNode (h : s.graph.Built) (name : String) :
    (s.observedNode name).2.graph.HasName name := by
  cases hfind : s.graph.node? name with
  | some node =>
    rw [observedNode_of_node? hfind]
    exact ⟨node, (h.indexed name node).1 hfind⟩
  | none =>
    rw [graph_observedNode_of_none hfind]
    exact (hasName_insert h.wellFormed hfind).2 (Or.inr rfl)

theorem hasName_observeCall (h : s.graph.Built) {fact : CallFact} {name : String}
    (hname : fact.caller = name ∨ fact.callee = name) :
    (s.observeCall fact).graph.HasName name := by
  have hcaller := built_observedNode h fact.caller
  have hboth : ((s.observedNode fact.caller).2.observedNode fact.callee).2.graph.HasName name := by
    rcases hname with rfl | rfl
    · exact (grown_observedNode hcaller fact.callee).hasName (hasName_observedNode h fact.caller)
    · exact hasName_observedNode hcaller fact.callee
  exact (grown_addCall _ _ _ _).hasName hboth

/-- Every function that observed calls name is in the graph afterwards. -/
theorem hasName_observe (h : s.graph.Built) {facts : List CallFact} {name : String}
    (hname : name ∈ CallFact.touched facts) : (s.observe facts).graph.HasName name := by
  have htouched : ∃ fact ∈ facts, fact.caller = name ∨ fact.callee = name := by
    simpa [CallFact.touched, eq_comm] using hname
  clear hname
  induction facts generalizing s with
  | nil => exact absurd htouched (by simp)
  | cons fact facts ih =>
    have hbuilt := built_observeCall h fact
    rw [observe_cons]
    rcases (List.exists_mem_cons_iff _ _ _).1 htouched with hfact | hrest
    · exact (grown_observe hbuilt facts).hasName (hasName_observeCall h hfact)
    · exact ih hbuilt hrest

/-- A new name whose identity is taken makes the graph inconsistent when it is observed. -/
theorem not_identified_observe (h : s.graph.Built) {node : Nat} {v : Vertex} {name : String}
    (hv : s.graph.vertex? node = some v) (hid : v.id = .dynamic name)
    (hnew : s.graph.node? name = none) {facts : List CallFact}
    (hname : name ∈ CallFact.touched facts) : ¬ (s.observe facts).graph.Identified := by
  have hgrown := grown_observe h facts
  obtain ⟨other, hother⟩ := hasName_observe h hname
  obtain ⟨w, hw, rfl⟩ := Option.map_eq_some_iff.1 hother
  have hvacant : s.graph.vertex? other = none := by
    rw [Option.eq_none_iff_forall_ne_some]
    intro u hu
    have hsame := hgrown.vertex?_eq hu
    rw [hw, Option.some.injEq] at hsame
    refine h.indexed.name?_ne hnew other ?_
    rw [name?, hu, hsame]
    rfl
  have hne : node ≠ other := by
    rintro rfl
    rw [hvacant] at hv
    exact absurd hv (by simp)
  obtain ⟨_, -, rfl⟩ := hgrown.added hvacant hw
  exact not_identified_of_shared hne (hgrown.vertex?_eq hv) hw hid

/-- The edits that bring out that an identity is taken: the function of the name goes, if
there is one, and is observed. -/
def rediscover (g : CallGraph) (name : String) : List Edit :=
  [.remove ((g.node? name).getD g.entry), .change (.observe [⟨name, name⟩])]

/-- No function has a name once the one that has it was removed. -/
theorem node?_remove_named {g : CallGraph} (h : g.Built) {name : String}
    (hentry : g.name? g.entry ≠ some name) :
    (g.remove ((g.node? name).getD g.entry)).2.node? name = none := by
  cases hfind : g.node? name with
  | none => rw [Option.getD_none, remove_entry, hfind]
  | some known =>
    have hknown := (h.indexed name known).1 hfind
    have hne : known ≠ g.entry := by
      rintro rfl
      exact hentry hknown
    rw [Option.getD_some, Option.eq_none_iff_forall_ne_some]
    intro other hother
    obtain ⟨w, hw, hwname⟩ :=
      Option.map_eq_some_iff.1 (((h.remove known).indexed name other).1 hother)
    have hsome : g.name? other = some name := by
      rw [name?, eq_of_vertex?_remove hw, ← hwname]
      rfl
    rw [h.indexed.name_unique hsome hknown, vertex?_remove hne, if_pos rfl] at hw
    exact absurd hw (by simp)

/-- Functions of other names stay when the one that has a name is removed. -/
theorem vertex?_remove_named {g : CallGraph} (h : g.Built) {node : Nat} {v : Vertex}
    {name : String} (hv : g.vertex? node = some v) (hname : v.name ≠ name) :
    (g.remove ((g.node? name).getD g.entry)).2.vertex? node = some v := by
  cases hfind : g.node? name with
  | none => rwa [Option.getD_none, remove_entry]
  | some known =>
    rw [Option.getD_some]
    by_cases hne : known = g.entry
    · rwa [hne, remove_entry]
    · rw [vertex?_remove hne, if_neg, hv]
      rintro rfl
      have hknown := (h.indexed name node).1 hfind
      rw [name?, hv, Option.map_some, Option.some.injEq] at hknown
      exact hname hknown

/-- Rediscovering a function whose identity another one has makes a graph inconsistent. -/
theorem not_identified_rediscover {g : CallGraph} (h : g.Built) {node : Nat} {v : Vertex}
    {name : String} (hv : g.vertex? node = some v) (hid : v.id = .dynamic name)
    (hname : v.name ≠ name) (hentry : g.name? g.entry ≠ some name) (state : CampaignState) :
    ¬ ((rediscover g name).foldl edit ⟨g, state⟩).graph.Identified := by
  rw [rediscover, List.foldl_cons, List.foldl_cons, List.foldl_nil, edit, edit, apply]
  exact not_identified_observe (s := ⟨_, state⟩) (h.remove _) (vertex?_remove_named h hv hname) hid
    (node?_remove_named h hentry) (by simp [CallFact.touched])

/-! ## When a loaded graph stays consistent -/

/-- A loaded graph stays consistent whatever is done to it if and only if it is
unambiguous.  In any case its entry stays under its number with its identity and its
name, and the table of names has one entry for each function and leads to it. -/
theorem consistent_iff_unambiguous {text entry : String} {g : CallGraph}
    (h : ofDot text entry = .ok g) (state : CampaignState) :
    ((∀ edits : List Edit, (edits.foldl edit ⟨g, state⟩).graph.isConsistent = true) ↔
      g.Unambiguous) ∧
    g.name? g.entry = some entry ∧
    ∀ edits : List Edit,
      let after := (edits.foldl edit ⟨g, state⟩).graph
      SameEntry g after ∧ after.Indexed ∧ after.byName.size = after.vertexCount := by
  obtain ⟨first, rest, calls, hloaded, rfl, -⟩ := exists_loaded h
  have hbuilt : g.Built := built_ofDot h
  refine ⟨⟨?_, ?_⟩, hloaded.name?_entry, ?_⟩
  · intro hall node v name hv hid
    by_contra hnot
    rw [not_or] at hnot
    exact not_identified_rediscover hbuilt hv hid hnot.1 hnot.2 state
      (isConsistent_iff.1 (hall (rediscover g name))).1
  · intro hunambiguous edits
    have hstart : Sound g g := ⟨hbuilt.sameEntry, hloaded.identified, hunambiguous⟩
    have hend : Sound g (edits.foldl edit ⟨g, state⟩).graph :=
      (stable_sound g).edits hstart edits
    exact isConsistent_iff.2 ⟨hend.identified, hend.sameEntry.built.indexed⟩
  · intro edits after
    have hend : SameEntry g after := (stable_sameEntry g).edits hbuilt.sameEntry edits
    exact ⟨hend, hend.built.indexed, (indexed_iff.1 hend.built.indexed).1⟩

/-- A description of the entry and of a second function, which has the identity of a
function that was observed under the name of a helper. -/
def describeHelper (label : String) : String :=
  "digraph g \x7b\n\tNode0 [shape=record,label=\"\x7bmain\x7d\"];\n" ++
    "\t\"dyn:helper\" [shape=record,label=\"\x7b" ++ label ++ "\x7d\"];\n\x7d\n"

/-- The graph of such a description. -/
def helperGraph (label : String) : CallGraph :=
  (ofLabels ("Node0", "main") [("dyn:helper", label)]).withCalls []

/-- A description whose second function is the helper itself: nothing gets the graph out
of order. -/
theorem consistent_iff_unambiguous_helper :
    ∃ g, ofDot (describeHelper "helper") "main" = .ok g ∧ g.Unambiguous ∧
      ∀ edits : List Edit, (edits.foldl edit ⟨g, {}⟩).graph.isConsistent = true := by
  have hloaded : (helperGraph "helper").Loaded ("Node0", "main") [("dyn:helper", "helper")] [] :=
    loaded_withCalls (by decide) (by decide) List.nodup_nil (by simp)
  have hparse : DotText.parse (describeHelper "helper") =
      [.node "Node0" (some "\x7bmain\x7d"), .node "dyn:helper" (some "\x7bhelper\x7d")] := by
    decide +kernel
  have hload : ofDot (describeHelper "helper") "main" = .ok (helperGraph "helper") := by
    rw [ofDot, hparse]
    exact hloaded.ofStatements_eq (by decide) (by decide)
  have hunambiguous : (helperGraph "helper").Unambiguous := by
    intro node v name hv hid
    rw [helperGraph, vertex?_withCalls, hloaded.lists.vertex?_eq] at hv
    rcases node with _ | _ | node
    · obtain rfl := Option.some.inj hv
      have hchars := congrArg String.toList (congrArg VertexId.text hid)
      simp [Vertex.labelled, VertexId.dynamic] at hchars
    · obtain rfl := Option.some.inj hv
      exact Or.inl (VertexId.dynamic_injective (a := "helper") hid)
    · simp at hv
  exact ⟨_, hload, hunambiguous, (consistent_iff_unambiguous hload {}).1.2 hunambiguous⟩

/-- A description whose second function is another one: the graph is consistent when it
is loaded, and no longer when the entry was seen to call the helper. -/
theorem inconsistent_after_observe :
    ∃ g, ofDot (describeHelper "parse") "main" = .ok g ∧ g.isConsistent = true ∧
      ((⟨g, {}⟩ : Survey).observe [⟨"main", "helper"⟩]).graph.isConsistent = false := by
  have hloaded : (helperGraph "parse").Loaded ("Node0", "main") [("dyn:helper", "parse")] [] :=
    loaded_withCalls (by decide) (by decide) List.nodup_nil (by simp)
  have hparse : DotText.parse (describeHelper "parse") =
      [.node "Node0" (some "\x7bmain\x7d"), .node "dyn:helper" (some "\x7bparse\x7d")] := by
    decide +kernel
  have hload : ofDot (describeHelper "parse") "main" = .ok (helperGraph "parse") := by
    rw [ofDot, hparse]
    exact hloaded.ofStatements_eq (by decide) (by decide)
  have hbuilt : (helperGraph "parse").Built := built_ofDot hload
  refine ⟨_, hload, isConsistent_iff.2 ⟨hloaded.identified, hbuilt.indexed⟩, ?_⟩
  rw [Bool.eq_false_iff]
  intro hconsistent
  have hnew : (helperGraph "parse").node? "helper" = none :=
    hloaded.lists.node?_eq_none_iff.2 (by decide)
  have hid : (Vertex.labelled ("dyn:helper", "parse")).id = .dynamic "helper" := by decide
  refine not_identified_observe (s := ⟨_, {}⟩) hbuilt (hloaded.lists.vertex?_eq 1) hid hnew ?_
    (isConsistent_iff.1 hconsistent).1
  simp [CallFact.touched]

end Survey

end FuzzCampaign

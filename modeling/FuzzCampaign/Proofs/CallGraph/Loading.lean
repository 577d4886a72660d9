import FuzzCampaign.Proofs.CallGraph.Identities
import Mathlib.Data.List.Induction
import Mathlib.Data.List.Sort

/-!
# Loaded graphs

A description is loaded function by function and then call by call, and nothing is
removed in between.  So functions take the numbers from zero on in the order of their
first labels, the entry in front, and calls take the numbers from zero on in the order
of their edges, without those that occur again.  What is loaded is known, to its tables,
from the list of its labels and the list of its calls.

Main definitions:

- `CallGraph.Lists`: a graph holds the functions of a list of labels and nothing else.
- `CallGraph.withCalls`: a graph with a list of static calls.
- `CallGraph.Loaded`: a graph has the functions of a list of labels and a list of calls.

Main results:

- `CallGraph.exists_lists`: labels load the functions of some of them.
- `CallGraph.exists_withCalls`: edges load a list of calls.
- `CallGraph.exists_loaded`: the form of the graph of a description.
- `CallGraph.Loaded.ofStatements_eq`: a graph of this form is loaded from its own labels
  and calls.
-/

namespace FuzzCampaign

namespace DotText

/-! ## First labels -/

/-- Keep the entry of a node, unless there is one already. -/
def keepFirst (found : List (String × String)) (entry : String × String) :
    List (String × String) :=
  if found.any fun earlier => earlier.1 == entry.1 then found else found ++ [entry]

/-- The first labels, as a fold over all labels. -/
theorem firstLabels_eq (statements : List DotStatement) :
    firstLabels statements = (labels statements).foldl keepFirst [] := rfl

/-- A label of a node that is known already is passed over. -/
theorem keepFirst_of_mem {found : List (String × String)} {entry : String × String}
    (h : entry.1 ∈ found.map (·.1)) : keepFirst found entry = found := by
  obtain ⟨earlier, hmem, heq⟩ := List.mem_map.1 h
  have hany : (found.any fun earlier => earlier.1 == entry.1) = true :=
    List.any_eq_true.2 ⟨earlier, hmem, beq_iff_eq.2 heq⟩
  simp [keepFirst, hany]

/-- A label of a node that is not known is kept. -/
theorem keepFirst_of_not_mem {found : List (String × String)} {entry : String × String}
    (h : entry.1 ∉ found.map (·.1)) : keepFirst found entry = found ++ [entry] := by
  have hany : (found.any fun earlier => earlier.1 == entry.1) = false := by
    rw [List.any_eq_false]
    intro earlier hmem heq
    exact h (List.mem_map.2 ⟨earlier, hmem, beq_iff_eq.1 heq⟩)
  simp [keepFirst, hany]

/-- Each node is entered once, with one of its labels. -/
theorem foldl_keepFirst (entries found : List (String × String))
    (h : (found.map (·.1)).Nodup) :
    ((entries.foldl keepFirst found).map (·.1)).Nodup ∧
      entries.foldl keepFirst found ⊆ found ++ entries := by
  induction entries generalizing found with
  | nil => exact ⟨h, by simp⟩
  | cons entry entries ih =>
    rw [List.foldl_cons]
    by_cases hmem : entry.1 ∈ found.map (·.1)
    · rw [keepFirst_of_mem hmem]
      obtain ⟨hnodup, hsub⟩ := ih found h
      have hmore : found ++ entries ⊆ found ++ entry :: entries :=
        ((List.sublist_cons_self entry entries).append_left found).subset
      exact ⟨hnodup, List.Subset.trans hsub hmore⟩
    · rw [keepFirst_of_not_mem hmem]
      obtain ⟨hnodup, hsub⟩ := ih (found ++ [entry]) (by
        rw [List.map_append, List.nodup_append]
        refine ⟨h, List.nodup_singleton _, ?_⟩
        rintro a ha b hb rfl
        rw [List.map_cons, List.map_nil, List.mem_singleton] at hb
        exact hmem (hb ▸ ha))
      refine ⟨hnodup, ?_⟩
      rwa [List.append_assoc] at hsub

/-- Nothing is left out when every node is labelled once. -/
theorem foldl_keepFirst_of_nodup (entries found : List (String × String))
    (h : ((found ++ entries).map (·.1)).Nodup) :
    entries.foldl keepFirst found = found ++ entries := by
  induction entries generalizing found with
  | nil => simp
  | cons entry entries ih =>
    have hmem : entry.1 ∉ found.map (·.1) := by
      rw [List.map_append, List.nodup_append] at h
      exact fun hmem => h.2.2 _ hmem _ (by simp) rfl
    rw [List.foldl_cons, keepFirst_of_not_mem hmem, ih _ (by simpa using h)]
    simp

/-- Each node has one first label. -/
theorem nodup_firstLabels (statements : List DotStatement) :
    ((firstLabels statements).map (·.1)).Nodup := by
  rw [firstLabels_eq]
  exact (foldl_keepFirst (labels statements) [] List.nodup_nil).1

/-- First labels are labels of the statements. -/
theorem firstLabels_subset (statements : List DotStatement) :
    firstLabels statements ⊆ labels statements := by
  rw [firstLabels_eq]
  exact (foldl_keepFirst (labels statements) [] List.nodup_nil).2

/-- Where no node is labelled twice every label is a first label. -/
theorem firstLabels_eq_self {statements : List DotStatement}
    (h : ((labels statements).map (·.1)).Nodup) :
    firstLabels statements = labels statements := by
  rw [firstLabels_eq]
  exact foldl_keepFirst_of_nodup (labels statements) [] h

/-- An entry of a node that has no other is found. -/
theorem lookup_eq_some {entries : List (String × String)} (h : (entries.map (·.1)).Nodup)
    {node label : String} (hmem : (node, label) ∈ entries) :
    entries.lookup node = some label := by
  obtain ⟨front, back, rfl⟩ := List.append_of_mem hmem
  rw [List.lookup_eq_some_iff]
  refine ⟨front, back, rfl, ?_⟩
  intro earlier hearlier
  rw [List.map_append, List.nodup_append] at h
  rw [bne_iff_ne]
  exact (h.2.2 _ (List.mem_map_of_mem hearlier) node (by simp)).symm

end DotText

/-- The function of a labelled node. -/
def Vertex.labelled (label : String × String) : Vertex := { id := ⟨label.1⟩, name := label.2 }

namespace CallGraph

variable {g : CallGraph} {known : List (String × String)}

/-! ## Loading functions -/

/-- A graph holds the functions of a list of labels in the order of the list, without
calls, and nothing was ever removed from it. -/
structure Lists (g : CallGraph) (known : List (String × String)) : Prop where
  indexed : g.Indexed
  slots_eq : g.slots.toList = known.map fun label => some (.labelled label)
  freeSlots_eq : g.freeSlots = []
  arcs_eq : g.arcs = []
  freeArcs_eq : g.freeArcs = []
  arcBound_eq : g.arcBound = 0
  nodup_names : (known.map (·.2)).Nodup

/-- The functions of a listed graph are the labels of the list, in its order. -/
theorem Lists.vertex?_eq (h : g.Lists known) (node : Nat) :
    g.vertex? node = known[node]?.map Vertex.labelled := by
  rw [vertex?, ← Array.getElem?_toList, h.slots_eq, List.getElem?_map]
  cases known[node]? <;> rfl

/-- Every node of a listed graph stands in the list. -/
theorem Lists.exists_label (h : g.Lists known) {node : Nat} (hnode : g.hasNode node = true) :
    ∃ label ∈ known, g.vertex? node = some (.labelled label) := by
  obtain ⟨v, hv⟩ := hasNode_iff.1 hnode
  have hlabel := hv
  rw [h.vertex?_eq] at hlabel
  obtain ⟨label, hget, rfl⟩ := Option.map_eq_some_iff.1 hlabel
  exact ⟨label, List.mem_of_getElem? hget, hv⟩

/-- A listed graph has as many slots as the list has labels. -/
theorem Lists.size_eq (h : g.Lists known) : g.slots.size = known.length := by
  rw [← Array.length_toList, h.slots_eq, List.length_map]

/-- A graph of its entry alone lists the label of the entry. -/
theorem lists_ofEntry (first : String × String) :
    (ofEntry (.labelled first)).Lists [first] :=
  ⟨indexed_ofEntry _, rfl, rfl, rfl, rfl, rfl, List.nodup_singleton _⟩

/-- A name is unknown if and only if no label has it. -/
theorem Lists.node?_eq_none_iff (h : g.Lists known) {name : String} :
    g.node? name = none ↔ name ∉ known.map (·.2) := by
  rw [Option.eq_none_iff_forall_ne_some, ← not_exists, not_iff_not]
  have hname : ∀ node, g.name? node = known[node]?.map (·.2) := by
    intro node
    rw [name?, h.vertex?_eq, Option.map_map]
    rfl
  rw [List.mem_iff_getElem?]
  exact exists_congr fun node => by rw [h.indexed, hname, List.getElem?_map]

/-- A label that is new is listed behind the others. -/
theorem Lists.insert (h : g.Lists known) (hw : g.WellFormed) {label : String × String}
    (hnew : g.node? label.2 = none) :
    (g.insert (.labelled label)).2.Lists (known ++ [label]) := by
  have hname := h.node?_eq_none_iff.1 hnew
  have hinsert : (g.insert (.labelled label)).2 =
      { g with
        slots := g.slots.push (some (.labelled label))
        byId := g.byId.insert ⟨label.1⟩ g.slots.size
        byName := g.byName.insert label.2 g.slots.size } := by
    rw [node?] at hnew
    simp [CallGraph.insert, CallGraph.allocate, Vertex.labelled, hnew, h.freeSlots_eq]
  have hindexed := h.indexed.insert hw (.labelled label)
  rw [hinsert] at hindexed ⊢
  refine ⟨hindexed, ?_, h.freeSlots_eq, h.arcs_eq, h.freeArcs_eq, h.arcBound_eq, ?_⟩
  · simp [h.slots_eq]
  · rw [List.map_append, List.nodup_append]
    refine ⟨h.nodup_names, List.nodup_singleton _, ?_⟩
    rintro a ha b hb rfl
    rw [List.map_cons, List.map_nil, List.mem_singleton] at hb
    exact hname (hb ▸ ha)

/-- Load the functions of a list of labels. -/
def loadLabels (g : CallGraph) (labels : List (String × String)) : CallGraph :=
  labels.foldl (fun g label => g.insertLabelled label.1 label.2) g

/-- Loading labels keeps a graph built. -/
theorem built_loadLabels (h : g.Built) (labels : List (String × String)) :
    (g.loadLabels labels).Built := by
  induction labels generalizing g with
  | nil => exact h
  | cons label labels ih => exact ih (h.insert _)

/-- Loading labels keeps the entry. -/
@[simp] theorem entry_loadLabels (g : CallGraph) (labels : List (String × String)) :
    (g.loadLabels labels).entry = g.entry := by
  induction labels generalizing g with
  | nil => rfl
  | cons label labels ih => exact (ih _).trans (entry_insert g _)

/-- A label whose name is taken adds nothing. -/
theorem insertLabelled_of_node? {label : String × String} {node : Nat}
    (h : g.node? label.2 = some node) : g.insertLabelled label.1 label.2 = g := by
  rw [node?] at h
  simp [insertLabelled, CallGraph.insert, h]

/-- The graph of the functions of a list of labels, the entry being the first. -/
def ofLabels (first : String × String) (rest : List (String × String)) : CallGraph :=
  (ofEntry (.labelled first)).loadLabels rest

/-- The functions of a list of labels make a built graph. -/
theorem built_ofLabels (first : String × String) (rest : List (String × String)) :
    (ofLabels first rest).Built :=
  built_loadLabels (.ofEntry _) rest

/-- One more label inserts one more function. -/
theorem ofLabels_concat (first : String × String) (rest : List (String × String))
    (label : String × String) :
    ofLabels first (rest ++ [label]) = ((ofLabels first rest).insert (.labelled label)).2 := by
  simp [ofLabels, loadLabels, insertLabelled, Vertex.labelled]

/-- Of the labels that are loaded those stay that are new, and loading these alone comes
to the same. -/
theorem exists_lists {first : String × String} (labels rest : List (String × String))
    (h : (ofLabels first rest).Lists (first :: rest)) :
    ∃ known, known ⊆ rest ++ labels ∧
      (ofLabels first rest).loadLabels labels = ofLabels first known ∧
      (ofLabels first known).Lists (first :: known) := by
  induction labels generalizing rest with
  | nil => exact ⟨rest, by simp, rfl, h⟩
  | cons label labels ih =>
    have hcons : (ofLabels first rest).loadLabels (label :: labels) =
        ((ofLabels first rest).insertLabelled label.1 label.2).loadLabels labels := rfl
    cases hfind : (ofLabels first rest).node? label.2 with
    | some node =>
      obtain ⟨known, hsub, heq, hlists⟩ := ih rest h
      have hmore : rest ++ labels ⊆ rest ++ label :: labels :=
        ((List.sublist_cons_self label labels).append_left rest).subset
      refine ⟨known, List.Subset.trans hsub hmore, ?_, hlists⟩
      rw [hcons, insertLabelled_of_node? hfind, heq]
    | none =>
      have hlists := h.insert (built_ofLabels first rest).wellFormed hfind
      rw [← ofLabels_concat] at hlists
      obtain ⟨known, hsub, heq, hknown⟩ := ih (rest ++ [label]) hlists
      refine ⟨known, by simpa using hsub, ?_, hknown⟩
      rw [hcons, ← heq, ofLabels_concat]
      rfl

/-- Labels that name each function once are all loaded. -/
theorem lists_ofLabels {first : String × String} {rest : List (String × String)}
    (h : ((first :: rest).map (·.2)).Nodup) : (ofLabels first rest).Lists (first :: rest) := by
  induction rest using List.reverseRecOn with
  | nil => exact lists_ofEntry first
  | append_singleton rest label ih =>
    rw [← List.cons_append, List.map_append, List.nodup_append] at h
    have hlists := ih h.1
    have hname : label.2 ∉ (first :: rest).map (·.2) :=
      fun hmem => h.2.2 _ hmem _ (by simp) rfl
    rw [ofLabels_concat, ← List.cons_append]
    exact hlists.insert (built_ofLabels first rest).wellFormed (hlists.node?_eq_none_iff.2 hname)

/-! ## Loading calls -/

/-- Static calls between pairs of functions, numbered in the order of the list. -/
def arcsOf (calls : List (Nat × Nat)) : List Arc :=
  calls.zipIdx.map fun call => ⟨call.2, call.1.1, call.1.2, {}⟩

/-- A graph with a list of static calls; the last one was added last. -/
def withCalls (g : CallGraph) (calls : List (Nat × Nat)) : CallGraph :=
  { g with arcs := (arcsOf calls).reverse, arcBound := calls.length }

/-- Calls change no function. -/
theorem vertex?_withCalls (g : CallGraph) (calls : List (Nat × Nat)) (node : Nat) :
    (g.withCalls calls).vertex? node = g.vertex? node := rfl

/-- Without calls a listed graph is as it was. -/
theorem Lists.withCalls_nil (h : g.Lists known) : g.withCalls [] = g := by
  have harcs := h.arcs_eq
  have hbound := h.arcBound_eq
  cases g
  simp_all [withCalls, arcsOf]

/-- A graph with calls has exactly these calls. -/
theorem hasCall_withCalls (g : CallGraph) (calls : List (Nat × Nat)) (caller callee : Nat) :
    (g.withCalls calls).hasCall caller callee = true ↔ (caller, callee) ∈ calls := by
  rw [hasCall_iff]
  simp only [withCalls, arcsOf, List.mem_reverse, List.mem_map, Prod.exists]
  constructor
  · rintro ⟨arc, ⟨a, b, i, hmem, rfl⟩, rfl, rfl⟩
    exact List.mem_of_getElem? (List.mem_zipIdx_iff_getElem?.1 hmem)
  · intro hmem
    obtain ⟨i, hi⟩ := List.mem_iff_getElem?.1 hmem
    have hzip : ((caller, callee), i) ∈ calls.zipIdx := by
      rw [List.mem_zipIdx_iff_getElem?]
      exact hi
    exact ⟨_, ⟨caller, callee, i, hzip, rfl⟩, rfl, rfl⟩

/-- A call that is known is not added again. -/
theorem addCall_withCalls_of_mem {calls : List (Nat × Nat)} {call : Nat × Nat}
    (h : call ∈ calls) : ((g.withCalls calls).addCall call.1 call.2 {}).2 = g.withCalls calls := by
  simp [addCall, (hasCall_withCalls g calls call.1 call.2).2 h]

/-- A new call takes the next number. -/
theorem addCall_withCalls (hfree : g.freeArcs = []) {calls : List (Nat × Nat)} {call : Nat × Nat}
    (h : call ∉ calls) (hcaller : g.hasNode call.1 = true) (hcallee : g.hasNode call.2 = true) :
    ((g.withCalls calls).addCall call.1 call.2 {}).2 = g.withCalls (calls ++ [call]) := by
  have hnew : (g.withCalls calls).hasCall call.1 call.2 = false := by
    rw [Bool.eq_false_iff, ne_eq, hasCall_withCalls]
    exact h
  have hends : (g.withCalls calls).hasNode call.1 = true ∧
      (g.withCalls calls).hasNode call.2 = true := ⟨hcaller, hcallee⟩
  have hpush : (g.withCalls calls).freeArcs = [] := hfree
  simp only [addCall, hnew, hends, Bool.not_true, Bool.or_false, Bool.false_eq_true, if_false,
    pushArc, hpush]
  simp [withCalls, arcsOf, List.zipIdx_append, hfree]

/-- The ends of an edge, if both its nodes are labelled. -/
def ends? (g : CallGraph) (labels : List (String × String)) (edge : String × String) :
    Option (Nat × Nat) :=
  match (labels.lookup edge.1).bind g.node?, (labels.lookup edge.2).bind g.node? with
  | some caller, some callee => some (caller, callee)
  | _, _ => none

/-- A name of the table leads to a node of the graph. -/
theorem hasNode_of_node? (h : g.Indexed) {name : String} {node : Nat}
    (hnode : g.node? name = some node) : g.hasNode node = true := by
  obtain ⟨v, hv, -⟩ := Option.map_eq_some_iff.1 ((h name node).1 hnode)
  exact hasNode_iff.2 ⟨v, hv⟩

/-- Both ends of an edge that the table knows are nodes of the graph. -/
theorem hasNode_of_ends? (h : g.Indexed) {labels : List (String × String)}
    {edge : String × String} {call : Nat × Nat} (hends : g.ends? labels edge = some call) :
    g.hasNode call.1 = true ∧ g.hasNode call.2 = true := by
  rw [ends?] at hends
  split at hends
  · rename_i caller callee hcaller hcallee
    rw [Option.some.injEq] at hends
    subst hends
    obtain ⟨_, -, hfirst⟩ := Option.bind_eq_some_iff.1 hcaller
    obtain ⟨_, -, hsecond⟩ := Option.bind_eq_some_iff.1 hcallee
    exact ⟨hasNode_of_node? h hfirst, hasNode_of_node? h hsecond⟩
  · exact absurd hends (by simp)

/-- An edge adds the call between its ends, if it has both. -/
theorem addLabelled_withCalls (labels : List (String × String)) (calls : List (Nat × Nat))
    (edge : String × String) :
    addLabelled labels (g.withCalls calls) edge =
      match g.ends? labels edge with
      | some call => ((g.withCalls calls).addCall call.1 call.2 {}).2
      | none => g.withCalls calls := by
  have hnode : (g.withCalls calls).node? = g.node? := rfl
  rw [addLabelled, ends?, hnode]
  split <;> simp_all

/-- Edges load calls: each once, in the order in which they first occur. -/
theorem exists_withCalls (h : g.Lists known) (labels edges : List (String × String))
    (calls : List (Nat × Nat)) (hnodup : calls.Nodup)
    (hends : ∀ call ∈ calls, g.hasNode call.1 = true ∧ g.hasNode call.2 = true) :
    ∃ calls', calls'.Nodup ∧
      (∀ call ∈ calls', g.hasNode call.1 = true ∧ g.hasNode call.2 = true) ∧
      edges.foldl (addLabelled labels) (g.withCalls calls) = g.withCalls calls' := by
  induction edges generalizing calls with
  | nil => exact ⟨calls, hnodup, hends, rfl⟩
  | cons edge edges ih =>
    rw [List.foldl_cons, addLabelled_withCalls]
    cases hedge : g.ends? labels edge with
    | none => exact ih calls hnodup hends
    | some call =>
      by_cases hmem : call ∈ calls
      · simp only [addCall_withCalls_of_mem hmem]
        exact ih calls hnodup hends
      · have hboth := hasNode_of_ends? h.indexed hedge
        simp only [addCall_withCalls h.freeArcs_eq hmem hboth.1 hboth.2]
        refine ih _ ?_ ?_
        · rw [List.nodup_append]
          refine ⟨hnodup, List.nodup_singleton _, ?_⟩
          rintro a ha b hb rfl
          exact hmem (List.mem_singleton.1 hb ▸ ha)
        · intro other hother
          rcases List.mem_append.1 hother with hother | hother
          · exact hends other hother
          · exact (List.mem_singleton.1 hother) ▸ hboth

/-- Edges whose ends are a list of calls load this list. -/
theorem foldl_addLabelled_eq (h : g.Lists known) {labels edges : List (String × String)}
    {calls later : List (Nat × Nat)} (hnodup : (calls ++ later).Nodup)
    (hends : edges.map (g.ends? labels) = later.map some) :
    edges.foldl (addLabelled labels) (g.withCalls calls) = g.withCalls (calls ++ later) := by
  induction edges generalizing calls later with
  | nil =>
    have hnil : later = [] := by simpa using hends.symm
    simp [hnil]
  | cons edge edges ih =>
    cases later with
    | nil => exact absurd hends (by simp)
    | cons call later =>
      rw [List.map_cons, List.map_cons, List.cons.injEq] at hends
      obtain ⟨hedge, hrest⟩ := hends
      have hboth := hasNode_of_ends? h.indexed hedge
      have hmem : call ∉ calls := by
        rw [List.nodup_append] at hnodup
        exact fun hmem => hnodup.2.2 _ hmem _ List.mem_cons_self rfl
      rw [List.foldl_cons, addLabelled_withCalls, hedge]
      simp only [addCall_withCalls h.freeArcs_eq hmem hboth.1 hboth.2]
      rw [ih (by simpa using hnodup) hrest]
      simp

/-! ## Loading a description -/

/-- A graph has the functions of a list of labels, which name each function and each
node once, and a list of calls between these functions. -/
structure Loaded (g : CallGraph) (first : String × String) (rest : List (String × String))
    (calls : List (Nat × Nat)) : Prop where
  eq : g = (ofLabels first rest).withCalls calls
  lists : (ofLabels first rest).Lists (first :: rest)
  nodup_ids : ((first :: rest).map (·.1)).Nodup
  nodup_calls : calls.Nodup
  ends : ∀ call ∈ calls,
    (ofLabels first rest).hasNode call.1 = true ∧ (ofLabels first rest).hasNode call.2 = true

variable {first : String × String} {rest : List (String × String)} {calls : List (Nat × Nat)}

/-- Labels that name each function and each node once, and calls between them, make a
loaded graph. -/
theorem loaded_withCalls (hnames : ((first :: rest).map (·.2)).Nodup)
    (hids : ((first :: rest).map (·.1)).Nodup) (hcalls : calls.Nodup)
    (hends : ∀ call ∈ calls, call.1 ≤ rest.length ∧ call.2 ≤ rest.length) :
    ((ofLabels first rest).withCalls calls).Loaded first rest calls := by
  have hlists := lists_ofLabels hnames
  have hnode : ∀ node, node ≤ rest.length → (ofLabels first rest).hasNode node = true := by
    intro node hnode
    have hlt : node < (first :: rest).length := Nat.lt_succ_of_le hnode
    rw [hasNode, hlists.vertex?_eq, List.getElem?_eq_getElem hlt]
    rfl
  exact ⟨rfl, hlists, hids, hcalls, fun call hcall =>
    (hends call hcall).imp (hnode call.1) (hnode call.2)⟩

/-- The graph of a description has the functions of some first labels, among them the
one that names the entry. -/
theorem exists_loaded {statements : List DotStatement} {entry : String}
    (h : ofStatements statements entry = .ok g) :
    ∃ first rest calls, g.Loaded first rest calls ∧ first.2 = entry ∧
      first :: rest ⊆ DotText.firstLabels statements := by
  rw [ofStatements] at h
  split at h
  · exact absurd h (by simp)
  · rename_i node name hfind
    rw [Except.ok.injEq] at h
    have hname : name = entry := by simpa using List.find?_some hfind
    subst hname
    obtain ⟨rest, hsub, hload, hlists⟩ :=
      exists_lists (DotText.firstLabels statements) [] (lists_ofEntry (node, name))
    have hknown : (node, name) :: rest ⊆ DotText.firstLabels statements :=
      List.cons_subset.2 ⟨List.mem_of_find?_eq_some hfind, hsub⟩
    -- labels that are different in name have different nodes, as all are first labels
    have hids : (((node, name) :: rest).map (·.1)).Nodup := by
      refine List.Nodup.map_on ?_ (List.Nodup.of_map _ hlists.nodup_names)
      intro a ha b hb heq
      exact List.inj_on_of_nodup_map (DotText.nodup_firstLabels statements) (hknown ha)
        (hknown hb) heq
    obtain ⟨calls, hcalls, hends, hedges⟩ :=
      exists_withCalls hlists (DotText.firstLabels statements) (DotText.edges statements) []
        List.nodup_nil (by simp)
    refine ⟨(node, name), rest, calls, ⟨?_, hlists, hids, hcalls, hends⟩, rfl, hknown⟩
    rw [hlists.withCalls_nil, ← hload] at hedges
    rw [← h]
    exact hedges.trans (by rw [hload])

/-- The identity of a function leads back to its number through its label. -/
theorem Loaded.bind_lookup (h : g.Loaded first rest calls) {node : Nat}
    (hnode : (ofLabels first rest).hasNode node = true) :
    ((first :: rest).lookup ((ofLabels first rest).idText node)).bind
      (ofLabels first rest).node? = some node := by
  obtain ⟨label, hlabel, hv⟩ := h.lists.exists_label hnode
  have hid : (ofLabels first rest).idText node = label.1 := by rw [idText, hv]; rfl
  have hlookup : (first :: rest).lookup label.1 = some label.2 :=
    DotText.lookup_eq_some h.nodup_ids hlabel
  have hfind : (ofLabels first rest).node? label.2 = some node := by
    refine (h.lists.indexed _ _).2 ?_
    rw [name?, hv]
    rfl
  rw [hid, hlookup, Option.bind_some, hfind]

/-- What has the labels and the calls of a loaded graph describes this graph. -/
theorem Loaded.ofStatements_eq (h : g.Loaded first rest calls) {statements : List DotStatement}
    (hlabels : DotText.labels statements = first :: rest)
    (hedges : DotText.edges statements =
      calls.map fun call =>
        ((ofLabels first rest).idText call.1, (ofLabels first rest).idText call.2)) :
    ofStatements statements first.2 = .ok g := by
  have hfirst : DotText.firstLabels statements = first :: rest := by
    rw [DotText.firstLabels_eq_self (by rw [hlabels]; exact h.nodup_ids), hlabels]
  have hload : (first :: rest).foldl (fun g label => g.insertLabelled label.1 label.2)
      (ofEntry (.labelled first)) = ofLabels first rest := by
    have hknown : (ofEntry (.labelled first)).node? first.2 = some 0 := by
      simp [node?, ofEntry, Vertex.labelled]
    rw [List.foldl_cons, insertLabelled_of_node? hknown]
    rfl
  have hends : (DotText.edges statements).map ((ofLabels first rest).ends? (first :: rest)) =
      calls.map some := by
    rw [hedges, List.map_map]
    refine List.map_congr_left fun call hcall => ?_
    obtain ⟨hcaller, hcallee⟩ := h.ends call hcall
    simp [ends?, h.bind_lookup hcaller, h.bind_lookup hcallee]
  have hfold : (DotText.edges statements).foldl (addLabelled (first :: rest))
      ((ofLabels first rest).withCalls []) = (ofLabels first rest).withCalls ([] ++ calls) :=
    foldl_addLabelled_eq h.lists h.nodup_calls hends
  rw [h.lists.withCalls_nil, List.nil_append, ← h.eq, ← hload] at hfold
  rw [ofStatements, hfirst, List.find?_cons_of_pos (by simp)]
  exact congrArg Except.ok hfold

end CallGraph

end FuzzCampaign

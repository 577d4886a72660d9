import FuzzCampaign.Proofs.CallGraph.Loading
import FuzzCampaign.Proofs.CallGraph.Refinement
import Mathlib.Data.List.Find

/-!
# Descriptions are folded by their labels

A description labels nodes and joins nodes by edges.  Its graph has the labels for
functions instead: all nodes with one label become one function, which keeps the identity
of the first of them, and all edges between nodes of two labels become one call.  Nodes
without a label are left out with their edges.  It does not matter where in the
description the edges stand, nor where the node of the entry stands.

The graph represents a plain graph, in which loading is a fold over a finite map and a
finite set, so that its functions and calls are known from a lookup law and a membership
law.

Main definitions:

- `DotText.labelOf?`, `DotText.bearer?`, `DotText.describesCall`: how a description is
  read.
- `CallGraph.Folded`: a graph has the functions and calls that a description folds to.

Main results:

- `CallGraph.exists_represents`: the plain graph of a description.
- `CallGraph.ofDot_folded`: every text folds to its graph, or names no entry.
-/

namespace FuzzCampaign

/-! ## Reading a description -/

/-- The statement is about a node, not about an edge. -/
def DotStatement.isNode : DotStatement → Bool
  | .node _ _ => true
  | .edge _ _ => false

namespace DotText

variable {statements : List DotStatement}

/-- The label of a node: the first usable one that a statement gives to it. -/
def labelOf? (statements : List DotStatement) (node : String) : Option String :=
  statements.findSome? fun
    | .node name (some label) => if name = node then cleanLabel? label else none
    | _ => none

/-- The nodes with a label, in the order in which they are labelled first. -/
def labelledNodes (statements : List DotStatement) : List String :=
  (statements.filterMap fun
    | .node name (some label) => (cleanLabel? label).map fun _ => name
    | _ => none).eraseDups

/-- The first of the nodes that carry a label. -/
def bearer? (statements : List DotStatement) (label : String) : Option String :=
  (labelledNodes statements).find? (labelOf? statements · == some label)

/-- An edge leads from a node with one label to a node with another. -/
def describesCall (statements : List DotStatement) (caller callee : String) : Bool :=
  statements.any fun
    | .edge a b => labelOf? statements a == some caller && labelOf? statements b == some callee
    | .node _ _ => false

/-- A node is looked up among the labels as its first label. -/
theorem lookup_labels (node : String) :
    (labels statements).lookup node = labelOf? statements node := by
  unfold labels labelOf?
  induction statements with
  | nil => rfl
  | cons statement statements ih =>
    rw [List.filterMap_cons, List.findSome?_cons]
    rcases statement with ⟨name, _ | label⟩ | ⟨a, b⟩
    · exact ih
    · cases hclean : cleanLabel? label with
      | none => simp [hclean, ih]
      | some clean =>
        by_cases hname : name = node
        · simp [hclean, hname]
        · have hother : (node == name) = false := beq_eq_false_iff_ne.2 (Ne.symm hname)
          simp [hclean, hname, List.lookup_cons, hother, ih]
    · exact ih

/-- What was found first is looked up first. -/
theorem lookup_foldl_keepFirst (entries found : List (String × String)) (node : String) :
    (entries.foldl keepFirst found).lookup node = (found.lookup node).or (entries.lookup node) := by
  induction entries generalizing found with
  | nil => simp
  | cons entry entries ih =>
    rw [List.foldl_cons, ih, List.lookup_cons]
    by_cases hmem : entry.1 ∈ found.map (·.1)
    · rw [keepFirst_of_mem hmem]
      by_cases hnode : node = entry.1
      · subst hnode
        obtain ⟨earlier, hearlier, heq⟩ := List.mem_map.1 hmem
        cases hfound : found.lookup entry.1 with
        | none =>
          have hne := List.lookup_eq_none_iff.1 hfound earlier hearlier
          simp [heq] at hne
        | some label => simp
      · simp [beq_eq_false_iff_ne.2 hnode]
    · rw [keepFirst_of_not_mem hmem, List.lookup_append, Option.or_assoc, List.lookup_cons,
        List.lookup_nil]
      cases node == entry.1 <;> simp

/-- The first label that is kept for a node is its label. -/
theorem lookup_firstLabels (node : String) :
    (firstLabels statements).lookup node = labelOf? statements node := by
  rw [firstLabels_eq, lookup_foldl_keepFirst, lookup_labels]
  simp

/-- The first labels tell each node its label. -/
theorem labelOf?_of_mem_firstLabels {entry : String × String}
    (h : entry ∈ firstLabels statements) : labelOf? statements entry.1 = some entry.2 := by
  rw [← lookup_firstLabels]
  exact lookup_eq_some (nodup_firstLabels statements) h

/-- The nodes of the first labels, each where it occurs first. -/
theorem map_foldl_keepFirst (entries : List (String × String)) :
    (entries.foldl keepFirst []).map (·.1) = (entries.map (·.1)).eraseDups := by
  induction entries using List.reverseRecOn with
  | nil => rfl
  | append_singleton entries entry ih =>
    have hkeys : ∀ name, name ∈ (entries.foldl keepFirst []).map (·.1) ↔
        name ∈ entries.map (·.1) := by
      intro name
      rw [ih, List.mem_eraseDups]
    rw [List.foldl_append, List.foldl_cons, List.foldl_nil, List.map_append,
      List.eraseDups_append, ← ih, List.map_singleton]
    by_cases hmem : entry.1 ∈ entries.map (·.1)
    · rw [keepFirst_of_mem ((hkeys _).2 hmem)]
      simp [List.removeAll, hmem]
    · rw [keepFirst_of_not_mem (fun hin => hmem ((hkeys _).1 hin)), List.map_append]
      simp [List.removeAll, hmem, List.eraseDups_cons]

/-- First labels are kept for the labelled nodes, in their order. -/
theorem map_firstLabels : (firstLabels statements).map (·.1) = labelledNodes statements := by
  rw [firstLabels_eq, map_foldl_keepFirst, labels, labelledNodes, List.map_filterMap]
  congr 2
  funext statement
  rcases statement with ⟨name, _ | label⟩ | ⟨a, b⟩
  · rfl
  · simp [Function.comp_def]
  · rfl

/-- A label is found at the first node that carries it. -/
theorem find?_firstLabels (label : String) :
    (firstLabels statements).find? (·.2 == label) =
      (bearer? statements label).map fun node => (node, label) := by
  have hcongr : (firstLabels statements).find? (·.2 == label) =
      (firstLabels statements).find? fun entry => labelOf? statements entry.1 == some label := by
    refine List.find?_congr ?_
    intro entry hentry
    rw [labelOf?_of_mem_firstLabels hentry]
    rfl
  have hback : ∀ entry ∈ (firstLabels statements).find? (·.2 == label),
      (entry.1, label) = entry := by
    intro entry hentry
    have hlabel : entry.2 = label := by simpa using List.find?_some hentry
    rw [← hlabel]
  rw [bearer?, ← map_firstLabels, List.find?_map, Option.map_map]
  change _ = ((firstLabels statements).find?
    fun entry => labelOf? statements entry.1 == some label).map _
  rw [← hcongr]
  refine Eq.symm ((Option.map_congr hback).trans ?_)
  simp

/-- No node carries a label exactly when none is the first to carry it. -/
theorem bearer?_eq_none_iff {label : String} :
    bearer? statements label = none ↔ ∀ node, labelOf? statements node ≠ some label := by
  rw [bearer?, List.find?_eq_none]
  constructor
  · intro hnone node hnode
    refine hnone node ?_ (by simp [hnode])
    rw [← lookup_firstLabels, List.lookup_eq_some_iff] at hnode
    obtain ⟨front, back, hsplit, -⟩ := hnode
    rw [← map_firstLabels]
    exact List.mem_map.2 ⟨(node, label), by simp [hsplit], rfl⟩
  · intro hnone node _ hnode
    exact hnone node (by simpa using hnode)

/-- The edges lead between nodes with certain labels. -/
theorem describesCall_iff {caller callee : String} :
    describesCall statements caller callee = true ↔ ∃ edge ∈ edges statements,
      labelOf? statements edge.1 = some caller ∧ labelOf? statements edge.2 = some callee := by
  rw [describesCall, List.any_eq_true, edges]
  simp only [List.mem_filterMap]
  constructor
  · rintro ⟨_ | ⟨a, b⟩, hmem, hends⟩
    · exact absurd hends (by simp)
    · rw [Bool.and_eq_true, beq_iff_eq, beq_iff_eq] at hends
      exact ⟨(a, b), ⟨_, hmem, rfl⟩, hends⟩
  · rintro ⟨edge, ⟨_ | ⟨a, b⟩, hmem, hread⟩, hends⟩
    · exact absurd hread (by simp)
    · obtain rfl := Option.some.inj hread
      exact ⟨_, hmem, by simp [hends]⟩

/-- Labels come from statements about nodes. -/
theorem labels_filter : labels (statements.filter (·.isNode)) = labels statements := by
  rw [labels, List.filterMap_filter]
  refine List.filterMap_congr fun statement _ => ?_
  cases statement <;> rfl

/-- Edges come from statements about edges. -/
theorem edges_filter : edges (statements.filter (!·.isNode)) = edges statements := by
  rw [edges, List.filterMap_filter]
  refine List.filterMap_congr fun statement _ => ?_
  cases statement <;> rfl

end DotText

/-! ## Loading a plain graph -/

namespace PlainGraph

variable {m : PlainGraph} {labels : List (String × String)}

/-- A function that is inserted is found, unless its name was taken. -/
theorem lookup_insert (v : Vertex) (name : String) :
    (m.insert v).functions.lookup name =
      (m.functions.lookup name).or (if v.name = name then some v else none) := by
  unfold insert
  by_cases hmem : v.name ∈ m.functions
  · rw [if_pos hmem]
    by_cases hname : v.name = name
    · obtain ⟨w, hw⟩ := Finmap.mem_iff.1 hmem
      rw [← hname, hw]
      rfl
    · rw [if_neg hname, Option.or_none]
  · rw [if_neg hmem]
    by_cases hname : v.name = name
    · subst hname
      rw [Finmap.lookup_insert, Finmap.lookup_eq_none.2 hmem, if_pos rfl]
      rfl
    · rw [Finmap.lookup_insert_of_ne _ (Ne.symm hname), if_neg hname, Option.or_none]

/-- Enter the functions of a list of labels. -/
def loadLabels (m : PlainGraph) (labels : List (String × String)) : PlainGraph :=
  labels.foldl (fun m label => m.insert (.labelled label)) m

/-- A name that is new is given to the first function that is loaded for it. -/
theorem lookup_loadLabels (name : String) :
    (m.loadLabels labels).functions.lookup name =
      (m.functions.lookup name).or ((labels.find? (·.2 == name)).map .labelled) := by
  induction labels generalizing m with
  | nil => simp [loadLabels]
  | cons label labels ih =>
    rw [loadLabels, List.foldl_cons, ← loadLabels, ih, lookup_insert, Option.or_assoc,
      List.find?_cons]
    by_cases hname : label.2 = name
    · simp [Vertex.labelled, hname]
    · simp [Vertex.labelled, hname, beq_eq_false_iff_ne.2 hname]

@[simp] theorem entry_insert (v : Vertex) : (m.insert v).entry = m.entry := by
  unfold insert
  split <;> rfl

@[simp] theorem entry_loadLabels : (m.loadLabels labels).entry = m.entry := by
  induction labels generalizing m with
  | nil => rfl
  | cons label labels ih => exact (ih (m := m.insert (.labelled label))).trans (entry_insert _)

@[simp] theorem calls_insert (v : Vertex) : (m.insert v).calls = m.calls := by
  unfold insert
  split <;> rfl

@[simp] theorem calls_loadLabels : (m.loadLabels labels).calls = m.calls := by
  induction labels generalizing m with
  | nil => rfl
  | cons label labels ih => exact (ih (m := m.insert (.labelled label))).trans (calls_insert _)

/-- Enter a static call between the functions of two labelled nodes. -/
def addLabelled (labels : List (String × String)) (m : PlainGraph) (edge : String × String) :
    PlainGraph :=
  match labels.lookup edge.1, labels.lookup edge.2 with
  | some caller, some callee => m.addCall caller callee {}
  | _, _ => m

@[simp] theorem functions_addCall (caller callee : String) (call : Call) :
    (m.addCall caller callee call).functions = m.functions := by
  unfold addCall
  split <;> rfl

@[simp] theorem entry_addCall (caller callee : String) (call : Call) :
    (m.addCall caller callee call).entry = m.entry := by
  unfold addCall
  split <;> rfl

@[simp] theorem functions_addLabelled (edge : String × String) :
    (m.addLabelled labels edge).functions = m.functions := by
  unfold addLabelled
  split <;> simp

@[simp] theorem entry_addLabelled (edge : String × String) :
    (m.addLabelled labels edge).entry = m.entry := by
  unfold addLabelled
  split <;> simp

/-- Edges leave the functions and the entry as they are. -/
theorem foldl_addLabelled_frame (edges : List (String × String)) :
    (edges.foldl (addLabelled labels) m).functions = m.functions ∧
      (edges.foldl (addLabelled labels) m).entry = m.entry := by
  induction edges generalizing m with
  | nil => exact ⟨rfl, rfl⟩
  | cons edge edges ih => simpa using ih (m := m.addLabelled labels edge)

/-- Where all calls are alike, a call that is added twice is there once. -/
theorem mem_calls_addCall {caller callee : String} {call : Call}
    (halike : ∀ c ∈ m.calls, c.call = call) (hcaller : caller ∈ m.functions)
    (hcallee : callee ∈ m.functions) (c : NamedCall) :
    c ∈ (m.addCall caller callee call).calls ↔ c ∈ m.calls ∨ c = ⟨caller, callee, call⟩ := by
  unfold addCall
  by_cases hknown : m.HasCall caller callee
  · rw [if_pos (Or.inl hknown)]
    obtain ⟨d, hd, rfl, rfl⟩ := hknown
    refine (or_iff_left_of_imp ?_).symm
    rintro rfl
    rw [← halike d hd]
    exact hd
  · rw [if_neg (by simp [hknown, hcaller, hcallee]), Finset.mem_insert, or_comm]

/-- The calls that edges load, where every label is one of a function. -/
theorem mem_calls_foldl_addLabelled {edges : List (String × String)}
    (hstatic : ∀ c ∈ m.calls, c.call = {})
    (hlabels : ∀ node label, labels.lookup node = some label → label ∈ m.functions)
    (c : NamedCall) :
    c ∈ (edges.foldl (addLabelled labels) m).calls ↔ c ∈ m.calls ∨ c.call = {} ∧
      ∃ edge ∈ edges, labels.lookup edge.1 = some c.caller ∧
        labels.lookup edge.2 = some c.callee := by
  induction edges generalizing m with
  | nil => simp
  | cons edge edges ih =>
    have hstep : ∀ d, d ∈ (m.addLabelled labels edge).calls ↔ d ∈ m.calls ∨ d.call = {} ∧
        labels.lookup edge.1 = some d.caller ∧ labels.lookup edge.2 = some d.callee := by
      intro d
      cases hcaller : labels.lookup edge.1 with
      | none => simp [addLabelled, hcaller]
      | some caller =>
        cases hcallee : labels.lookup edge.2 with
        | none => simp [addLabelled, hcaller, hcallee]
        | some callee =>
          simp only [addLabelled, hcaller, hcallee]
          rw [mem_calls_addCall hstatic (hlabels _ _ hcaller) (hlabels _ _ hcallee)]
          cases d
          simp [and_comm, and_assoc, eq_comm]
    rw [List.foldl_cons, ih, hstep, List.exists_mem_cons_iff, and_or_left, or_assoc]
    · intro d hd
      rcases (hstep d).1 hd with hold | hnew
      · exact hstatic d hold
      · exact hnew.1
    · simpa using hlabels

end PlainGraph

namespace CallGraph

variable {g : CallGraph} {m : PlainGraph}

/-- Loading labels loads them in the plain graph, where no two of them are of one node. -/
theorem Represents.loadLabels (h : Represents g m) {all labels : List (String × String)}
    (hnodes : (all.map (·.1)).Nodup) (hlabels : labels ⊆ all)
    (hheld : ∀ node v, g.vertex? node = some v → ∃ label ∈ all, v = .labelled label) :
    Represents (g.loadLabels labels) (m.loadLabels labels) := by
  induction labels generalizing g m with
  | nil => exact h
  | cons label labels ih =>
    have hlabel : label ∈ all := hlabels List.mem_cons_self
    have hinsert : Represents (g.insert (.labelled label)).2 (m.insert (.labelled label)) := by
      refine h.insert ?_
      intro node w hw hid
      obtain ⟨other, hother, rfl⟩ := hheld node w hw
      have hsame : other = label :=
        List.inj_on_of_nodup_map hnodes hother hlabel (congrArg VertexId.text hid)
      rw [hsame]
    refine ih hinsert (List.Subset.trans (List.subset_cons_self _ _) hlabels) ?_
    intro node v hv
    rcases h.wellFormed.eq_of_vertex?_insert hv with hold | rfl
    · exact hheld node v hold
    · exact ⟨label, hlabel, rfl⟩

/-- An edge between labelled nodes adds a call in both graphs. -/
theorem Represents.addLabelled (h : Represents g m) {labels : List (String × String)}
    (hlabels : ∀ node label, labels.lookup node = some label → label ∈ m.functions)
    (edge : String × String) :
    Represents (g.addLabelled labels edge) (m.addLabelled labels edge) := by
  unfold CallGraph.addLabelled PlainGraph.addLabelled
  cases hcaller : labels.lookup edge.1 with
  | none => exact h
  | some caller =>
    cases hcallee : labels.lookup edge.2 with
    | none => simpa using h
    | some callee =>
      obtain ⟨a, ha⟩ := h.mem_functions_iff.1 (hlabels _ _ hcaller)
      obtain ⟨b, hb⟩ := h.mem_functions_iff.1 (hlabels _ _ hcallee)
      have hadd := h.addCall a b {}
      rw [(h.indexed _ _).1 ha, (h.indexed _ _).1 hb] at hadd
      simpa [ha, hb] using hadd

/-- Edges between labelled nodes add calls in both graphs. -/
theorem Represents.foldl_addLabelled (h : Represents g m) {labels edges : List (String × String)}
    (hlabels : ∀ node label, labels.lookup node = some label → label ∈ m.functions) :
    Represents (edges.foldl (CallGraph.addLabelled labels) g)
      (edges.foldl (PlainGraph.addLabelled labels) m) := by
  induction edges generalizing g m with
  | nil => exact h
  | cons edge edges ih => exact ih (h.addLabelled hlabels edge) (by simpa using hlabels)

/-- The labels of a description are loaded after its entry, which has the first label of
its name, so that each name is given to the first node that carries it. -/
theorem lookup_loadLabels_firstLabels {statements : List DotStatement} {node entry : String}
    (hfind : (DotText.firstLabels statements).find? (·.2 == entry) = some (node, entry))
    (name : String) :
    ((PlainGraph.ofEntry (.labelled (node, entry))).loadLabels
        (DotText.firstLabels statements)).functions.lookup name =
      (DotText.bearer? statements name).map fun node => .labelled (node, name) := by
  rw [PlainGraph.lookup_loadLabels, DotText.find?_firstLabels, Option.map_map]
  by_cases hname : name = entry
  · subst hname
    rw [DotText.find?_firstLabels] at hfind
    obtain ⟨bearer, hbearer, heq⟩ := Option.map_eq_some_iff.1 hfind
    obtain rfl := congrArg Prod.fst heq
    rw [hbearer]
    exact congrArg (Option.or · _) Finmap.lookup_singleton_eq
  · have hnone : (PlainGraph.ofEntry (.labelled (node, entry))).functions.lookup name = none :=
      Finmap.lookup_eq_none.2 fun hin => hname ((Finmap.mem_singleton _ _ _).1 hin)
    rw [hnone, Option.none_or]
    rfl

/-- A description that names the entry loads a plain graph: its functions are the labels,
each with the first node that carries it, and its calls lead between labels that some
edge joins. -/
theorem exists_represents {statements : List DotStatement} {entry : String}
    (h : ofStatements statements entry = .ok g) :
    ∃ m, Represents g m ∧ m.entry = entry ∧
      (∀ name, m.functions.lookup name =
        (DotText.bearer? statements name).map fun node => .labelled (node, name)) ∧
      ∀ c, c ∈ m.calls ↔
        c.call = {} ∧ DotText.describesCall statements c.caller c.callee = true := by
  rw [ofStatements] at h
  split at h
  · exact absurd h (by simp)
  · rename_i node name hfind
    rw [Except.ok.injEq] at h
    have hname : name = entry := by simpa using List.find?_some hfind
    subst hname
    have hheld : ∀ number v, (ofEntry (.labelled (node, name))).vertex? number = some v →
        ∃ label ∈ DotText.firstLabels statements, v = .labelled label := by
      intro number v hv
      refine ⟨(node, name), List.mem_of_find?_eq_some hfind, ?_⟩
      cases number with
      | zero => exact (Option.some.inj hv).symm
      | succ number => simp [ofEntry, vertex?] at hv
    have hload := (represents_ofEntry (.labelled (node, name))).loadLabels
      (DotText.nodup_firstLabels statements) (List.Subset.refl _) hheld
    have hlookup := lookup_loadLabels_firstLabels hfind
    generalize hm : (PlainGraph.ofEntry (.labelled (node, name))).loadLabels
      (DotText.firstLabels statements) = m at hload hlookup
    have hcalls : m.calls = ∅ := by rw [← hm, PlainGraph.calls_loadLabels]; rfl
    have hentry : m.entry = name := by rw [← hm, PlainGraph.entry_loadLabels]; rfl
    have hlabels : ∀ node label, (DotText.firstLabels statements).lookup node = some label →
        label ∈ m.functions := by
      intro node label hnode
      rw [DotText.lookup_firstLabels] at hnode
      obtain ⟨bearer, hbearer⟩ : ∃ bearer, DotText.bearer? statements label = some bearer := by
        rw [← Option.ne_none_iff_exists']
        exact fun hnone => DotText.bearer?_eq_none_iff.1 hnone node hnode
      rw [Finmap.mem_iff, hlookup, hbearer]
      exact ⟨_, rfl⟩
    refine ⟨_, h ▸ hload.foldl_addLabelled hlabels, ?_, ?_, ?_⟩
    · rw [(PlainGraph.foldl_addLabelled_frame _).2, hentry]
    · intro label
      rw [(PlainGraph.foldl_addLabelled_frame _).1, hlookup]
    · intro c
      rw [PlainGraph.mem_calls_foldl_addLabelled (by simp [hcalls]) hlabels, hcalls,
        DotText.describesCall_iff]
      simp [DotText.lookup_firstLabels]

/-! ## Folded graphs -/

/-- The functions of a name. -/
def functionsNamed (g : CallGraph) (name : String) : List Vertex :=
  (g.vertices.filter (·.2.name == name)).map (·.2)

/-- The calls between functions of two names. -/
def callsBetween (g : CallGraph) (caller callee : String) : List Call :=
  (g.arcs.filter fun arc =>
    g.name? arc.caller == some caller && g.name? arc.callee == some callee).map (·.call)

/-- A graph has one function for each label of a description, with the first node that
carries it, one static call between two labels that an edge joins, and nothing else. -/
structure Folded (statements : List DotStatement) (entry : String) (g : CallGraph) : Prop where
  wellFormed : g.WellFormed
  entry_name : g.name? g.entry = some entry
  functions : ∀ name, g.functionsNamed name =
    ((DotText.bearer? statements name).map fun node => Vertex.labelled (node, name)).toList
  calls : ∀ caller callee, g.callsBetween caller callee =
    if DotText.describesCall statements caller callee then [{}] else []

/-- Where an item is the only one of its kind, it is all that there is of this kind. -/
theorem filter_eq_toList_find? {α : Type} {items : List α} {p : α → Bool} (hnodup : items.Nodup)
    (h : ∀ a ∈ items, ∀ b ∈ items, p a = true → p b = true → a = b) :
    items.filter p = (items.find? p).toList := by
  induction items with
  | nil => rfl
  | cons a items ih =>
    obtain ⟨hnot, hrest⟩ := List.nodup_cons.1 hnodup
    by_cases ha : p a = true
    · have hnone : items.filter p = [] := by
        rw [List.filter_eq_nil_iff]
        intro b hb hpb
        rw [h a List.mem_cons_self b (List.mem_cons_of_mem _ hb) ha hpb] at hnot
        exact hnot hb
      rw [List.filter_cons_of_pos ha, hnone, List.find?_cons_of_pos ha]
      rfl
    · rw [List.filter_cons_of_neg ha, List.find?_cons_of_neg ha]
      exact ih hrest fun b hb c hc =>
        h b (List.mem_cons_of_mem _ hb) c (List.mem_cons_of_mem _ hc)

/-- The functions of a name are the one that the plain graph has under it. -/
theorem Represents.functionsNamed_eq (h : Represents g m) (name : String) :
    g.functionsNamed name = (m.functions.lookup name).toList := by
  have hunique : ∀ a ∈ g.vertices, ∀ b ∈ g.vertices,
      (a.2.name == name) = true → (b.2.name == name) = true → a = b := by
    rintro ⟨a, v⟩ ha ⟨b, w⟩ hb hv hw
    have hva := mem_vertices.1 ha
    have hwb := mem_vertices.1 hb
    obtain rfl : a = b := h.indexed.name_unique
      (name?_eq_some_iff.2 ⟨v, hva, beq_iff_eq.1 hv⟩)
      (name?_eq_some_iff.2 ⟨w, hwb, beq_iff_eq.1 hw⟩)
    rw [Option.some.inj (hva.symm.trans hwb)]
  have hfind : (g.vertices.find? (·.2.name == name)).map (·.2) = m.functions.lookup name := by
    ext v
    rw [Option.map_eq_some_iff, h.functions]
    simp only [find?_eq_some_iff_of_unique hunique, Prod.exists, mem_vertices, beq_iff_eq]
    constructor
    · rintro ⟨node, w, ⟨hw, hname⟩, rfl⟩
      exact ⟨hname, node, hw⟩
    · rintro ⟨hname, node, hv⟩
      exact ⟨node, v, ⟨hv, hname⟩, rfl⟩
  rw [functionsNamed, filter_eq_toList_find? g.nodup_vertices hunique, ← hfind]
  cases g.vertices.find? (·.2.name == name) <;> rfl

/-- Between two names there is at most one call, and it is one of the plain graph. -/
theorem Represents.callsBetween_eq (h : Represents g m) (caller callee : String) :
    ∃ found : Option Call, g.callsBetween caller callee = found.toList ∧
      ∀ call, found = some call ↔ ⟨caller, callee, call⟩ ∈ m.calls := by
  have hunique : ∀ a ∈ g.arcs, ∀ b ∈ g.arcs,
      (g.name? a.caller == some caller && g.name? a.callee == some callee) = true →
      (g.name? b.caller == some caller && g.name? b.callee == some callee) = true → a = b := by
    intro a ha b hb hnames hnames'
    simp only [Bool.and_eq_true, beq_iff_eq] at hnames hnames'
    exact h.arc_unique ha hb (hnames.1.trans hnames'.1.symm) (hnames.2.trans hnames'.2.symm)
  refine ⟨(g.arcs.find? fun arc =>
    g.name? arc.caller == some caller && g.name? arc.callee == some callee).map (·.call), ?_, ?_⟩
  · rw [callsBetween, filter_eq_toList_find? h.nodup_arcs hunique]
    cases g.arcs.find? _ <;> rfl
  · intro call
    rw [Option.map_eq_some_iff, h.calls]
    simp only [find?_eq_some_iff_of_unique hunique, reading_eq_iff, Bool.and_eq_true, beq_iff_eq]
    constructor
    · rintro ⟨arc, ⟨harc, hnames⟩, hcall⟩
      exact ⟨arc, harc, hnames.1, hnames.2, hcall⟩
    · rintro ⟨arc, harc, hcaller, hcallee, hcall⟩
      exact ⟨arc, ⟨harc, hcaller, hcallee⟩, hcall⟩

/-- The graph of a description is folded. -/
theorem folded_ofStatements {statements : List DotStatement} {entry : String}
    (h : ofStatements statements entry = .ok g) : g.Folded statements entry := by
  obtain ⟨m, hm, hentry, hfunctions, hcalls⟩ := exists_represents h
  refine ⟨hm.wellFormed, by rw [hm.entry, hentry], ?_, ?_⟩
  · intro name
    rw [hm.functionsNamed_eq, hfunctions]
  · intro caller callee
    obtain ⟨found, hfound, hmem⟩ := hm.callsBetween_eq caller callee
    rw [hfound]
    by_cases hdescribes : DotText.describesCall statements caller callee = true
    · rw [if_pos hdescribes, (hmem {}).2 ((hcalls _).2 ⟨rfl, hdescribes⟩)]
      rfl
    · rw [if_neg hdescribes]
      cases found with
      | none => rfl
      | some call => exact absurd ((hcalls _).1 ((hmem call).1 rfl)).2 hdescribes

/-- A description has no graph when no node is labelled with the name of the entry. -/
theorem ofStatements_eq_error_iff {statements : List DotStatement} {entry : String}
    {e : GraphError} :
    ofStatements statements entry = .error e ↔
      e = .noEntry entry ∧ ∀ node, DotText.labelOf? statements node ≠ some entry := by
  rw [ofStatements, ← DotText.bearer?_eq_none_iff, DotText.find?_firstLabels]
  cases DotText.bearer? statements entry with
  | none => simp [eq_comm]
  | some found => simp

/-- What matters of a description are its statements about nodes, in order, and its edges,
in order. -/
theorem ofStatements_congr {statements others : List DotStatement}
    (hnodes : others.filter (·.isNode) = statements.filter (·.isNode))
    (hedges : others.filter (!·.isNode) = statements.filter (!·.isNode)) (entry : String) :
    ofStatements others entry = ofStatements statements entry := by
  have hlabels : DotText.labels others = DotText.labels statements := by
    rw [← DotText.labels_filter, hnodes, DotText.labels_filter]
  have hends : DotText.edges others = DotText.edges statements := by
    rw [← DotText.edges_filter, hedges, DotText.edges_filter]
  simp only [ofStatements, DotText.firstLabels, hlabels, hends]

/-- A text has no graph exactly when none of its nodes is labelled with the name of the
entry.  Otherwise its graph is what its statements fold to, and it does not matter how
statements about nodes and edges are interleaved. -/
theorem ofDot_folded (text entry : String) :
    (∀ e, ofDot text entry = .error e ↔
      e = .noEntry entry ∧ ∀ node, DotText.labelOf? (DotText.parse text) node ≠ some entry) ∧
    (∀ g, ofDot text entry = .ok g → g.Folded (DotText.parse text) entry) ∧
    ∀ other, (DotText.parse other).filter (·.isNode) = (DotText.parse text).filter (·.isNode) →
      (DotText.parse other).filter (!·.isNode) = (DotText.parse text).filter (!·.isNode) →
      ofDot other entry = ofDot text entry :=
  ⟨fun _ => ofStatements_eq_error_iff, fun _ h => folded_ofStatements h,
    fun _ hnodes hedges => ofStatements_congr hnodes hedges entry⟩

/-- A description that joins its nodes before it labels them, labels two of them alike,
and leaves one without a label. -/
def twoHelpers : String :=
  "digraph g \x7b\n\tNode3 -> Node1;\n\tNode2 [label=\"\x7bhelper\x7d\"];\n" ++
    "\tNode1 [label=\"\x7bmain\x7d\"];\n\tNode1 -> Node2;\n\tNode1 -> Node3;\n" ++
    "\tNode3 [label=\"\x7bhelper\x7d\"];\n\tNode1 -> Node4;\n\tNode4 [shape=record];\n\x7d\n"

/-- The statements of the description, in the order of its lines. -/
theorem parse_twoHelpers : DotText.parse twoHelpers =
    [.edge "Node3" "Node1", .node "Node2" (some "\x7bhelper\x7d"),
      .node "Node1" (some "\x7bmain\x7d"), .edge "Node1" "Node2", .edge "Node1" "Node3",
      .node "Node3" (some "\x7bhelper\x7d"), .edge "Node1" "Node4", .node "Node4" none] := by
  decide +kernel

/-- Both helpers become one function, with one call in each direction. -/
theorem ofDot_folded_twoHelpers :
    ∃ g, ofDot twoHelpers "main" = .ok g ∧ g.Folded (DotText.parse twoHelpers) "main" ∧
      g.functionsNamed "helper" = [.labelled ("Node2", "helper")] ∧
      g.callsBetween "main" "helper" = [{}] ∧ g.callsBetween "helper" "main" = [{}] ∧
      g.callsBetween "main" "main" = [] := by
  obtain ⟨herror, hfolded, -⟩ := ofDot_folded twoHelpers "main"
  have hlabel : DotText.labelOf? (DotText.parse twoHelpers) "Node1" = some "main" := by
    rw [parse_twoHelpers]
    decide +kernel
  have hbearer : DotText.bearer? (DotText.parse twoHelpers) "helper" = some "Node2" := by
    rw [parse_twoHelpers]
    decide +kernel
  have hthere : DotText.describesCall (DotText.parse twoHelpers) "main" "helper" = true := by
    rw [parse_twoHelpers]
    decide +kernel
  have hback : DotText.describesCall (DotText.parse twoHelpers) "helper" "main" = true := by
    rw [parse_twoHelpers]
    decide +kernel
  have hself : DotText.describesCall (DotText.parse twoHelpers) "main" "main" = false := by
    rw [parse_twoHelpers]
    decide +kernel
  cases hload : ofDot twoHelpers "main" with
  | error e => exact absurd hlabel (((herror e).1 hload).2 "Node1")
  | ok g =>
    have hg := hfolded g hload
    refine ⟨g, rfl, hg, ?_, ?_, ?_, ?_⟩
    · rw [hg.functions, hbearer]
      rfl
    · rw [hg.calls, if_pos hthere]
    · rw [hg.calls, if_pos hback]
    · rw [hg.calls, hself]
      rfl

end CallGraph

end FuzzCampaign

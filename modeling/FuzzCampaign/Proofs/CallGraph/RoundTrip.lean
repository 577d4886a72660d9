import FuzzCampaign.Proofs.CallGraph.Loading
import FuzzCampaign.Proofs.CallGraph.Statements

/-!
# A written graph is read back

A loaded graph is written with a line for each function, in the order of their numbers,
and a line for each call, in the order of theirs.  Each line is read back as it was
meant, whatever brackets, quotes, blanks or arrows the description had in its nodes and
labels, since nodes and labels that were read can be written.  So loading the written
form gives the graph again, with all numbers and tables.

Main definitions:

- `DotText.describe`: the lines of functions and calls.

Main results:

- `DotText.parse_describe`: such lines describe just these functions and calls.
- `CallGraph.Loaded.toList_toDot`: the lines of a loaded graph.
- `CallGraph.ofDot_toDot`: the written form of a loaded graph loads this graph.
-/

namespace FuzzCampaign

namespace DotText

/-! ## Lines of functions and calls -/

/-- The first line of a written graph. -/
def firstLine : List Char := "digraph \"callgraph\" \x7b".toList

/-- The last line of a written graph. -/
def lastLine : List Char := ['\x7d']

/-- The lines of functions and calls. -/
def describe (labels edges : List (String × String)) : List (List Char) :=
  firstLine :: (labels.map (fun label => nodeLine label.1.toList label.2.toList) ++
    (edges.map (fun edge => edgeLine edge.1.toList edge.2.toList) ++ [lastLine]))

/-- What functions and calls are described by. -/
structure Readable (labels edges : List (String × String)) : Prop where
  label : ∀ label ∈ labels, Identifier label.1.toList ∧ Title label.2.toList
  edge : ∀ edge ∈ edges, Identifier edge.1.toList ∧ Identifier edge.2.toList

/-- The statements that say the same. -/
def statementsOf (labels edges : List (String × String)) : List DotStatement :=
  labels.map (fun label => .node label.1 (some (String.ofList (inBraces label.2.toList)))) ++
    edges.map fun edge => .edge edge.1 edge.2

variable {labels edges : List (String × String)}

theorem labels_statementsOf (h : Readable labels edges) :
    DotText.labels (statementsOf labels edges) = labels := by
  have hnone : DotText.labels (edges.map fun edge => .edge edge.1 edge.2) = [] := by
    rw [DotText.labels, List.filterMap_map, List.filterMap_eq_nil_iff]
    intro edge _
    rfl
  have hsome : DotText.labels (labels.map fun label =>
      .node label.1 (some (String.ofList (inBraces label.2.toList)))) = labels := by
    rw [DotText.labels, List.filterMap_map]
    conv_rhs => rw [← List.filterMap_some (l := labels)]
    refine List.filterMap_congr ?_
    intro label hlabel
    simp [(h.label label hlabel).2.cleanLabel?_inBraces]
  rw [DotText.labels] at hnone hsome ⊢
  rw [statementsOf, List.filterMap_append, hnone, hsome, List.append_nil]

theorem edges_statementsOf (labels edges : List (String × String)) :
    DotText.edges (statementsOf labels edges) = edges := by
  have hnone : DotText.edges (labels.map fun label =>
      .node label.1 (some (String.ofList (inBraces label.2.toList)))) = [] := by
    rw [DotText.edges, List.filterMap_map, List.filterMap_eq_nil_iff]
    intro label _
    rfl
  have hsome : DotText.edges (edges.map fun edge => .edge edge.1 edge.2) = edges := by
    rw [DotText.edges, List.filterMap_map]
    exact List.filterMap_some
  rw [DotText.edges] at hnone hsome ⊢
  rw [statementsOf, List.filterMap_append, hnone, hsome, List.nil_append]

/-- Lines of functions and calls are read as statements that say the same. -/
theorem filterMap_describe (h : Readable labels edges) :
    (describe labels edges).filterMap statement? = statementsOf labels edges := by
  have hopen : statement? firstLine = none := by decide
  have hclose : statement? lastLine = none := by decide
  have hlabels : (labels.map fun label => nodeLine label.1.toList label.2.toList).filterMap
      statement? = labels.map fun label =>
        .node label.1 (some (String.ofList (inBraces label.2.toList))) := by
    rw [List.filterMap_map, ← List.filterMap_eq_map]
    refine List.filterMap_congr ?_
    intro label hlabel
    obtain ⟨hid, hname⟩ := h.label label hlabel
    simp [statement?_nodeLine hid hname]
  have hedges : (edges.map fun edge => edgeLine edge.1.toList edge.2.toList).filterMap
      statement? = edges.map fun edge => .edge edge.1 edge.2 := by
    rw [List.filterMap_map, ← List.filterMap_eq_map]
    refine List.filterMap_congr ?_
    intro edge hedge
    obtain ⟨hcaller, hcallee⟩ := h.edge edge hedge
    simp [statement?_edgeLine hcaller hcallee]
  rw [describe, List.filterMap_cons_none hopen, List.filterMap_append, List.filterMap_append,
    hlabels, hedges, List.filterMap_cons_none hclose, List.filterMap_nil, List.append_nil,
    statementsOf]

/-- A text of these lines is read line by line. -/
theorem parse_describe (h : Readable labels edges) {text : String}
    (htext : text.toList = (describe labels edges).flatMap (· ++ ['\n'])) :
    parse text = statementsOf labels edges := by
  have hline : ∀ line ∈ describe labels edges, '\n' ∉ line ∧ line.getLast? ≠ some '\r' := by
    intro line hmem
    rw [describe, List.mem_cons, List.mem_append, List.mem_append, List.mem_map, List.mem_map,
      List.mem_singleton] at hmem
    rcases hmem with rfl | ⟨label, hlabel, rfl⟩ | ⟨edge, hedge, rfl⟩ | rfl
    · decide
    · obtain ⟨hid, hname⟩ := h.label label hlabel
      exact ⟨feed_not_mem_nodeLine hid hname, by rw [getLast?_nodeLine]; decide⟩
    · obtain ⟨hcaller, hcallee⟩ := h.edge edge hedge
      exact ⟨feed_not_mem_edgeLine hcaller hcallee, by rw [getLast?_edgeLine]; decide⟩
    · decide
  rw [parse, Text.lines_flatMap htext (fun line hmem => (hline line hmem).1)
    (fun line hmem => (hline line hmem).2), filterMap_describe h]

/-! ## The lines of a graph -/

theorem toList_quoted (text : String) : (quoted text).toList = inQuotes text.toList := by
  simp [quoted, inQuotes]

/-- The function of a label is written on a line of its own. -/
theorem toList_vertexLine {label : String × String} (h : Title label.2.toList) :
    (vertexLine (.labelled label)).toList = nodeLine label.1.toList label.2.toList ++ ['\n'] := by
  have hescape : (escape (label.2 ++ "")).toList = label.2.toList := by
    rw [escape, String.toList_ofList, String.append_empty]
    have hquote : ∀ c ∈ label.2.toList, (if c = '"' then ['\\', '"'] else [c]) = [c] := by
      intro c hc
      rw [if_neg]
      rintro rfl
      exact h.quote hc
    rw [List.flatMap_congr hquote, List.flatMap_singleton']
  have hopen : " [shape=record,label=\"\x7b".toList =
      ' ' :: '[' :: ("shape=record,".toList ++ ("label=".toList ++ ['"', '\x7b'])) := by decide
  have hclose : "\x7d\"".toList = ['\x7d', '"'] := by decide
  have hend : "];\n".toList = [']', ';', '\n'] := by decide
  have hline : vertexLine (.labelled label) = "\t" ++ quoted label.1 ++
      " [shape=record,label=\"\x7b" ++ escape (label.2 ++ "") ++ "\x7d\"" ++ "" ++ "" ++ "];\n" :=
    rfl
  rw [hline]
  simp only [String.toList_append]
  rw [hescape, toList_quoted, hopen, hclose, hend, nodeLine, nodeAttributes_eq]
  generalize "shape=record,".toList = shape
  generalize "label=".toList = name
  simp [inQuotes, inBraces]

end DotText

namespace CallGraph

variable {g : CallGraph} {known : List (String × String)}

theorem Lists.nodes_eq (h : g.Lists known) : g.nodes = List.range known.length := by
  rw [nodes, h.size_eq, List.filter_eq_self]
  intro node hnode
  rw [hasNode, h.vertex?_eq, Option.isSome_map, List.getElem?_eq_getElem (List.mem_range.1 hnode)]
  rfl

/-- The functions are listed in the order of their labels. -/
theorem Lists.map_vertices (h : g.Lists known) :
    g.vertices.map (·.2) = known.map Vertex.labelled := by
  have hrange : ∀ known : List (String × String),
      (List.range known.length).filterMap (fun node => known[node]?.map Vertex.labelled) =
        known.map Vertex.labelled := by
    intro known
    induction known with
    | nil => rfl
    | cons label known ih =>
      rw [List.length_cons, List.range_succ_eq_map, List.filterMap_cons, List.filterMap_map]
      simpa using ih
  rw [vertices, h.nodes_eq, List.map_filterMap, ← hrange known]
  refine List.filterMap_congr ?_
  intro node _
  rw [h.vertex?_eq, Option.map_map]
  exact Option.map_id'

/-- The call of a call without attributes is written on a line of its own. -/
theorem toList_callLine {caller callee : Nat}
    (h : ∀ arc, g.arc? caller callee = some arc → arc.call = {}) :
    (g.callLine caller callee).toList =
      DotText.edgeLine (g.idText caller).toList (g.idText callee).toList ++ ['\n'] := by
  have hline : g.callLine caller callee = "\t" ++ DotText.quoted (g.idText caller) ++ " -> " ++
      DotText.quoted (g.idText callee) ++ "" ++ ";\n" := by
    rw [callLine]
    cases harc : g.arc? caller callee with
    | none => rfl
    | some arc =>
      simp only [h arc harc]
      rfl
  rw [hline]
  simp [DotText.toList_quoted, DotText.edgeLine, DotText.inQuotes, DotText.arrow]

theorem pairwise_arcsOf (calls : List (Nat × Nat)) :
    (arcsOf calls).Pairwise fun a b => a.index < b.index := by
  have hzip : calls.zipIdx.Pairwise fun a b => a.2 < b.2 := by
    refine List.pairwise_map.1 ?_
    rw [List.zipIdx_map_snd]
    exact List.pairwise_lt_range'
  exact List.pairwise_map.2 hzip

/-- The calls are listed in the order in which they were loaded. -/
theorem arcsInOrder_withCalls (g : CallGraph) (calls : List (Nat × Nat)) :
    (g.withCalls calls).arcsInOrder = arcsOf calls := by
  have hperm : (g.withCalls calls).arcsInOrder.Perm (arcsOf calls) :=
    (arcsInOrder_perm _).trans (List.reverse_perm _)
  have hordered := pairwise_arcsOf calls
  have hindices : ((arcsOf calls).map (·.index)).Nodup :=
    List.pairwise_map.2 (hordered.imp Nat.ne_of_lt)
  refine hperm.eq_of_pairwise ?_ (arcsInOrder_pairwise_le _) (hordered.imp Nat.le_of_lt)
  intro a b ha hb hab hba
  exact List.inj_on_of_nodup_map hindices (hperm.mem_iff.1 ha) hb (Nat.le_antisymm hab hba)

/-! ## Loading what was written -/

variable {first : String × String} {rest : List (String × String)} {calls : List (Nat × Nat)}

/-- The functions of a loaded graph are written with their labels. -/
theorem Loaded.toList_vertexLines (h : g.Loaded first rest calls)
    (htitle : ∀ label ∈ first :: rest, DotText.Title label.2.toList) :
    (String.join (g.vertices.map fun (_, v) => DotText.vertexLine v)).toList =
      ((first :: rest).map fun label =>
        DotText.nodeLine label.1.toList label.2.toList).flatMap (· ++ ['\n']) := by
  have hmap : g.vertices.map (·.2) = (first :: rest).map Vertex.labelled := by
    rw [h.eq]
    exact h.lists.map_vertices
  have hlines : (g.vertices.map fun (_, v) => DotText.vertexLine v) =
      (first :: rest).map fun label => DotText.vertexLine (.labelled label) := by
    have hboth := congrArg (List.map DotText.vertexLine) hmap
    rw [List.map_map, List.map_map] at hboth
    exact hboth
  rw [hlines, String.toList_join, List.flatMap_map, List.flatMap_map]
  exact List.flatMap_congr fun label hlabel => DotText.toList_vertexLine (htitle label hlabel)

/-- The calls of a loaded graph are written with the identities of their ends. -/
theorem Loaded.toList_callLines (h : g.Loaded first rest calls) :
    (String.join (calls.map fun (caller, callee) => g.callLine caller callee)).toList =
      ((calls.map fun call =>
        ((ofLabels first rest).idText call.1, (ofLabels first rest).idText call.2)).map fun edge =>
          DotText.edgeLine edge.1.toList edge.2.toList).flatMap (· ++ ['\n']) := by
  have hid : ∀ node, g.idText node = (ofLabels first rest).idText node := by
    intro node
    rw [h.eq]
    rfl
  have hplain : ∀ {caller callee : Nat} {arc : Arc}, g.arc? caller callee = some arc →
      arc.call = {} := by
    intro caller callee arc harc
    rw [h.eq] at harc
    have hmem := List.mem_reverse.1 (List.mem_of_find?_eq_some harc)
    obtain ⟨call, -, rfl⟩ := List.mem_map.1 hmem
    rfl
  rw [String.toList_join, List.flatMap_map, List.map_map, List.flatMap_map]
  refine List.flatMap_congr fun call _ => ?_
  rw [toList_callLine (fun arc harc => hplain harc), hid, hid]
  rfl

-- unfolding by `rw` would evaluate the literals
theorem toDotWith_eq (g : CallGraph) (calls : List (Nat × Nat)) :
    g.toDotWith calls = "digraph \"callgraph\" \x7b\n" ++
      String.join (g.vertices.map fun (_, v) => DotText.vertexLine v) ++
      String.join (calls.map fun (caller, callee) => g.callLine caller callee) ++ "\x7d\n" := rfl

/-- The lines of a loaded graph are those of its labels and of its calls. -/
theorem Loaded.toList_toDot (h : g.Loaded first rest calls)
    (htitle : ∀ label ∈ first :: rest, DotText.Title label.2.toList) :
    g.toDot.toList = (DotText.describe (first :: rest) (calls.map fun call =>
      ((ofLabels first rest).idText call.1, (ofLabels first rest).idText call.2))).flatMap
        (· ++ ['\n']) := by
  have hcalls : (g.arcsInOrder.map fun arc => (arc.caller, arc.callee)) = calls := by
    rw [h.eq, arcsInOrder_withCalls, arcsOf, List.map_map]
    exact List.zipIdx_map_fst 0 calls
  have hopen : "digraph \"callgraph\" \x7b\n".toList =
      DotText.firstLine ++ ['\n'] := by decide
  have hclose : "\x7d\n".toList = DotText.lastLine ++ ['\n'] := by decide
  rw [toDot, hcalls, toDotWith_eq]
  simp only [String.toList_append, h.toList_vertexLines htitle, h.toList_callLines, hopen, hclose]
  simp [DotText.describe]

/-- The written form of a loaded graph loads this graph, with the numbers of all its
functions and calls. -/
theorem ofDot_toDot {text entry : String} (h : ofDot text entry = .ok g) :
    ofDot g.toDot entry = .ok g := by
  obtain ⟨first, rest, calls, hloaded, rfl, hsub⟩ := exists_loaded h
  have hread : ∀ label ∈ first :: rest,
      DotText.Identifier label.1.toList ∧ DotText.Title label.2.toList := fun label hlabel =>
    DotText.readable_of_mem_labels (DotText.firstLabels_subset _ (hsub hlabel))
  have hend : ∀ node, (ofLabels first rest).hasNode node = true →
      DotText.Identifier ((ofLabels first rest).idText node).toList := by
    intro node hnode
    obtain ⟨label, hlabel, hv⟩ := hloaded.lists.exists_label hnode
    rw [idText, hv]
    exact (hread label hlabel).1
  have hreadable : DotText.Readable (first :: rest) (calls.map fun call =>
      ((ofLabels first rest).idText call.1, (ofLabels first rest).idText call.2)) := by
    refine ⟨hread, ?_⟩
    intro edge hedge
    obtain ⟨call, hcall, rfl⟩ := List.mem_map.1 hedge
    exact (hloaded.ends call hcall).imp (hend _) (hend _)
  have hparse := DotText.parse_describe hreadable
    (hloaded.toList_toDot fun label hlabel => (hread label hlabel).2)
  rw [ofDot, hparse]
  exact hloaded.ofStatements_eq (DotText.labels_statementsOf hreadable)
    (DotText.edges_statementsOf _ _)

/-- A description with blanks, commas and semicolons in its nodes, and with brackets, an
arrow and an equality sign in a label. -/
def bracketText : String :=
  "digraph g \x7b\n a;b [label=\"\x7bmain\x7d\"];\n" ++
    "\"c, d\" [shape=record,label=\"\x7bf[i]->g, h=1\x7d\"];\n a;b -> \"c, d\";\n\x7d\n"

/-- The two functions and the call of such a description are still there when the graph
was written and read. -/
theorem ofDot_toDot_brackets :
    ∃ g, ofDot bracketText "main" = .ok g ∧
      g.vertex? 1 = some (.labelled ("c, d", "f[i]->g, h=1")) ∧ g.hasCall 0 1 = true ∧
      ofDot g.toDot "main" = .ok g := by
  have hloaded : ((ofLabels ("a;b", "main") [("c, d", "f[i]->g, h=1")]).withCalls [(0, 1)]).Loaded
      ("a;b", "main") [("c, d", "f[i]->g, h=1")] [(0, 1)] :=
    loaded_withCalls (by decide) (by decide) (by decide) (by decide)
  have hparse : DotText.parse bracketText =
      [.node "a;b" (some "\x7bmain\x7d"), .node "c, d" (some "\x7bf[i]->g, h=1\x7d"),
        .edge "a;b" "c, d"] := by
    decide +kernel
  have hload : ofDot bracketText "main" =
      .ok ((ofLabels ("a;b", "main") [("c, d", "f[i]->g, h=1")]).withCalls [(0, 1)]) := by
    rw [ofDot, hparse]
    refine hloaded.ofStatements_eq (by decide +kernel) ?_
    simp [DotText.edges, idText, hloaded.lists.vertex?_eq, Vertex.labelled]
  refine ⟨_, hload, hloaded.lists.vertex?_eq 1, ?_, ofDot_toDot hload⟩
  exact (hasCall_withCalls _ _ 0 1).2 List.mem_cons_self

end CallGraph

end FuzzCampaign

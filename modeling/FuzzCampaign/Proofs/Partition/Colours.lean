import FuzzCampaign.Proofs.CallGraph.Refinement
import FuzzCampaign.Proofs.Partition.Coverage

/-!
# The colours of a plan

Both strategies forget all colours first, and then paint the functions of one task after
another.  Painting a function writes its own colour, and with the tree strategy also the
colours of its calls in the tree; it writes nothing else.  So a colour is the last one
that was written, and since every function belongs to one task only, it is the colour of
that task.

Main definitions:

- `PartitionPlan.coloring`: the functions of all tasks with the colours of their tasks.
- `CallGraph.Painted`: a graph bears the colours of a plan.

Main results:

- `CallGraph.WellFormed.callColor?_paintBranch`: which calls are painted with a function.
- `CallGraph.read_foldl`: of all colours that are written the last one is read.
- `CallGraph.split_paints`: both strategies paint their plan and change nothing but
  colours and scores.
-/

namespace FuzzCampaign

/-! ## Functions and the colours of their tasks -/

namespace PartitionPlan

/-- The task with a number, counted from zero, holds a function. -/
def Holds (plan : PartitionPlan) (i v : Nat) : Prop :=
  ∃ task, plan.tasks[i]? = some task ∧ v ∈ task.vertices

/-- The functions of all tasks, each with the colour of its task. -/
def coloring (plan : PartitionPlan) : List (Nat × Color) :=
  plan.tasks.zipIdx.flatMap fun (task, i) => task.vertices.map fun v => (v, Color.ofTask i)

variable {plan : PartitionPlan}

theorem mem_flatMap_vertices {v : Nat} :
    v ∈ plan.tasks.flatMap (·.vertices) ↔ ∃ i, plan.Holds i v := by
  rw [List.mem_flatMap]
  constructor
  · rintro ⟨task, htask, hv⟩
    obtain ⟨i, hi⟩ := List.mem_iff_getElem?.1 htask
    exact ⟨i, task, hi, hv⟩
  · rintro ⟨i, task, hi, hv⟩
    exact ⟨task, List.mem_of_getElem? hi, hv⟩

theorem mem_coloring {v : Nat} {color : Color} :
    (v, color) ∈ plan.coloring ↔ ∃ i, plan.Holds i v ∧ color = Color.ofTask i := by
  simp only [coloring, List.mem_flatMap, List.mem_map, Prod.exists, Prod.mk.injEq,
    List.mem_zipIdx_iff_getElem?, Holds]
  constructor
  · rintro ⟨task, i, htask, u, hu, rfl, rfl⟩
    exact ⟨i, ⟨task, htask, hu⟩, rfl⟩
  · rintro ⟨i, ⟨task, htask, hv⟩, rfl⟩
    exact ⟨task, i, htask, v, hv, rfl, rfl⟩

/-- When no function is handed out twice, one task holds it. -/
theorem Holds.unique (hnodup : (plan.tasks.flatMap (·.vertices)).Nodup) {i j v : Nat}
    (hi : plan.Holds i v) (hj : plan.Holds j v) : i = j := by
  have hdisjoint := List.pairwise_iff_getElem.1 (List.nodup_flatMap.1 hnodup).2
  obtain ⟨task, hi, hv⟩ := hi
  obtain ⟨other, hj, hv'⟩ := hj
  obtain ⟨hlt, rfl⟩ := List.getElem?_eq_some_iff.1 hi
  obtain ⟨hlt', rfl⟩ := List.getElem?_eq_some_iff.1 hj
  rcases Nat.lt_trichotomy i j with h | h | h
  · exact absurd hv' (hdisjoint i j hlt hlt' h hv)
  · exact h
  · exact absurd hv (hdisjoint j i hlt' hlt h hv')

end PartitionPlan

namespace CallGraph

variable {g g' : CallGraph} {t : Arborescence}

/-! ## Reading colours -/

/-- The colour of the function with a number. -/
def colorOf? (g : CallGraph) (node : Nat) : Option Color :=
  (g.vertex? node).bind (·.notes.color)

/-- The colour of the call between two functions. -/
def callColor? (g : CallGraph) (caller callee : Nat) : Option Color :=
  (g.arc? caller callee).bind (·.call.color)

@[simp] theorem callColor?_clearColors (g : CallGraph) (caller callee : Nat) :
    g.clearColors.callColor? caller callee = none := by
  simp only [callColor?, arc?, clearColors, List.find?_map, Option.bind_eq_none_iff,
    Option.map_eq_some_iff]
  rintro arc ⟨old, -, rfl⟩
  rfl

theorem WellFormed.color_eq (h : g.WellFormed) {arc : Arc} (harc : arc ∈ g.arcs) :
    arc.call.color = g.callColor? arc.caller arc.callee := by
  rw [callColor?, h.arc?_eq_some_iff.2 ⟨harc, rfl, rfl⟩]
  rfl

/-- Graphs that differ in colours only have the same functions and calls. -/
theorem sameShape_of_clearColors_eq (h : g'.clearColors = g.clearColors) : SameShape g g' := by
  have hcleared := sameShape_clearColors g'
  rw [h] at hcleared
  exact (sameShape_clearColors g).trans hcleared.symm

/-! ## Painting one function -/

theorem colorOf?_paint (color : Color) (node : Nat) {v : Nat} (hv : g.hasNode v = true) :
    (g.paint color node).colorOf? v = if node = v then some color else g.colorOf? v := by
  obtain ⟨w, hw⟩ := hasNode_iff.1 hv
  rw [colorOf?, paint, vertex?_annotate]
  by_cases hnode : node = v
  · simp [hnode, hw, Vertex.annotate]
  · simp [hnode, colorOf?]

theorem arc?_modifyCall (g : CallGraph) (index : Nat) (f : Call → Call) (p c : Nat) :
    (g.modifyCall index f).arc? p c =
      (g.arc? p c).map fun arc =>
        if arc.index = index then { arc with call := f arc.call } else arc := by
  have hjoins : (fun arc : Arc => arc.joins p c) ∘ (fun arc : Arc =>
      if arc.index = index then { arc with call := f arc.call } else arc) = (·.joins p c) := by
    funext arc
    simp only [Function.comp_apply]
    split <;> rfl
  simp only [arc?, modifyCall, List.find?_map, hjoins]

/-- Painting a call paints no other one. -/
theorem WellFormed.callColor?_paintCall (h : g.WellFormed) (color : Color) (caller callee : Nat)
    {p c : Nat} (hcall : g.Calls p c) : (paintCall color caller g callee).callColor? p c =
      if caller = p ∧ callee = c then some color else g.callColor? p c := by
  obtain ⟨arc, harc⟩ := Option.isSome_iff_exists.1 hcall
  obtain ⟨hmem, hp, hc⟩ := h.arc?_eq_some_iff.1 harc
  unfold paintCall
  cases hpainted : g.arc? caller callee with
  | none =>
    have hne : ¬ (caller = p ∧ callee = c) := by
      rintro ⟨rfl, rfl⟩
      simp [hpainted] at harc
    rw [if_neg hne]
  | some painted =>
    obtain ⟨hmem', hcaller, hcallee⟩ := h.arc?_eq_some_iff.1 hpainted
    have hsame : arc.index = painted.index ↔ caller = p ∧ callee = c := by
      constructor
      · intro hindex
        have heq := List.inj_on_of_nodup_map h.nodup_indices hmem hmem' hindex
        subst heq
        exact ⟨hcaller.symm.trans hp, hcallee.symm.trans hc⟩
      · rintro ⟨rfl, rfl⟩
        rw [hpainted, Option.some.injEq] at harc
        rw [harc]
    simp only [callColor?, arc?_modifyCall, harc, Option.map_some, Option.bind_some, hsame]
    split <;> rfl

/-- Painting a function with its calls in the tree paints no other function. -/
theorem colorOf?_paintBranch (color : Color) (node : Nat) {v : Nat} (hv : g.hasNode v = true) :
    (paintBranch t color g node).colorOf? v = if node = v then some color else g.colorOf? v := by
  have hcalls : ∀ (callees : List Nat) (g : CallGraph),
      (callees.foldl (paintCall color node) g).colorOf? v = g.colorOf? v := by
    intro callees
    induction callees with
    | nil => exact fun _ => rfl
    | cons callee callees ih =>
      intro g
      rw [List.foldl_cons, ih]
      unfold paintCall
      split <;> rfl
  rw [paintBranch, hcalls, colorOf?_paint color node hv]

/-- Painting a function with its calls in the tree paints no other call. -/
theorem WellFormed.callColor?_paintBranch (h : g.WellFormed) (color : Color) (node : Nat)
    {p c : Nat} (hcall : g.Calls p c) : (paintBranch t color g node).callColor? p c =
      if node = p ∧ c ∈ t.children node then some color else g.callColor? p c := by
  have hcalls : ∀ callees : List Nat,
      (callees.foldl (paintCall color node) (g.paint color node)).callColor? p c =
        if node = p ∧ c ∈ callees then some color else g.callColor? p c := by
    intro callees
    induction callees using List.reverseRecOn with
    | nil =>
      simp only [List.foldl_nil, List.not_mem_nil, and_false, if_false]
      rfl
    | append_singleton callees callee ih =>
      have hs : SameShape g (callees.foldl (paintCall color node) (g.paint color node)) := by
        apply sameShape_of_clearColors_eq
        rw [clearColors_foldl (clearColors_paintCall color node), clearColors_paint]
      have hcall' : (callees.foldl (paintCall color node) (g.paint color node)).Calls p c := by
        rwa [hs.calls_eq]
      rw [List.foldl_concat, (h.of_sameShape hs).callColor?_paintCall color node callee hcall', ih]
      by_cases hp : node = p <;> by_cases hc : callee = c <;> simp [hp, hc, Ne.symm]
  exact hcalls _

/-! ## Painting one function after another -/

/-- Of all colours that are written in some place the last one is read there. -/
theorem read_foldl {step : CallGraph → Nat × Color → CallGraph} (read : CallGraph → Option Color)
    (writes : Nat × Color → Bool) (hstep : ∀ g entry, (step g entry).clearColors = g.clearColors)
    (hread : ∀ g', g'.clearColors = g.clearColors → ∀ entry, read (step g' entry) =
      if writes entry then some entry.2 else read g') (entries : List (Nat × Color)) :
    read (entries.foldl step g) =
      ((entries.reverse.find? writes).map (·.2)).or (read g) := by
  induction entries using List.reverseRecOn with
  | nil => rfl
  | append_singleton entries entry ih =>
    rw [List.foldl_concat, hread _ (clearColors_foldl hstep entries g), ih]
    by_cases hwrites : writes entry <;> simp [hwrites]

/-- The last colour that is written for a function is that of its task. -/
theorem find?_coloring {plan : PartitionPlan} (hnodup : (plan.tasks.flatMap (·.vertices)).Nodup)
    {i v : Nat} (hv : plan.Holds i v) :
    plan.coloring.reverse.find? (·.1 == v) = some (v, Color.ofTask i) := by
  refine (find?_eq_some_iff_of_unique ?_).2 ⟨?_, by simp⟩
  · rintro ⟨a, first⟩ hfirst ⟨b, second⟩ hsecond ha hb
    simp only [List.mem_reverse, PartitionPlan.mem_coloring, beq_iff_eq] at *
    obtain ⟨i, hi, rfl⟩ := hfirst
    obtain ⟨j, hj, rfl⟩ := hsecond
    subst ha hb
    rw [hi.unique hnodup hj]
  · rw [List.mem_reverse, PartitionPlan.mem_coloring]
    exact ⟨i, hv, rfl⟩

/-- A graph bears the colours of a plan: every function has the colour of the one task
that holds it, every edge of the tree has that of the task that holds its caller, and no
other call has a colour. -/
structure Painted (g : CallGraph) (plan : PartitionPlan) (edges : List (Nat × Nat)) : Prop where
  existsUnique_task : ∀ v ∈ g.nodes, ∃! i, plan.Holds i v
  color_vertex : ∀ i v, plan.Holds i v → g.colorOf? v = some (Color.ofTask i)
  calls_edge : ∀ p c, (p, c) ∈ edges → g.Calls p c
  color_edge : ∀ i, ∀ arc ∈ g.arcs, (arc.caller, arc.callee) ∈ edges → plan.Holds i arc.caller →
    arc.call.color = some (Color.ofTask i)
  color_other : ∀ arc ∈ g.arcs, (arc.caller, arc.callee) ∉ edges → arc.call.color = none

/-- The last colour of the palette is not used. -/
theorem Painted.ne_black {plan : PartitionPlan} {edges : List (Nat × Nat)}
    (h : Painted g plan edges) (hw : g.WellFormed) : (∀ v, g.colorOf? v ≠ some .black) ∧
      ∀ arc ∈ g.arcs, arc.call.color ≠ some .black := by
  constructor
  · intro v hblack
    have hv : v ∈ g.nodes := by
      rw [mem_nodes]
      cases hvertex : g.vertex? v with
      | none => simp [colorOf?, hvertex] at hblack
      | some w => rfl
    obtain ⟨i, hi, -⟩ := h.existsUnique_task v hv
    rw [h.color_vertex i v hi, Option.some.injEq] at hblack
    exact Color.ofTask_ne_black i hblack
  · intro arc harc hblack
    by_cases hedge : (arc.caller, arc.callee) ∈ edges
    · obtain ⟨i, hi, -⟩ := h.existsUnique_task _ (mem_nodes.2 (hw.caller_mem arc harc))
      rw [h.color_edge i arc harc hedge hi, Option.some.injEq] at hblack
      exact Color.ofTask_ne_black i hblack
    · simp [h.color_other arc harc hedge] at hblack

/-- Painting the functions of a plan, each with its calls among some edges. -/
theorem WellFormed.painted_foldl (h : g.WellFormed) {plan : PartitionPlan}
    {edges : List (Nat × Nat)} {step : CallGraph → Nat × Color → CallGraph}
    (hperm : (plan.tasks.flatMap (·.vertices)).Perm g.nodes)
    (hedges : ∀ p c, (p, c) ∈ edges → g.Calls p c)
    (hstep : ∀ g entry, (step g entry).clearColors = g.clearColors)
    (hcolor : ∀ g' : CallGraph, ∀ entry v, g'.hasNode v = true → (step g' entry).colorOf? v =
      if entry.1 = v then some entry.2 else g'.colorOf? v)
    (hcall : ∀ g' : CallGraph, g'.WellFormed → ∀ entry p c, g'.Calls p c →
      (step g' entry).callColor? p c =
        if entry.1 = p ∧ (p, c) ∈ edges then some entry.2 else g'.callColor? p c) :
    Painted (plan.coloring.foldl step g.clearColors) plan edges := by
  have hshape : ∀ g' : CallGraph, g'.clearColors = g.clearColors.clearColors → SameShape g g' := by
    intro g' hg'
    rw [clearColors_clearColors] at hg'
    exact sameShape_of_clearColors_eq hg'
  have hs := hshape _ (clearColors_foldl hstep plan.coloring g.clearColors)
  have hnodup : (plan.tasks.flatMap (·.vertices)).Nodup := hperm.nodup_iff.2 g.nodup_nodes
  have hholds : ∀ v, v ∈ g.nodes ↔ ∃ i, plan.Holds i v := by
    intro v
    rw [← hperm.mem_iff, PartitionPlan.mem_flatMap_vertices]
  -- the colour of a call is looked for in the same list as that of its caller
  have hread : ∀ p c, g.Calls p c → (plan.coloring.foldl step g.clearColors).callColor? p c =
      (plan.coloring.reverse.find? fun entry => entry.1 == p && decide ((p, c) ∈ edges)).map
        (·.2) := by
    intro p c hpc
    rw [read_foldl (g := g.clearColors) (callColor? · p c)
      (fun entry => entry.1 == p && decide ((p, c) ∈ edges)) hstep]
    · simp
    · intro g' hg' entry
      rw [hcall g' (h.of_sameShape (hshape g' hg')) entry p c (by rwa [(hshape g' hg').calls_eq])]
      simp
  refine ⟨?_, ?_, ?_, ?_, ?_⟩
  · intro v hv
    rw [hs.nodes_eq, hholds] at hv
    obtain ⟨i, hi⟩ := hv
    exact ⟨i, hi, fun j hj => hj.unique hnodup hi⟩
  · intro i v hv
    have hnode : g.hasNode v = true := mem_nodes.1 ((hholds v).2 ⟨i, hv⟩)
    rw [read_foldl (g := g.clearColors) (colorOf? · v) (·.1 == v) hstep,
      find?_coloring hnodup hv]
    · rfl
    · intro g' hg' entry
      rw [hcolor g' entry v (by rwa [(hshape g' hg').hasNode_eq])]
      simp
  · intro p c hpc
    rw [hs.calls_eq]
    exact hedges p c hpc
  · intro i arc harc hedge hcaller
    rw [(h.of_sameShape hs).color_eq harc, hread _ _ (hedges _ _ hedge)]
    simp [hedge, find?_coloring hnodup hcaller]
  · intro arc harc hedge
    have hpc : g.Calls arc.caller arc.callee := by
      rw [← hs.calls_eq]
      exact hasCall_iff.2 ⟨arc, harc, rfl, rfl⟩
    rw [(h.of_sameShape hs).color_eq harc, hread _ _ hpc]
    simp [hedge]

/-! ## The two strategies -/

/-- The edges of the tree that a strategy cuts, if it cuts one. -/
def cutTree? (g : CallGraph) : Strategy → Option (List (Nat × Nat))
  | .naive => none
  | .tree => g.arborescence?.map (·.edges)

/-- The naive strategy paints functions only. -/
theorem splitNaive_painted {k : Nat} {sources : SourceIndex} {plan : PartitionPlan}
    (hplan : (g.splitNaive k sources).1 = .ok plan) : plan.arborescence = none ∧
      (g.splitNaive k sources).2 =
        plan.coloring.foldl (fun g entry => g.paint entry.2 entry.1) g.clearColors := by
  unfold splitNaive at hplan ⊢
  split at hplan
  · simp at hplan
  · rename_i hk
    simp only [Except.ok.injEq] at hplan
    subst hplan
    simp only [if_neg hk, PartitionPlan.coloring, List.foldl_flatMap, List.zipIdx_map,
      List.foldl_map]
    exact ⟨trivial, rfl⟩

/-- The tree strategy paints functions with their calls in the tree. -/
theorem splitTree_painted {k : Nat} {sources : SourceIndex} {cap : ScoreCap} {plan : PartitionPlan}
    (hplan : (g.splitTree k sources cap).1 = .ok plan) :
    ∃ tree, g.arborescence? = some tree ∧ plan.arborescence = some tree.edges ∧
      (g.splitTree k sources cap).2 = plan.coloring.foldl
        (fun g entry => paintBranch tree entry.2 g entry.1) (g.assignScores cap).2.clearColors := by
  unfold splitTree at hplan ⊢
  cases htree : g.arborescence? with
  | none => simp [htree] at hplan
  | some tree =>
    simp only [htree] at hplan ⊢
    split at hplan
    · simp at hplan
    · rename_i hfails
      simp only [Except.ok.injEq] at hplan
      subst hplan
      simp only [if_neg hfails, PartitionPlan.coloring, List.foldl_flatMap, List.foldl_map]
      exact ⟨tree, rfl, rfl, rfl⟩

theorem forgetScores_clearColors (g : CallGraph) :
    g.clearColors.forgetScores = g.forgetScores.clearColors := by
  have hslots : g.clearColors.forgetScores.slots = g.forgetScores.clearColors.slots := by
    simp only [clearColors, forgetScores, Array.map_map]
    congr 1
    funext slot
    cases slot <;> rfl
  exact congrArg (fun slots => { g.clearColors with slots := slots }) hslots

/-- What the naive strategy leaves behind. -/
theorem WellFormed.painted_splitNaive (h : g.WellFormed) {k : Nat} {sources : SourceIndex}
    {plan : PartitionPlan} (hplan : (g.splitNaive k sources).1 = .ok plan) :
    Painted (g.splitNaive k sources).2 plan [] := by
  have hvertices : plan.tasks.flatMap (·.vertices) = g.nodes := by
    by_cases hk : k = 0
    · simp [splitNaive, hk] at hplan
    · obtain ⟨other, heq, hrange⟩ := g.exists_rangePlan hk sources
      rw [heq, Except.ok.injEq] at hplan
      exact hplan ▸ hrange.vertices_eq
  rw [(splitNaive_painted hplan).2]
  refine h.painted_foldl (List.Perm.of_eq hvertices) (by simp) ?_ ?_ ?_
  · exact fun g entry => clearColors_paint entry.2 g entry.1
  · exact fun g' entry v hv => colorOf?_paint entry.2 entry.1 hv
  · intro g' _ entry p c _
    simp only [List.not_mem_nil, and_false, if_false]
    rfl

/-- What the tree strategy leaves behind. -/
theorem WellFormed.painted_splitTree (h : g.WellFormed) {k : Nat} {sources : SourceIndex}
    {cap : ScoreCap} {plan : PartitionPlan} (hplan : (g.splitTree k sources cap).1 = .ok plan) :
    Painted (g.splitTree k sources cap).2 plan (plan.arborescence.getD []) := by
  have hs := g.sameShape_assignScores cap
  have hperm : (plan.tasks.flatMap (·.vertices)).Perm g.nodes := by
    rcases h.splitTree_cases k sources cap with ⟨-, heq⟩ | ⟨-, -, heq⟩ |
      ⟨-, hk, tree, bins, other, g', heq, htree⟩
    · simp [heq] at hplan
    · simp [heq] at hplan
    · rw [heq, Except.ok.injEq] at hplan
      exact hplan ▸ htree.vertices_perm hk
  obtain ⟨tree, htree, hedges, heq⟩ := splitTree_painted hplan
  rw [heq, hedges, Option.getD_some]
  refine (h.of_sameShape hs).painted_foldl ?_ ?_ ?_ ?_ ?_
  · rwa [hs.nodes_eq]
  · rw [hs.calls_eq]
    exact (h.callTree htree).calls
  · exact fun g entry => clearColors_paintBranch tree entry.2 g entry.1
  · exact fun g' entry v hv => colorOf?_paintBranch entry.2 entry.1 hv
  · intro g' hg' entry p c hpc
    rw [hg'.callColor?_paintBranch entry.2 entry.1 hpc]
    by_cases hp : entry.1 = p <;> simp [hp, Arborescence.mem_children]

/-- Cutting a graph changes nothing but colours, after scores were assigned or not. -/
theorem WellFormed.clearColors_split (h : g.WellFormed) (strategy : Strategy) (k : Nat)
    (sources : SourceIndex) (cap : ScoreCap) :
    (g.split strategy k sources cap).2.clearColors = g.clearColors ∨
      (g.split strategy k sources cap).2.clearColors = (g.assignScores cap).2.clearColors := by
  cases strategy with
  | naive => exact Or.inl (g.clearColors_splitNaive k sources)
  | tree =>
    rcases h.splitTree_cases k sources cap with ⟨-, heq⟩ | ⟨-, -, heq⟩ |
      ⟨-, -, tree, bins, plan, g', heq, htree⟩
    · exact Or.inl (by rw [split, heq])
    · exact Or.inr (by rw [split, heq])
    · exact Or.inr (by rw [split, heq, htree.painted])

/-- Both strategies give every function the colour of its task and, when a tree was cut,
every edge of the tree the colour of the task of its caller.  They change nothing but
colours and scores. -/
theorem split_paints (h : g.WellFormed) {strategy : Strategy} {k : Nat} {sources : SourceIndex}
    {cap : ScoreCap} {plan : PartitionPlan}
    (hplan : (g.split strategy k sources cap).1 = .ok plan) :
    Painted (g.split strategy k sources cap).2 plan (plan.arborescence.getD []) ∧
      plan.arborescence = g.cutTree? strategy ∧
      (∀ v, (g.split strategy k sources cap).2.colorOf? v ≠ some .black) ∧
      (∀ arc ∈ (g.split strategy k sources cap).2.arcs, arc.call.color ≠ some .black) ∧
      (g.split strategy k sources cap).2.clearColors.forgetScores = g.clearColors.forgetScores := by
  have hpainted : Painted (g.split strategy k sources cap).2 plan (plan.arborescence.getD []) := by
    cases strategy with
    | naive =>
      rw [(splitNaive_painted hplan).1]
      exact h.painted_splitNaive hplan
    | tree => exact h.painted_splitTree hplan
  have htree : plan.arborescence = g.cutTree? strategy := by
    cases strategy with
    | naive => exact (splitNaive_painted hplan).1
    | tree =>
      obtain ⟨tree, hsome, hedges, -⟩ := splitTree_painted hplan
      rw [hedges, cutTree?, hsome, Option.map_some]
  have hscored := g.sameShape_assignScores cap
  rcases h.clearColors_split strategy k sources cap with hclear | hclear
  · have hblack := hpainted.ne_black (h.of_sameShape (sameShape_of_clearColors_eq hclear))
    exact ⟨hpainted, htree, hblack.1, hblack.2, by rw [hclear]⟩
  · have hblack := hpainted.ne_black
      (h.of_sameShape (hscored.trans (sameShape_of_clearColors_eq hclear)))
    refine ⟨hpainted, htree, hblack.1, hblack.2, ?_⟩
    rw [hclear, forgetScores_clearColors, forgetScores_assignScores, forgetScores_clearColors]

/-- Cut into two tasks, of an entry and the function it calls the callee belongs to the
first one; the call has the colour of the second one, which holds the entry. -/
theorem split_paints_call :
    (ofCall "main" "parse").WellFormed ∧
      ((ofCall "main" "parse").split .tree 2 {} .none).1 =
        .ok ⟨[⟨[1], [], 1⟩, ⟨[0], [], 1⟩], 2, some [(0, 1)]⟩ ∧
      ((ofCall "main" "parse").split .tree 2 {} .none).2.colorOf? 1 = some .red ∧
      ((ofCall "main" "parse").split .tree 2 {} .none).2.colorOf? 0 = some .green ∧
      ∀ arc ∈ ((ofCall "main" "parse").split .tree 2 {} .none).2.arcs,
        arc.caller = 0 → arc.callee = 1 → arc.call.color = some .green := by
  have hw : (ofCall "main" "parse").WellFormed := (built_ofCall _ _).wellFormed
  have hplan : ((ofCall "main" "parse").split .tree 2 {} .none).1 =
      .ok ⟨[⟨[1], [], 1⟩, ⟨[0], [], 1⟩], 2, some [(0, 1)]⟩ := by cbv
  have hpainted := (split_paints hw hplan).1
  refine ⟨hw, hplan, hpainted.color_vertex 0 1 ⟨_, rfl, by simp⟩,
    hpainted.color_vertex 1 0 ⟨_, rfl, by simp⟩, ?_⟩
  intro arc harc hcaller hcallee
  refine hpainted.color_edge 1 arc harc ?_ ⟨_, rfl, by simp [hcaller]⟩
  simp [hcaller, hcallee]

end CallGraph

end FuzzCampaign

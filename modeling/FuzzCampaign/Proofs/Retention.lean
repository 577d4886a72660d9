import FuzzCampaign.Proofs.Census

/-!
# What a round keeps

A round adds the calls that were observed, slides the coverage windows and prunes
with the same index of blocks as ever.  What observation adds leaves everything
else in place, and coverage changes nothing but the windows.  A function of a pruned
graph is at the end of a call path through instrumented functions, and after any
addition this path is still there.  So pruning takes away nothing that it left
before, and a function that was kept once has all its coverage from then on.

Main definitions:

- `CallGraph.Grown`: functions and calls were added and nothing else changed.
- `CallGraph.Kept`: functions and calls are still there, with their windows slid.
- `Survey.Settled`: pruning has nothing to do in a graph.
- `Survey.Round`, `Survey.play`, `Survey.playAll`: what is learned between two prunings.

Main results:

- `Survey.grown_observe`: observed calls only add.
- `CallGraph.Indexed.kept_applyCoverage`: coverage slides the windows that it names.
- `Survey.kept_prune`: pruning takes away nothing of a settled graph that was kept.
- `Survey.kept_through_rounds`: nothing that a round left is taken away later.
-/

namespace FuzzCampaign

/-! ## Windows -/

/-- A function after a list of coverage records: those that name it slide its window. -/
def Vertex.covered (records : List CoverageRecord) (v : Vertex) : Vertex :=
  v.annotate fun notes => (records.filter (·.name == v.name)).foldl Annotations.slide notes

namespace Vertex

variable (records : List CoverageRecord) (v : Vertex)

@[simp] theorem id_covered : (v.covered records).id = v.id := rfl

@[simp] theorem name_covered : (v.covered records).name = v.name := rfl

@[simp] theorem origin_covered : (v.covered records).origin = v.origin := rfl

@[simp] theorem covered_nil : v.covered [] = v := rfl

/-- Covering by two lists one after the other is covering by their concatenation. -/
theorem covered_append (later : List CoverageRecord) :
    v.covered (records ++ later) = (v.covered records).covered later := by
  simp [covered, annotate, List.filter_append, List.foldl_append]

/-- A record on another function says nothing. -/
theorem covered_of_ne {record : CoverageRecord} (h : record.name ≠ v.name) :
    v.covered [record] = v := by
  simp [covered, annotate, h]

/-- A record of the function's own name slides its window. -/
theorem covered_of_eq {record : CoverageRecord} (h : record.name = v.name) :
    v.covered [record] = v.annotate (·.slide record) := by
  simp [covered, h]

/-- The first record fixes the number of blocks for good. -/
theorem totalBlocks_covered {n : UInt32} (h : v.notes.totalBlocks = some n) :
    (v.covered records).notes.totalBlocks = some n := by
  have hslide : ∀ (records : List CoverageRecord) (notes : Annotations),
      notes.totalBlocks = some n →
      (records.foldl Annotations.slide notes).totalBlocks = some n := by
    intro records
    induction records with
    | nil => exact fun _ hnotes => hnotes
    | cons record records ih =>
      intro notes hnotes
      refine ih _ ?_
      simp [Annotations.slide, hnotes]
  exact hslide _ _ h

/-- Coverage and the locations of a function have nothing to do with each other. -/
theorem located_covered (blocks : BlockIndex) :
    (v.covered records).located blocks = (v.located blocks).covered records := by
  have hslide : ∀ (locations : List (String × UInt32)) (records : List CoverageRecord)
      (notes : Annotations),
      { records.foldl Annotations.slide notes with locations := locations } =
        records.foldl Annotations.slide { notes with locations := locations } := by
    intro locations records
    induction records with
    | nil => exact fun _ => rfl
    | cons record records ih =>
      intro notes
      have hone : { notes.slide record with locations := locations } =
          Annotations.slide { notes with locations := locations } record := by
        cases htotal : notes.totalBlocks with
        | none => simp only [Annotations.slide, htotal]
        | some total => simp only [Annotations.slide, htotal]
      rw [List.foldl_cons, List.foldl_cons, ih, hone]
  cases hfind : blocks.find? v.name with
  | none => simp only [located, name_covered, hfind]
  | some locations =>
    simp only [located, name_covered, hfind]
    exact congrArg (fun notes => { v with notes := notes }) (hslide locations _ v.notes)

end Vertex

namespace CallGraph

variable {g g' g'' : CallGraph}

/-! ## Additions -/

/-- Functions of these names and calls were added, and nothing else changed. -/
structure Grown (names : List String) (g g' : CallGraph) : Prop where
  entry_eq : g'.entry = g.entry
  vertex?_eq : ∀ {node v}, g.vertex? node = some v → g'.vertex? node = some v
  arcs_subset : g.arcs ⊆ g'.arcs
  added : ∀ {node v}, g.vertex? node = none → g'.vertex? node = some v →
    ∃ name ∈ names, v = Vertex.observed name

/-- A graph grows into itself by no names. -/
theorem Grown.refl (g : CallGraph) : Grown [] g g :=
  ⟨rfl, id, List.Subset.refl _, fun hnone hsome => by simp [hnone] at hsome⟩

/-- Additions compose, and their names come together. -/
theorem Grown.trans {a b : List String} (h : Grown a g g') (h' : Grown b g' g'') :
    Grown (a ++ b) g g'' := by
  refine ⟨h'.entry_eq.trans h.entry_eq, fun hv => h'.vertex?_eq (h.vertex?_eq hv),
    List.Subset.trans h.arcs_subset h'.arcs_subset, ?_⟩
  intro node v hnone hsome
  cases hmid : g'.vertex? node with
  | none =>
    obtain ⟨name, hname, hv⟩ := h'.added hmid hsome
    exact ⟨name, List.mem_append_right _ hname, hv⟩
  | some w =>
    obtain ⟨name, hname, hw⟩ := h.added hnone hmid
    rw [h'.vertex?_eq hmid, Option.some.injEq] at hsome
    exact ⟨name, List.mem_append_left _ hname, hsome ▸ hw⟩

/-- More names may be allowed than were needed. -/
theorem Grown.mono {a b : List String} (h : Grown a g g') (hsub : a ⊆ b) : Grown b g g' := by
  refine ⟨h.entry_eq, h.vertex?_eq, h.arcs_subset, ?_⟩
  intro node v hnone hsome
  obtain ⟨name, hname, hv⟩ := h.added hnone hsome
  exact ⟨name, hsub hname, hv⟩

/-- A name that is taken stays taken. -/
theorem Grown.hasName {names : List String} (h : Grown names g g') {name : String}
    (hname : g.HasName name) : g'.HasName name := by
  obtain ⟨node, hnode⟩ := hname
  obtain ⟨v, hv, rfl⟩ := Option.map_eq_some_iff.1 hnode
  refine ⟨node, ?_⟩
  rw [name?, h.vertex?_eq hv]
  rfl

/-- A function that is inserted takes a number that nobody has. -/
theorem WellFormed.grown_insert (h : g.WellFormed) {name : String} (hnew : g.node? name = none) :
    Grown [name] g (g.insert (.observed name)).2 := by
  have hplaced := h.placed_insert (v := .observed name) hnew
  refine ⟨hplaced.entry_eq, ?_, hplaced.arcs_eq ▸ List.Subset.refl _, ?_⟩
  · intro node v hv
    rw [hplaced.vertex?_of_hasNode (hasNode_iff.2 ⟨v, hv⟩), hv]
  · intro node v hnone hsome
    rw [hplaced.vertex?_eq] at hsome
    split at hsome
    · exact ⟨name, List.mem_singleton_self _, (Option.some.inj hsome).symm⟩
    · rw [hnone] at hsome
      exact absurd hsome (by simp)

/-- A new call adds no function. -/
theorem grown_addCall (g : CallGraph) (caller callee : Nat) (call : Call) :
    Grown [] g (g.addCall caller callee call).2 := by
  have hslots := (g.addCall_cases caller callee call).1
  refine ⟨entry_addCall g caller callee call, ?_, ?_, ?_⟩
  · intro node v hv
    rwa [vertex?, hslots]
  · unfold addCall pushArc
    split
    · exact List.Subset.refl _
    · split <;> exact List.subset_cons_self _ _
  · intro node v hnone hsome
    rw [vertex?, hslots, ← vertex?, hnone] at hsome
    exact absurd hsome (by simp)

/-! ## What is kept -/

/-- Functions and calls are still there under their numbers, and nothing has changed
about them but that the records have slid their windows. -/
structure Kept (records : List CoverageRecord) (g g' : CallGraph) : Prop where
  entry_eq : g'.entry = g.entry
  vertex?_eq : ∀ {node v}, g.vertex? node = some v → g'.vertex? node = some (v.covered records)
  arcs_subset : g.arcs ⊆ g'.arcs

/-- A graph keeps everything of itself. -/
theorem Kept.refl (g : CallGraph) : Kept [] g g :=
  ⟨rfl, fun hv => by rwa [Vertex.covered_nil], List.Subset.refl _⟩

/-- What is kept twice is kept, with the records of both steps. -/
theorem Kept.trans {a b : List CoverageRecord} (h : Kept a g g') (h' : Kept b g' g'') :
    Kept (a ++ b) g g'' := by
  refine ⟨h'.entry_eq.trans h.entry_eq, ?_, List.Subset.trans h.arcs_subset h'.arcs_subset⟩
  intro node v hv
  rw [h'.vertex?_eq (h.vertex?_eq hv), Vertex.covered_append]

/-- Additions alone slide no window. -/
theorem Grown.kept {names : List String} (h : Grown names g g') : Kept [] g g' :=
  ⟨h.entry_eq, fun hv => by rw [Vertex.covered_nil, h.vertex?_eq hv], h.arcs_subset⟩

/-- A node that has a function keeps one. -/
theorem Kept.hasNode {records : List CoverageRecord} (h : Kept records g g') {node : Nat}
    (hnode : g.hasNode node = true) : g'.hasNode node = true := by
  obtain ⟨v, hv⟩ := hasNode_iff.1 hnode
  exact hasNode_iff.2 ⟨_, h.vertex?_eq hv⟩

/-- Functions keep their names. -/
theorem Kept.name? {records : List CoverageRecord} (h : Kept records g g') {node : Nat}
    {name : String} (hname : g.name? node = some name) : g'.name? node = some name := by
  obtain ⟨v, hv, rfl⟩ := Option.map_eq_some_iff.1 hname
  rw [CallGraph.name?, h.vertex?_eq hv]
  rfl

/-- Calls are kept. -/
theorem Kept.calls {records : List CoverageRecord} (h : Kept records g g') {a b : Nat}
    (hcall : g.Calls a b) : g'.Calls a b := by
  obtain ⟨arc, harc, hends⟩ := hasCall_iff.1 hcall
  exact hasCall_iff.2 ⟨arc, h.arcs_subset harc, hends⟩

/-! ## Coverage -/

/-- A record touches neither the names, nor the calls, nor the entry. -/
theorem applyRecord_cases (g : CallGraph) (record : CoverageRecord) :
    (g.applyRecord record).2.byName = g.byName ∧ (g.applyRecord record).2.arcs = g.arcs ∧
      (g.applyRecord record).2.entry = g.entry := by
  rw [applyRecord]
  split
  · split <;> exact ⟨rfl, rfl, rfl⟩
  · exact ⟨rfl, rfl, rfl⟩

/-- A record slides the window of the function that it names. -/
theorem Indexed.vertex?_applyRecord (h : g.Indexed) (record : CoverageRecord) (node : Nat) :
    (g.applyRecord record).2.vertex? node = (g.vertex? node).map (·.covered [record]) := by
  have hother : g.node? record.name ≠ some node →
      (g.vertex? node).map (·.covered [record]) = g.vertex? node := by
    intro hne
    cases hv : g.vertex? node with
    | none => rfl
    | some v =>
      have hname : record.name ≠ v.name := by
        intro heq
        refine hne ((h record.name node).2 ?_)
        rw [name?, hv, heq]
        rfl
      rw [Option.map_some, v.covered_of_ne hname]
  rw [applyRecord]
  cases hfind : g.node? record.name with
  | none => exact (hother (by simp [hfind])).symm
  | some found =>
    obtain ⟨w, hw, hname⟩ := Option.map_eq_some_iff.1 ((h record.name found).1 hfind)
    have hnode : g.hasNode found = true := hasNode_iff.2 ⟨w, hw⟩
    simp only [hnode, if_true, vertex?_annotate]
    split
    · rename_i heq
      subst heq
      rw [hw, Option.map_some, Option.map_some, w.covered_of_eq hname.symm]
    · rename_i hne
      exact (hother (by simpa [hfind] using hne)).symm

/-- A record leaves the table of names right. -/
theorem Indexed.applyRecord (h : g.Indexed) (record : CoverageRecord) :
    (g.applyRecord record).2.Indexed :=
  h.congr (g.applyRecord_cases record).1 (name?_applyRecord g record)

/-- A record slides the window of the function it names and keeps the rest. -/
theorem Indexed.kept_applyRecord (h : g.Indexed) (record : CoverageRecord) :
    Kept [record] g (g.applyRecord record).2 := by
  obtain ⟨-, harcs, hentry⟩ := g.applyRecord_cases record
  refine ⟨hentry, ?_, harcs ▸ List.Subset.refl _⟩
  intro node v hv
  rw [h.vertex?_applyRecord, hv]
  rfl

/-- Coverage slides the windows of the functions that it names, each record one step. -/
theorem Indexed.kept_applyCoverage (h : g.Indexed) (records : List CoverageRecord) :
    Kept records g (g.applyCoverage records).2 := by
  induction records generalizing g with
  | nil => exact Kept.refl g
  | cons record records ih => exact (h.kept_applyRecord record).trans (ih (h.applyRecord record))

end CallGraph

namespace Survey

open CallGraph Relation

variable {s : Survey} {blocks : BlockIndex}

/-! ## Observed calls -/

/-- Looking up an observed name adds at most a function of that name. -/
theorem grown_observedNode (h : s.graph.Built) (name : String) :
    Grown [name] s.graph (s.observedNode name).2.graph := by
  cases hfind : s.graph.node? name with
  | some node =>
    rw [observedNode_of_node? hfind]
    exact (Grown.refl _).mono (List.nil_subset _)
  | none =>
    rw [graph_observedNode_of_none hfind]
    exact h.wellFormed.grown_insert hfind

/-- An observed call adds at most its two ends. -/
theorem grown_observeCall (h : s.graph.Built) (fact : CallFact) :
    Grown [fact.caller, fact.callee] s.graph (s.observeCall fact).graph := by
  have hcaller := grown_observedNode h fact.caller
  have hcallee := grown_observedNode (built_observedNode h fact.caller) fact.callee
  exact (hcaller.trans hcallee).trans (grown_addCall _ _ _ _)

/-- Observed calls add functions that they name, and calls. -/
theorem grown_observe (h : s.graph.Built) (facts : List CallFact) :
    Grown (CallFact.touched facts) s.graph (s.observe facts).graph := by
  induction facts generalizing s with
  | nil => exact Grown.refl _
  | cons fact facts ih =>
    refine ((grown_observeCall h fact).trans (ih (built_observeCall h fact))).mono ?_
    intro name hname
    simpa [CallFact.touched, or_assoc] using hname

/-! ## Pruning what was pruned before -/

/-- Every function of a graph survives pruning and has its locations. -/
structure Settled (blocks : BlockIndex) (g : CallGraph) : Prop where
  survives : ∀ node, g.hasNode node = true → Survives blocks g node
  located : ∀ {node v}, g.vertex? node = some v → v.located blocks = v

/-- A function that survives in a graph survives in every graph that keeps it. -/
theorem survives_of_kept {records : List CoverageRecord} {g g' : CallGraph}
    (h : Kept records g g') {node : Nat} (hnode : Survives blocks g node) :
    Survives blocks g' node := by
  rw [Survives, h.entry_eq]
  refine ReflTransGen.lift id ?_ _ _ hnode
  rintro a b ⟨hcall, hb⟩
  refine ⟨h.calls hcall, hb.imp_right ?_⟩
  rintro ⟨name, hname, hblocks⟩
  exact ⟨name, h.name? hname, hblocks⟩

/-- A pruned graph is settled. -/
theorem Pruned.settled {s' : Survey} {report : PruneReport} (h : Pruned blocks s s' report)
    (hw : s'.graph.WellFormed) : Settled blocks s'.graph := by
  refine ⟨?_, ?_⟩
  · intro node hnode
    have hagain := hasNode_prune blocks hw node
    rw [h.prune_eq hw] at hagain
    exact hagain.1 hnode
  · intro node v hv
    rw [h.vertex?_eq node (CallGraph.hasNode_iff.2 ⟨v, hv⟩), Option.map_eq_some_iff] at hv
    obtain ⟨old, -, rfl⟩ := hv
    exact Vertex.located_located blocks old

/-- A pruned graph is settled for the blocks it was pruned by. -/
theorem settled_prune (h : s.graph.Built) (blocks : BlockIndex) :
    Settled blocks (s.prune blocks).2.graph :=
  (pruned_prune h.wellFormed).settled (built_prune h blocks).wellFormed

/-- Whatever was added to a settled graph, pruning leaves the settled part alone. -/
theorem kept_prune {records : List CoverageRecord} {g : CallGraph} (hg : Settled blocks g)
    (h : s.graph.WellFormed) (hgw : g.WellFormed) (hkept : Kept records g s.graph) :
    Kept records g (s.prune blocks).2.graph := by
  have hpruned : Pruned blocks s (s.prune blocks).2 (s.prune blocks).1 := pruned_prune h
  have hstays : ∀ node, g.hasNode node = true →
      (s.prune blocks).2.graph.hasNode node = true :=
    fun node hnode => (hpruned.hasNode_iff node).2 (survives_of_kept hkept (hg.survives node hnode))
  refine ⟨hpruned.entry_eq.trans hkept.entry_eq, ?_, ?_⟩
  · intro node v hv
    rw [hpruned.vertex?_eq node (hstays node (CallGraph.hasNode_iff.2 ⟨v, hv⟩)),
      hkept.vertex?_eq hv, Option.map_some, v.located_covered, hg.located hv]
  · intro arc harc
    rw [hpruned.arcs_eq, List.mem_filter, Bool.and_eq_true]
    exact ⟨hkept.arcs_subset harc, hstays _ (hgw.caller_mem arc harc),
      hstays _ (hgw.callee_mem arc harc)⟩

/-! ## Rounds -/

/-- What is learned between two prunings. -/
structure Round where
  facts : List CallFact
  records : List CoverageRecord

/-- Add the calls of a round and slide the windows. -/
def extend (s : Survey) (round : Round) : Survey :=
  { s.observe round.facts with
    graph := ((s.observe round.facts).graph.applyCoverage round.records).2 }

/-- Add what a round has learned, and prune. -/
def play (blocks : BlockIndex) (s : Survey) (round : Round) : Survey :=
  ((s.extend round).prune blocks).2

/-- A profiling pass learns the calls of its log and the records of its report. -/
example (s : Survey) (output : ProfileOutput) :
    (s.ingest output).2 = s.extend ⟨CallFact.parseLog output.callLog,
      CoverageRecord.parseReport output.coverageReport⟩ := rfl

/-- Observing and covering keep a graph built. -/
theorem built_extend (h : s.graph.Built) (round : Round) : (s.extend round).graph.Built :=
  stable_built.applyCoverage (built_observe h round.facts) round.records

/-- A round keeps a graph built. -/
theorem built_play (h : s.graph.Built) (blocks : BlockIndex) (round : Round) :
    (s.play blocks round).graph.Built := by
  rw [play]
  exact built_prune (built_extend h round) blocks

/-- Before a round prunes, everything is still there. -/
theorem kept_extend (h : s.graph.Built) (round : Round) :
    Kept round.records s.graph (s.extend round).graph :=
  (grown_observe h round.facts).kept.trans
    ((built_observe h round.facts).indexed.kept_applyCoverage round.records)

/-- Each round leaves a settled graph. -/
theorem settled_play (h : s.graph.Built) (blocks : BlockIndex) (round : Round) :
    Settled blocks (s.play blocks round).graph := by
  rw [play]
  exact settled_prune (built_extend h round) blocks

/-- A round that follows a pruning takes nothing away. -/
theorem kept_play (h : s.graph.Built) (hs : Settled blocks s.graph) (round : Round) :
    Kept round.records s.graph (s.play blocks round).graph := by
  rw [play]
  exact kept_prune hs (built_extend h round).wellFormed h.wellFormed (kept_extend h round)

/-- Play a list of rounds. -/
def playAll (blocks : BlockIndex) (s : Survey) (rounds : List Round) : Survey :=
  rounds.foldl (play blocks) s

@[simp] theorem playAll_nil (blocks : BlockIndex) (s : Survey) : s.playAll blocks [] = s := rfl

/-- Rounds played one after the other are the rounds of the joined list. -/
theorem playAll_append (blocks : BlockIndex) (s : Survey) (early late : List Round) :
    s.playAll blocks (early ++ late) = (s.playAll blocks early).playAll blocks late :=
  List.foldl_append

/-- Rounds that follow a pruning take nothing away and leave nothing to prune. -/
theorem kept_playAll (h : s.graph.Built) (hs : Settled blocks s.graph) (rounds : List Round) :
    (s.playAll blocks rounds).graph.Built ∧ Settled blocks (s.playAll blocks rounds).graph ∧
      Kept (rounds.flatMap (·.records)) s.graph (s.playAll blocks rounds).graph := by
  induction rounds generalizing s with
  | nil => exact ⟨h, hs, Kept.refl _⟩
  | cons round rounds ih =>
    obtain ⟨hbuilt, hsettled, hkept⟩ := ih (built_play h blocks round) (settled_play h blocks round)
    rw [playAll, List.foldl_cons, List.flatMap_cons]
    exact ⟨hbuilt, hsettled, (kept_play h hs round).trans hkept⟩

/-- What a round takes away it has added itself: a function that was not there before
and that its calls name. -/
theorem added_of_removed (h : s.graph.Built) (hs : Settled blocks s.graph) (round : Round)
    {node : Nat} (hthere : (s.extend round).graph.hasNode node = true)
    (hgone : (s.play blocks round).graph.hasNode node = false) :
    s.graph.hasNode node = false ∧
      ∃ name ∈ CallFact.touched round.facts, (s.extend round).graph.name? node = some name := by
  have hbefore : s.graph.hasNode node = false := by
    rw [Bool.eq_false_iff]
    intro hnode
    rw [(kept_play h hs round).hasNode hnode] at hgone
    exact absurd hgone (by simp)
  refine ⟨hbefore, ?_⟩
  have hnone : s.graph.vertex? node = none := by simpa [hasNode] using hbefore
  have hname : (s.extend round).graph.name? node = (s.observe round.facts).graph.name? node :=
    name?_applyCoverage _ _ node
  obtain ⟨v, hv⟩ := hasNode_iff.1 hthere
  have hsome : (s.observe round.facts).graph.name? node = some v.name := by
    rw [← hname, name?, hv]
    rfl
  obtain ⟨w, hw, hwname⟩ := Option.map_eq_some_iff.1 hsome
  obtain ⟨name, htouched, rfl⟩ := (grown_observe h round.facts).added hnone hw
  exact ⟨name, htouched, by rw [hname, hsome, ← hwname]; rfl⟩

/-- From the first pruning on, whatever a round leaves every later round leaves too:
each call as it was, and each function under its number, unchanged but for the records
on it, which slide its window and never reset it.  What a round takes away its own
observed calls have added. -/
theorem kept_through_rounds (h : s.graph.Built) (blocks : BlockIndex) (early late : List Round) :
    Kept (late.flatMap (·.records)) ((s.prune blocks).2.playAll blocks early).graph
      ((s.prune blocks).2.playAll blocks (early ++ late)).graph ∧
    (∀ node v, ((s.prune blocks).2.playAll blocks early).graph.vertex? node = some v →
      ∃ w, ((s.prune blocks).2.playAll blocks (early ++ late)).graph.vertex? node = some w ∧
        w.id = v.id ∧ w.name = v.name ∧ w.origin = v.origin ∧
        ∀ blockCount, v.notes.totalBlocks = some blockCount →
          w.notes.totalBlocks = some blockCount) ∧
    ∀ round node,
      (((s.prune blocks).2.playAll blocks early).extend round).graph.hasNode node = true →
      (((s.prune blocks).2.playAll blocks early).play blocks round).graph.hasNode node = false →
        ((s.prune blocks).2.playAll blocks early).graph.hasNode node = false ∧
        ∃ name ∈ CallFact.touched round.facts,
          (((s.prune blocks).2.playAll blocks early).extend round).graph.name? node =
            some name := by
  obtain ⟨hbuilt, hsettled, -⟩ := kept_playAll (built_prune h blocks) (settled_prune h blocks) early
  obtain ⟨-, -, hkept⟩ := kept_playAll hbuilt hsettled late
  rw [playAll_append]
  refine ⟨hkept, ?_, fun round node => added_of_removed hbuilt hsettled round⟩
  intro node v hv
  exact ⟨_, hkept.vertex?_eq hv, v.id_covered _, v.name_covered _, v.origin_covered _,
    fun _ => v.totalBlocks_covered _⟩

/-- An instrumented function that the entry calls stays when a round sees a call of
another function, and a later report slides its window. -/
theorem kept_through_rounds_call :
    (ofCall "main" "parse").Built ∧
      let blocks : BlockIndex := ⟨[("parse", "parse.c", 3)]⟩
      let s := ((⟨ofCall "main" "parse", {}⟩ : Survey).prune blocks).2.playAll blocks
        [⟨[⟨"main", "inflate"⟩], []⟩, ⟨[], [{ name := "parse", totalBlocks := 3, covered := 2 }]⟩]
      ∃ v, s.graph.vertex? 1 = some v ∧ v.name = "parse" ∧ v.notes.totalBlocks = some 3 ∧
        v.notes.coveredNow = 2 := by
  have hne : "main" ≠ "parse" := by decide
  have hbuilt : (ofCall "main" "parse").Built := built_ofCall _ _
  refine ⟨hbuilt, ?_⟩
  intro blocks s
  have hsurvives : Survives blocks (ofCall "main" "parse") 1 := by
    rw [Survives, entry_ofCall]
    refine ReflTransGen.single ⟨hasCall_ofCall hne, Or.inr ⟨"parse", ?_, by decide⟩⟩
    rw [name?, vertex?_ofCall hne]
    rfl
  have hpruned := (prune_survivors (s := ⟨ofCall "main" "parse", {}⟩) hbuilt.wellFormed blocks).1
  have hstart := hpruned.vertex?_eq 1 ((hpruned.hasNode_iff 1).2 hsurvives)
  rw [vertex?_ofCall hne] at hstart
  obtain ⟨hkept, -, -⟩ := kept_through_rounds (s := ⟨ofCall "main" "parse", {}⟩) hbuilt blocks []
    [⟨[⟨"main", "inflate"⟩], []⟩, ⟨[], [{ name := "parse", totalBlocks := 3, covered := 2 }]⟩]
  rw [List.nil_append, playAll_nil] at hkept
  exact ⟨_, hkept.vertex?_eq hstart, rfl, rfl, rfl⟩

end Survey

end FuzzCampaign

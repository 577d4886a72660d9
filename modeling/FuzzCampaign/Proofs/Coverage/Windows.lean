import FuzzCampaign.Proofs.Coverage.Reports

/-!
# Coverage windows

A report has at most one record on a function, whatever its text is, so that a profiling
pass slides the window of a function once if the report names it and leaves it alone if not.
A window that has seen a list of records therefore holds the last two of them and the number
of blocks that the first one told; the number of blocks is absent until then, and this is how
the first record is recognized.  Functions that a pass observes for the first time are in the
graph before its report is applied, with an empty window, and are covered by this report.

Main definitions:

- `Windowed`: a window has seen a list of records.
- `Survey.Turn`, `Survey.afterAll`: passes and prunings, one after another.
- `CallGraph.Watched`: a function is still there, and its window has seen a list of records.

Main results:

- `Windowed.slide`: what a window has seen after one more record.
- `CallGraph.Indexed.applyCoverage_fst`: how many functions a report slides.
- `Survey.watched_after`: what a window has seen after one more turn.
- `Survey.windows_slide`: windows after passes and prunings in any order.
-/

namespace FuzzCampaign

/-! ## Windows -/

/-- A window has seen these records: it holds the number of blocks of the first one and the
covered blocks of the last two. -/
structure Windowed (records : List CoverageRecord) (notes : Annotations) : Prop where
  totalBlocks : notes.totalBlocks = records.head?.map (·.totalBlocks)
  coveredNow : notes.coveredNow = (records.getLast?.map (·.covered)).getD 0
  coveredBefore : notes.coveredBefore = (records.dropLast.getLast?.map (·.covered)).getD 0

variable {records : List CoverageRecord}

/-- A window sees one more record. -/
theorem Windowed.slide {notes : Annotations} (h : Windowed records notes)
    (record : CoverageRecord) : Windowed (records ++ [record]) (notes.slide record) := by
  cases records with
  | nil =>
    have htotal : notes.totalBlocks = none := h.totalBlocks
    simp only [Annotations.slide, htotal]
    exact ⟨rfl, rfl, rfl⟩
  | cons first rest =>
    have htotal : notes.totalBlocks = some first.totalBlocks := h.totalBlocks
    have hnow := h.coveredNow
    simp only [Annotations.slide, htotal]
    refine ⟨rfl, ?_, ?_⟩
    · rw [List.getLast?_concat]
      rfl
    · rw [List.dropLast_concat]
      exact hnow

/-- Locations are no part of a window. -/
theorem Windowed.located {v : Vertex} (h : Windowed records v.notes) (blocks : BlockIndex) :
    Windowed records (v.located blocks).notes := by
  unfold Vertex.located
  split
  · exact ⟨h.totalBlocks, h.coveredNow, h.coveredBefore⟩
  · exact h

/-! ## One record for each function -/

section OneRecord

variable {report : List CoverageRecord}

/-- The record of a report on a function. -/
def recordOn? (report : List CoverageRecord) (name : String) : Option CoverageRecord :=
  report.find? (·.name == name)

/-- A report is silent on a name that no record bears. -/
theorem recordOn?_eq_none_iff {name : String} :
    recordOn? report name = none ↔ ∀ record ∈ report, record.name ≠ name := by
  simp [recordOn?]

/-- A report that records no function twice has one record on a function or none. -/
theorem filter_name_eq (h : (report.map (·.name)).Nodup) (name : String) :
    report.filter (·.name == name) = (recordOn? report name).toList := by
  induction report with
  | nil => rfl
  | cons record report ih =>
    obtain ⟨hnew, hrest⟩ := List.nodup_cons.1 h
    rw [recordOn?, List.filter_cons, List.find?_cons]
    cases hname : record.name == name with
    | false => exact ih hrest
    | true =>
      have hothers : recordOn? report name = none := by
        rw [recordOn?_eq_none_iff]
        rintro other hother rfl
        exact hnew (List.mem_map.2 ⟨other, hother, (beq_iff_eq.1 hname).symm⟩)
      rw [ih hrest, hothers]
      rfl

/-- What a report says of a name, where each name occurs once. -/
theorem recordOn?_eq_some_iff (h : (report.map (·.name)).Nodup) {record : CoverageRecord}
    {name : String} :
    recordOn? report name = some record ↔ record ∈ report ∧ record.name = name := by
  have hmem : record ∈ report.filter (·.name == name) ↔ record ∈ report ∧ record.name = name := by
    rw [List.mem_filter, beq_iff_eq]
  rw [← hmem, filter_name_eq h, Option.mem_toList]

/-- A report slides a window once if it names the function, and not at all if not. -/
theorem Vertex.covered_eq (h : (report.map (·.name)).Nodup) (v : Vertex) :
    v.covered report =
      ((recordOn? report v.name).map fun record => v.annotate (·.slide record)).getD v := by
  rw [Vertex.covered, filter_name_eq h]
  cases recordOn? report v.name <;> rfl

/-- Covering by a report pushes what it says of the function into the window. -/
theorem Windowed.covered {v : Vertex} (hv : Windowed records v.notes)
    (h : (report.map (·.name)).Nodup) :
    Windowed (records ++ (recordOn? report v.name).toList) (v.covered report).notes := by
  rw [Vertex.covered_eq h]
  cases recordOn? report v.name with
  | none => simpa using hv
  | some record => exact hv.slide record

end OneRecord

/-- Of two lists without repetition, each has as many members in the other. -/
theorem countP_mem_comm {α : Type} [DecidableEq α] {a b : List α} (ha : a.Nodup)
    (hb : b.Nodup) : a.countP (· ∈ b) = b.countP (· ∈ a) := by
  rw [List.countP_eq_length_filter, List.countP_eq_length_filter]
  refine List.Perm.length_eq ((List.perm_ext_iff_of_nodup (ha.filter _) (hb.filter _)).2 ?_)
  intro x
  simp [and_comm]

/-! ## Covering a graph -/

namespace CallGraph

variable {g : CallGraph}

/-- A report covers every function of an indexed graph, each by what it says of it. -/
theorem Indexed.vertex?_applyCoverage (h : g.Indexed) (records : List CoverageRecord)
    (node : Nat) :
    (g.applyCoverage records).2.vertex? node = (g.vertex? node).map (·.covered records) := by
  induction records generalizing g with
  | nil => simp [applyCoverage]
  | cons record records ih =>
    rw [applyCoverage, ih (h.applyRecord record), h.vertex?_applyRecord, Option.map_map]
    congr 1
    funext v
    exact (v.covered_append [record] records).symm

/-- A record changes no name. -/
theorem containsName_applyRecord (g : CallGraph) (record : CoverageRecord) :
    (g.applyRecord record).2.containsName = g.containsName := by
  funext name
  rw [containsName, (g.applyRecord_cases record).1, containsName]

/-- Records change no name. -/
theorem containsName_applyCoverage (g : CallGraph) (records : List CoverageRecord) :
    (g.applyCoverage records).2.containsName = g.containsName := by
  induction records generalizing g with
  | nil => rfl
  | cons record records ih => exact (ih _).trans (containsName_applyRecord g record)

/-- Each record counts if the graph has the function that it names. -/
theorem Indexed.applyCoverage_fst (h : g.Indexed) (records : List CoverageRecord) :
    (g.applyCoverage records).1 = records.countP fun record => g.containsName record.name := by
  induction records generalizing g with
  | nil => rfl
  | cons record records ih =>
    have hfirst : (g.applyRecord record).1 = if g.containsName record.name then 1 else 0 := by
      rw [CallGraph.applyRecord, containsName_eq]
      cases hfind : g.node? record.name with
      | none => rfl
      | some node =>
        obtain ⟨v, hv, -⟩ := name?_eq_some_iff.1 ((h record.name node).1 hfind)
        simp [hasNode, hv]
    rw [applyCoverage, ih (h.applyRecord record), containsName_applyRecord, hfirst,
      List.countP_cons, Nat.add_comm]

/-- The names that the graph contains are those of its functions. -/
theorem Indexed.containsName_iff_mem (h : g.Indexed) {name : String} :
    g.containsName name = true ↔ name ∈ g.vertices.map (·.2.name) := by
  rw [h.containsName_iff, List.mem_map]
  constructor
  · rintro ⟨v, ⟨node, hv⟩, hname⟩
    exact ⟨(node, v), mem_vertices.2 hv, hname⟩
  · rintro ⟨⟨node, v⟩, hv, hname⟩
    exact ⟨v, ⟨node, mem_vertices.1 hv⟩, hname⟩

/-- No name is listed twice. -/
theorem Indexed.nodup_map_name (h : g.Indexed) : (g.vertices.map (·.2.name)).Nodup := by
  refine List.Nodup.map_on ?_ g.nodup_vertices
  rintro ⟨a, v⟩ hv ⟨b, w⟩ hw hname
  have ha := mem_vertices.1 hv
  have hb := mem_vertices.1 hw
  obtain rfl : a = b := h.name_unique (name?_eq_some_iff.2 ⟨v, ha, rfl⟩)
    (name?_eq_some_iff.2 ⟨w, hb, hname.symm⟩)
  rw [Option.some.inj (ha.symm.trans hb)]

/-- As many records of a report are on functions of the graph as functions are named. -/
theorem Indexed.countP_containsName (h : g.Indexed) {report : List CoverageRecord}
    (hnodup : (report.map (·.name)).Nodup) :
    (report.countP fun record => g.containsName record.name) =
      g.vertices.countP fun entry => report.any (·.name == entry.2.name) := by
  calc report.countP (fun record => g.containsName record.name)
      = (report.map (·.name)).countP (· ∈ g.vertices.map (·.2.name)) := by
        rw [List.countP_map]
        refine List.countP_congr fun record _ => ?_
        rw [h.containsName_iff_mem]
        simp only [Function.comp_apply, decide_eq_true_eq]
    _ = (g.vertices.map (·.2.name)).countP (· ∈ report.map (·.name)) :=
        countP_mem_comm hnodup h.nodup_map_name
    _ = g.vertices.countP fun entry => report.any (·.name == entry.2.name) := by
        rw [List.countP_map]
        refine List.countP_congr fun entry _ => ?_
        simp

/-- The function of a number is the one that it was, and its window has seen these records. -/
def Watched (g : CallGraph) (node : Nat) (v : Vertex) (records : List CoverageRecord) : Prop :=
  ∃ w, g.vertex? node = some w ∧ w.id = v.id ∧ w.name = v.name ∧ w.origin = v.origin ∧
    Windowed records w.notes

/-- A function with an empty window has seen nothing. -/
theorem watched_nil {node : Nat} {v : Vertex} (hv : g.vertex? node = some v)
    (htotal : v.notes.totalBlocks = none) (hnow : v.notes.coveredNow = 0)
    (hbefore : v.notes.coveredBefore = 0) : g.Watched node v [] :=
  ⟨v, hv, rfl, rfl, rfl, htotal, hnow, hbefore⟩

end CallGraph

/-! ## Passes and prunings -/

namespace Survey

open CallGraph

variable {s : Survey} {node : Nat} {v : Vertex}

/-- What happens to a survey in a campaign: a profiling pass or a pruning. -/
inductive Turn where
  | profile (output : ProfileOutput)
  | prune (blocks : BlockIndex)

/-- The records of the report of a turn; a pruning has none. -/
def Turn.report : Turn → List CoverageRecord
  | .profile output => CoverageRecord.parseReport output.coverageReport
  | .prune _ => []

/-- The records on a function in the reports that have one, in the order of the reports. -/
def recordsOn (name : String) (turns : List Turn) : List CoverageRecord :=
  turns.filterMap fun turn => recordOn? turn.report name

/-- The records on a name, turn by turn. -/
theorem recordsOn_cons (name : String) (turn : Turn) (turns : List Turn) :
    recordsOn name (turn :: turns) =
      (recordOn? turn.report name).toList ++ recordsOn name turns := by
  rw [recordsOn, List.filterMap_cons]
  cases recordOn? turn.report name <;> rfl

/-- A survey after a turn. -/
def after (s : Survey) : Turn → Survey
  | .profile output => (s.ingest output).2
  | .prune blocks => (s.prune blocks).2

@[simp] theorem after_profile (s : Survey) (output : ProfileOutput) :
    s.after (.profile output) = (s.ingest output).2 := by
  rw [after]

@[simp] theorem after_prune (s : Survey) (blocks : BlockIndex) :
    s.after (.prune blocks) = (s.prune blocks).2 := by
  rw [after]

/-- A survey after turns. -/
def afterAll (s : Survey) (turns : List Turn) : Survey := turns.foldl after s

/-- Turns are taken one after the other. -/
theorem afterAll_cons (s : Survey) (turn : Turn) (turns : List Turn) :
    s.afterAll (turn :: turns) = (s.after turn).afterAll turns := rfl

/-- Turns of a joined list are those of the first list and then those of the second. -/
theorem afterAll_append (s : Survey) (early late : List Turn) :
    s.afterAll (early ++ late) = (s.afterAll early).afterAll late :=
  List.foldl_append

/-- No turn removes the function of a number. -/
def Stays (s : Survey) (node : Nat) (turns : List Turn) : Prop :=
  ∀ early, early <+: turns → (s.afterAll early).graph.hasNode node = true

/-- Whoever stays is there. -/
theorem Stays.hasNode {turns : List Turn} (h : s.Stays node turns) :
    s.graph.hasNode node = true :=
  h [] List.nil_prefix

/-- Whoever stays through some turns is there and stays through the later ones. -/
theorem stays_cons_iff {turn : Turn} {turns : List Turn} : s.Stays node (turn :: turns) ↔
    s.graph.hasNode node = true ∧ (s.after turn).Stays node turns := by
  constructor
  · intro h
    exact ⟨h.hasNode, fun early hearly => h (turn :: early) (List.cons_prefix_cons.2 ⟨rfl, hearly⟩)⟩
  · rintro ⟨hnode, hrest⟩ early hearly
    cases early with
    | nil => exact hnode
    | cons first early =>
      obtain ⟨rfl, htail⟩ := List.cons_prefix_cons.1 hearly
      exact hrest early htail

/-- A turn keeps a graph built. -/
theorem built_after (h : s.graph.Built) (turn : Turn) : (s.after turn).graph.Built := by
  cases turn with
  | profile output =>
    rw [after_profile]
    exact built_ingest h output
  | prune blocks =>
    rw [after_prune]
    exact built_prune h blocks

/-- Turns keep a graph built. -/
theorem built_afterAll (h : s.graph.Built) (turns : List Turn) :
    (s.afterAll turns).graph.Built := by
  induction turns generalizing s with
  | nil => exact h
  | cons turn turns ih => exact ih (built_after h turn)

/-! ### One pass -/

/-- The functions after a profiling pass are those after observing its calls, covered by its
report. -/
theorem vertex?_ingest (h : s.graph.Built) (output : ProfileOutput) (node : Nat) :
    (s.ingest output).2.graph.vertex? node =
      ((s.observe (CallFact.parseLog output.callLog)).graph.vertex? node).map
        (·.covered (CoverageRecord.parseReport output.coverageReport)) :=
  (built_observe h _).indexed.vertex?_applyCoverage _ node

/-- A function that is there before an ingest is there after it, covered by its report. -/
theorem vertex?_ingest_of_eq_some (h : s.graph.Built) (output : ProfileOutput)
    (hv : s.graph.vertex? node = some v) : (s.ingest output).2.graph.vertex? node =
      some (v.covered (CoverageRecord.parseReport output.coverageReport)) := by
  rw [vertex?_ingest h, (grown_observe h _).vertex?_eq hv, Option.map_some]

/-- A profiling pass slides each window at most once, those of the functions that its report
names, and counts these functions. -/
structure SlidesOnce (s : Survey) (output : ProfileOutput) : Prop where
  once : ((CoverageRecord.parseReport output.coverageReport).map (·.name)).Nodup
  /-- Functions that the graph has already are as they were when the report is applied. -/
  kept : ∀ node v, s.graph.vertex? node = some v →
    (s.observe (CallFact.parseLog output.callLog)).graph.vertex? node = some v
  named : ∀ node v record,
    (s.observe (CallFact.parseLog output.callLog)).graph.vertex? node = some v →
    record ∈ CoverageRecord.parseReport output.coverageReport → record.name = v.name →
      (s.ingest output).2.graph.vertex? node = some (v.annotate (·.slide record))
  unnamed : ∀ node v,
    (s.observe (CallFact.parseLog output.callLog)).graph.vertex? node = some v →
    (∀ record ∈ CoverageRecord.parseReport output.coverageReport, record.name ≠ v.name) →
      (s.ingest output).2.graph.vertex? node = some v
  verticesUpdated : (s.ingest output).1.verticesUpdated =
    (s.ingest output).2.graph.vertices.countP fun entry =>
      (CoverageRecord.parseReport output.coverageReport).any (·.name == entry.2.name)

/-- An ingest slides each window at most once. -/
theorem slidesOnce (h : s.graph.Built) (output : ProfileOutput) : s.SlidesOnce output := by
  have hnodup := CoverageRecord.nodup_name_parseReport output.coverageReport
  refine ⟨hnodup, fun node v => (grown_observe h _).vertex?_eq, ?_, ?_, ?_⟩
  · intro node v record hv hrecord hname
    rw [vertex?_ingest h, hv, Option.map_some, Vertex.covered_eq hnodup,
      (recordOn?_eq_some_iff hnodup).2 ⟨hrecord, hname⟩]
    rfl
  · intro node v hv hnone
    rw [vertex?_ingest h, hv, Option.map_some, Vertex.covered_eq hnodup,
      recordOn?_eq_none_iff.2 hnone]
    rfl
  · have hgraph : (s.ingest output).2.graph =
        ((s.observe (CallFact.parseLog output.callLog)).graph.applyCoverage
          (CoverageRecord.parseReport output.coverageReport)).2 := rfl
    calc (s.ingest output).1.verticesUpdated
        = (CoverageRecord.parseReport output.coverageReport).countP fun record =>
            (s.observe (CallFact.parseLog output.callLog)).graph.containsName record.name :=
          (built_observe h _).indexed.applyCoverage_fst _
      _ = (CoverageRecord.parseReport output.coverageReport).countP fun record =>
            (s.ingest output).2.graph.containsName record.name := by
          rw [hgraph, containsName_applyCoverage]
      _ = _ := (built_ingest h output).indexed.countP_containsName hnodup

/-! ### Runs -/

/-- A turn that leaves a function there slides its window at most once. -/
theorem watched_after (h : s.graph.Built) {records : List CoverageRecord}
    (hwatched : s.graph.Watched node v records) (turn : Turn)
    (hstays : (s.after turn).graph.hasNode node = true) :
    (s.after turn).graph.Watched node v (records ++ (recordOn? turn.report v.name).toList) := by
  obtain ⟨w, hw, hid, hname, horigin, hwindow⟩ := hwatched
  cases turn with
  | profile output =>
    rw [after_profile, ← hname]
    exact ⟨_, vertex?_ingest_of_eq_some h output hw, hid, hname, horigin,
      hwindow.covered (CoverageRecord.nodup_name_parseReport _)⟩
  | prune blocks =>
    rw [after_prune] at hstays ⊢
    have hpruned : Pruned blocks s (s.prune blocks).2 (s.prune blocks).1 :=
      pruned_prune h.wellFormed
    have hlocated := hpruned.vertex?_eq node hstays
    rw [hw, Option.map_some] at hlocated
    refine ⟨_, hlocated, (w.id_located blocks).trans hid, (w.name_located blocks).trans hname,
      (w.origin_located blocks).trans horigin, ?_⟩
    rw [Turn.report, recordOn?, List.find?_nil, Option.toList_none, List.append_nil]
    exact hwindow.located blocks

/-- What a window has seen after turns, as long as they leave the function there. -/
theorem watched_afterAll (h : s.graph.Built) {records : List CoverageRecord}
    (hwatched : s.graph.Watched node v records) {turns : List Turn}
    (hstays : s.Stays node turns) :
    (s.afterAll turns).graph.Watched node v (records ++ recordsOn v.name turns) := by
  induction turns generalizing s records with
  | nil => simpa [recordsOn, afterAll] using hwatched
  | cons turn turns ih =>
    obtain ⟨-, hrest⟩ := stays_cons_iff.1 hstays
    have hfirst := watched_after h hwatched turn hrest.hasNode
    rw [recordsOn_cons, ← List.append_assoc]
    exact ih (built_after h turn) hfirst hrest

/-- Profiling passes remove no function. -/
theorem stays_profiles (h : s.graph.Built) (hnode : s.graph.hasNode node = true)
    (outputs : List ProfileOutput) : s.Stays node (outputs.map .profile) := by
  induction outputs generalizing s with
  | nil =>
    intro early hearly
    rw [List.prefix_nil.1 hearly]
    exact hnode
  | cons output outputs ih =>
    have hthere : (s.after (.profile output)).graph.hasNode node = true := by
      obtain ⟨v, hv⟩ := hasNode_iff.1 hnode
      rw [after_profile]
      exact hasNode_iff.2 ⟨_, vertex?_ingest_of_eq_some h output hv⟩
    exact stays_cons_iff.2 ⟨hnode, ih (built_after h _) hthere⟩

/-- A function that enters in a pass is covered by the report of this pass. -/
theorem watched_entered (h : s.graph.Built) {output : ProfileOutput}
    (hnew : s.graph.vertex? node = none)
    (hv : (s.observe (CallFact.parseLog output.callLog)).graph.vertex? node = some v) :
    (∃ name ∈ CallFact.touched (CallFact.parseLog output.callLog), v = .observed name) ∧
      (s.ingest output).2.graph.Watched node v
        (recordOn? (CoverageRecord.parseReport output.coverageReport) v.name).toList := by
  obtain ⟨name, hname, rfl⟩ := (grown_observe h _).added hnew hv
  have hcovered := vertex?_ingest h output node
  rw [hv, Option.map_some] at hcovered
  have hempty : Windowed [] (Vertex.observed name).notes := ⟨rfl, rfl, rfl⟩
  exact ⟨⟨name, hname, rfl⟩, _, hcovered, rfl, rfl, rfl,
    hempty.covered (CoverageRecord.nodup_name_parseReport output.coverageReport)⟩

/-- After passes and prunings in any order, each further pass slides a window at most once,
and counts the functions that its report names.  A function that starts with an empty window,
and one that enters in a pass, has seen the records on it in the reports since then that have
one: its window holds the number of blocks of the first record and the covered blocks of the
last two. -/
theorem windows_slide (h : s.graph.Built) (early : List Turn) :
    (∀ output, (s.afterAll early).SlidesOnce output) ∧
    (∀ late node v, (s.afterAll early).graph.vertex? node = some v →
      v.notes.totalBlocks = none → v.notes.coveredNow = 0 → v.notes.coveredBefore = 0 →
      (s.afterAll early).Stays node late →
        (s.afterAll (early ++ late)).graph.Watched node v (recordsOn v.name late)) ∧
    ∀ output late node v, (s.afterAll early).graph.vertex? node = none →
      ((s.afterAll early).observe (CallFact.parseLog output.callLog)).graph.vertex? node =
        some v →
      ((s.afterAll early).ingest output).2.Stays node late →
        (∃ name ∈ CallFact.touched (CallFact.parseLog output.callLog), v = .observed name) ∧
          (s.afterAll (early ++ .profile output :: late)).graph.Watched node v
            (recordsOn v.name (.profile output :: late)) := by
  have hbuilt := built_afterAll h early
  refine ⟨slidesOnce hbuilt, ?_, ?_⟩
  · intro late node v hv htotal hnow hbefore hstays
    rw [afterAll_append]
    exact watched_afterAll hbuilt (watched_nil hv htotal hnow hbefore) hstays
  · intro output late node v hnew hv hstays
    obtain ⟨hname, hwatched⟩ := watched_entered hbuilt hnew hv
    refine ⟨hname, ?_⟩
    rw [afterAll_append, afterAll_cons, after_profile, recordsOn_cons]
    exact watched_afterAll (built_ingest hbuilt output) hwatched hstays

/-- A pass that observes a call, and a report on two functions. -/
def callingPass : ProfileOutput :=
  ⟨"Function: zip.c:main->parse", CoverageRecord.twoSourcesText⟩

/-- A pass with the same report that observes nothing. -/
def silentPass : ProfileOutput := ⟨"", CoverageRecord.twoSourcesText⟩

/-- The two records of one function in two sources are merged into one. -/
theorem parseReport_twoSources :
    ∃ covered, CoverageRecord.parseReport CoverageRecord.twoSourcesText =
      [{ name := "parse", file := "zip.c", path := "src/zip.c" },
       { name := "crc", file := "zip.c", path := "src/zip.c", totalBlocks := 4, covered }] := by
  obtain ⟨covered, hrecords⟩ := CoverageRecord.records_twoSources
  refine ⟨covered, ?_⟩
  rw [CoverageRecord.parseReport_eq_merge _ CoverageRecord.written_twoSources, hrecords]
  simp [CoverageRecord.merge, CoverageRecord.mergeOne]

/-- After both passes the window of the function that the entry calls holds the share of the
report twice; the function that enters in the first one has the share that the report tells
on it, which is none. -/
theorem windows_slide_twoPasses :
    let s : Survey := ⟨ofCall "main" "crc", {}⟩
    let turns : List Turn := [.profile callingPass, .profile silentPass]
    s.graph.Built ∧
      (∃ crc, (s.afterAll turns).graph.vertex? 1 = some crc ∧ crc.name = "crc" ∧
        crc.notes.totalBlocks = some 4 ∧ crc.notes.coveredBefore = crc.notes.coveredNow) ∧
      ∃ parse, (s.afterAll turns).graph.vertex? 2 = some parse ∧ parse.name = "parse" ∧
        parse.notes.totalBlocks = some 0 ∧ parse.notes.coveredNow = 0 := by
  intro s turns
  have hne : "main" ≠ "crc" := by decide
  have hbuilt : s.graph.Built := built_ofCall _ _
  have hcrc : s.graph.vertex? 1 = some (.named "crc") := vertex?_ofCall hne 1
  have hvacant : s.graph.vertex? 2 = none := vertex?_ofCall hne 2
  have hparse : (s.observe (CallFact.parseLog callingPass.callLog)).graph.vertex? 2 =
      some (.observed "parse") := by
    have hfacts : CallFact.parseLog callingPass.callLog = [⟨"main", "parse"⟩] := by
      decide +kernel
    rw [hfacts]
    simp [s, observe, observeCall, observedNode, ofCall, ofEntry, CallGraph.insert,
      CallGraph.addCall, allocate, Vertex.named, Vertex.observed, hasCall, arc?, hasNode, vertex?,
      node?, pushArc, Std.HashMap.getElem_insert]
  have hthere : (s.ingest callingPass).2.graph.hasNode 2 = true := by
    rw [hasNode, vertex?_ingest hbuilt, hparse]
    rfl
  obtain ⟨-, hstarted, hentered⟩ := windows_slide hbuilt []
  obtain ⟨crc, hcrcAfter, -, hcrcName, -, hcrcSeen⟩ := hstarted turns 1 _ hcrc rfl rfl rfl
    (stays_profiles hbuilt (hasNode_iff.2 ⟨_, hcrc⟩) [callingPass, silentPass])
  obtain ⟨-, parse, hparseAfter, -, hparseName, -, hparseSeen⟩ :=
    hentered callingPass [.profile silentPass] 2 _ hvacant hparse
      (stays_profiles (built_ingest hbuilt _) hthere [silentPass])
  obtain ⟨covered, hrecords⟩ := parseReport_twoSources
  have hcrcRecords : recordsOn (Vertex.named "crc").name turns =
      [{ name := "crc", file := "zip.c", path := "src/zip.c", totalBlocks := 4, covered },
       { name := "crc", file := "zip.c", path := "src/zip.c", totalBlocks := 4, covered }] := by
    simp [turns, recordsOn, Turn.report, callingPass, silentPass, hrecords, recordOn?,
      Vertex.named]
  have hparseRecords : recordsOn (Vertex.observed "parse").name turns =
      [{ name := "parse", file := "zip.c", path := "src/zip.c" },
       { name := "parse", file := "zip.c", path := "src/zip.c" }] := by
    simp [turns, recordsOn, Turn.report, callingPass, silentPass, hrecords, recordOn?,
      Vertex.observed]
  rw [hcrcRecords] at hcrcSeen
  rw [hparseRecords] at hparseSeen
  exact ⟨hbuilt,
    ⟨crc, hcrcAfter, hcrcName, hcrcSeen.totalBlocks,
      hcrcSeen.coveredBefore.trans hcrcSeen.coveredNow.symm⟩,
    parse, hparseAfter, hparseName, hparseSeen.totalBlocks, hparseSeen.coveredNow⟩

end Survey

end FuzzCampaign

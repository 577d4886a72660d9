import FuzzCampaign.Pruning

/-!
# Profiling passes

The profiling binary logs one line for every call that it observes,
`Function: file:caller->callee`.  Identical lines are counted once, and lines
of any other shape are ignored.

Observed calls are added to the call graph.  A function that the graph does not
know becomes a dynamic vertex and leaves the spare set.

A coverage report is made of sections that end at a blank line.  A function
section gives the share of blocks that a function's tests took; a file section
names the source file of all function sections before it and since the last
file section.  When a function is reported more than once, the report with the
most covered blocks counts, the earliest of several.

A profiling pass yields a call log and a coverage report.  The calls of the log
are added to the graph; then the coverage window of every reported function
slides on: what was covered now becomes what was covered before, and the
report's count takes its place.  The first report on a function also fixes its
number of blocks.

Main definitions:

- `CallFact.parseLog`: the calls of a log.
- `Survey.observe`: add observed calls to a graph.
- `CallFact.touched`: the functions named in observed calls.
- `CoverageRecord.parseReport`: the records of a report.
- `CoverageRecord.merge`: one record per function.
- `CallGraph.applyCoverage`.
- `Survey.ingest`.
-/

namespace FuzzCampaign

/-! ## Observed calls -/

/-- One observed call. -/
structure CallFact where
  caller : String
  callee : String
  deriving Repr, DecidableEq

namespace CallFact

/-- The two sides of an arrow; `none` unless there is exactly one arrow. -/
def arrowSides? (token : List Char) : Option (List Char × List Char) :=
  match Text.cutAt ['-', '>'] token with
  | some (front, back) =>
    match Text.cutAt ['-', '>'] back with
    | some _ => none
    | none => some (front, back)
  | none => none

/-- The call on a trimmed line: its second word is `file:caller->callee`. -/
def ofLine? (line : List Char) : Option CallFact :=
  match Text.pieces ' ' line with
  | _ :: token :: _ =>
    match arrowSides? (Text.trim token) with
    | some (front, back) =>
      match Text.pieces ':' (Text.trim front) with
      | _ :: caller :: _ =>
        let callee := Text.trim back
        if caller.isEmpty || callee.isEmpty then none
        else some ⟨String.ofList caller, String.ofList callee⟩
      | _ => none
    | none => none
  | _ => none

/-- The calls of a log, identical lines counted once. -/
def parseLog (text : String) : List CallFact :=
  ((Text.lines text).map Text.trim).eraseDups.filterMap ofLine?

/-- The functions named in a list of calls, in the order in which they are
first named. -/
def touched (facts : List CallFact) : List String :=
  (facts.flatMap fun fact => [fact.caller, fact.callee]).eraseDups

end CallFact

namespace Survey

/-- The vertex of a function that was observed at run time.  A function that is
new to the graph is inserted and leaves the spare set. -/
def observedNode (s : Survey) (name : String) : Nat × Survey :=
  match s.graph.node? name with
  | some node => (node, s)
  | none =>
    let inserted := s.graph.insert (Vertex.observed name)
    (inserted.1, ⟨inserted.2, s.state.unpark name⟩)

/-- Add one observed call and the functions it names. -/
def observeCall (s : Survey) (fact : CallFact) : Survey :=
  let caller := s.observedNode fact.caller
  let callee := caller.2.observedNode fact.callee
  { callee.2 with
    graph := (callee.2.graph.addCall caller.1 callee.1 { origin := .dynamic }).2 }

/-- Add observed calls and the functions they name. -/
def observe (s : Survey) (facts : List CallFact) : Survey := facts.foldl observeCall s

@[simp] theorem observe_nil (s : Survey) : s.observe [] = s := rfl

@[simp] theorem observe_cons (s : Survey) (fact : CallFact) (facts : List CallFact) :
    s.observe (fact :: facts) = (s.observeCall fact).observe facts := rfl

theorem observe_append (s : Survey) (front back : List CallFact) :
    s.observe (front ++ back) = (s.observe front).observe back :=
  List.foldl_append

/-- A function that the graph knows is not inserted again. -/
theorem observedNode_of_node? {s : Survey} {name : String} {node : Nat}
    (h : s.graph.node? name = some node) : s.observedNode name = (node, s) := by
  simp [observedNode, h]

/-- A function that is not known is inserted. -/
theorem graph_observedNode_of_none {s : Survey} {name : String}
    (h : s.graph.node? name = none) :
    (s.observedNode name).2.graph = (s.graph.insert (.observed name)).2 := by
  simp [observedNode, h]

end Survey

/-! ## Coverage reports -/

/-- Block coverage of one function. -/
structure CoverageRecord where
  name : String
  /-- The file name of the source, without directories. -/
  file : String := ""
  path : String := ""
  totalBlocks : UInt32 := 0
  covered : UInt32 := 0
  deriving Repr, DecidableEq

namespace CoverageRecord

/-! ### Merging -/

/-- Merge one record.  A function that is recorded already keeps its place, and
takes the incoming record when that covers strictly more. -/
def mergeOne (records : List CoverageRecord) (incoming : CoverageRecord) :
    List CoverageRecord :=
  match records with
  | [] => [incoming]
  | known :: rest =>
    if known.name = incoming.name then
      (if known.covered < incoming.covered then incoming else known) :: rest
    else known :: mergeOne rest incoming

/-- Merge records one after another. -/
def merge (records incoming : List CoverageRecord) : List CoverageRecord :=
  incoming.foldl mergeOne records

@[simp] theorem merge_nil (records : List CoverageRecord) : merge records [] = records := rfl

theorem merge_append (records front back : List CoverageRecord) :
    merge records (front ++ back) = merge (merge records front) back :=
  List.foldl_append

/-- Merging one record adds its name at the end, unless the name is there. -/
theorem map_name_mergeOne (records : List CoverageRecord) (incoming : CoverageRecord) :
    (mergeOne records incoming).map (·.name) =
      if incoming.name ∈ records.map (·.name) then records.map (·.name)
      else records.map (·.name) ++ [incoming.name] := by
  induction records with
  | nil => simp [mergeOne]
  | cons known rest ih =>
    rw [mergeOne]
    by_cases h : known.name = incoming.name
    · simp only [h, if_true, List.map_cons, List.mem_cons, true_or]
      split <;> simp [h]
    · simp only [h, if_false, List.map_cons, ih, List.mem_cons, Ne.symm h, false_or]
      split <;> simp_all

/-! ### Lines of a report -/

/-- The number of blocks that a percentage of a total stands for, rounded down.
A share outside the range of a percentage is cut off at none or all, and no
number stands for none. -/
def blocksOf (percent : Float) (total : UInt32) : UInt32 :=
  let all := total.toFloat
  let share := (percent * all / 100.0).floor
  (if share < 0.0 then 0.0 else if all < share then all else share).toUInt32

/-- The total and the covered blocks on a line
`Taken at least once:percent% of total`. -/
def taken? (line : List Char) : Option (UInt32 × UInt32) :=
  match Text.cutAt "% of ".toList line with
  | some (head, tail) =>
    match Text.word32? (Text.trim tail), Text.pieces ':' head with
    | some total, _ :: percent :: _ =>
      (Text.Decimal.parse? (Text.trim percent)).map fun value =>
        (total, blocksOf value.toFloat total)
    | _, _ => none
  | none => none

/-- The text between the first two apostrophes of a line, or up to the end. -/
def quoted? (line : List Char) : Option (List Char) :=
  match Text.pieces '\x27' line with
  | _ :: text :: _ => some text
  | _ => none

/-- The part of a path after the last slash. -/
def fileOfPath (path : List Char) : List Char :=
  (path.reverse.takeWhile (· != '/')).reverse

/-- A line of a report, as far as it matters. -/
inductive ReportLine where
  /-- The head of a function section, with the name if one is quoted. -/
  | function (name : Option String)
  /-- The head of a file section, with the path if one is quoted. -/
  | file (path : Option (List Char))
  /-- A share of taken blocks: total and covered, if they can be read. -/
  | taken (blocks : Option (UInt32 × UInt32))
  | blank
  | other
  deriving Repr, DecidableEq

/-- Classify a line. -/
def ReportLine.ofLine (line : List Char) : ReportLine :=
  if "Function".toList.isPrefixOf line then .function ((quoted? line).map String.ofList)
  else if "File ".toList.isPrefixOf line then .file (quoted? line)
  else if "Taken at least once".toList.isPrefixOf line then .taken (taken? line)
  else if Text.isBlankLine line then .blank
  else .other

/-! ### Reading a report -/

/-- The section that a reader is in. -/
inductive ReportSection where
  | outside | function | file
  deriving Repr, DecidableEq

/-- The state of reading a report. -/
structure ReportReader where
  /-- Merged records whose file is known. -/
  records : List CoverageRecord := []
  /-- Records of closed function sections, waiting for their file. -/
  pending : List CoverageRecord := []
  /-- The record of the open function section. -/
  current : Option CoverageRecord := none
  part : ReportSection := .outside
  deriving Repr, DecidableEq

namespace ReportReader

/-- Close the open section: a function section joins the pending ones, and a
file section releases them. -/
def close (r : ReportReader) : ReportReader :=
  match r.part with
  | .function =>
    { r with pending := r.pending ++ r.current.toList, current := none, part := .outside }
  | .file =>
    { r with
      records := merge r.records r.pending, pending := [], current := none, part := .outside }
  | .outside => { r with current := none }

/-- Enter the path of the source into the pending records. -/
def setFile (r : ReportReader) (path : List Char) : ReportReader :=
  { r with
    pending := r.pending.map fun record =>
      { record with file := String.ofList (fileOfPath path), path := String.ofList path } }

/-- Read one line. -/
def read (r : ReportReader) : ReportLine → ReportReader
  | .function name => { r with current := name.map fun n => { name := n }, part := .function }
  | .file path =>
    { (match path with
        | some p => r.setFile p
        | none => r) with part := .file }
  | .taken (some (total, covered)) =>
    if r.part = .function then
      { r with
        current := r.current.map fun record =>
          { record with totalBlocks := total, covered := covered } }
    else r
  | .taken none => r
  | .blank => r.close
  | .other => r

end ReportReader

/-- The records of a coverage report. -/
def parseReport (text : String) : List CoverageRecord :=
  (((Text.lines text).map ReportLine.ofLine).foldl ReportReader.read {}).close.records

end CoverageRecord

/-! ## Merging a profiling pass into the graph -/

/-- Slide the coverage window of a function to a new record. -/
def Annotations.slide (notes : Annotations) (record : CoverageRecord) : Annotations :=
  match notes.totalBlocks with
  | none =>
    { notes with
      totalBlocks := some record.totalBlocks, coveredBefore := 0, coveredNow := record.covered }
  | some _ =>
    { notes with coveredBefore := notes.coveredNow, coveredNow := record.covered }

@[simp] theorem Annotations.coveredNow_slide (notes : Annotations) (record : CoverageRecord) :
    (notes.slide record).coveredNow = record.covered := by
  unfold slide
  split <;> rfl

/-- The two texts that a profiling pass yields. -/
structure ProfileOutput where
  callLog : String := ""
  coverageReport : String := ""
  deriving Repr, DecidableEq

/-- What a profiling pass changed. -/
structure IngestReport where
  /-- The functions named in the call log, in the order of their first mention. -/
  coveredFunctions : List String
  seedsProfiled : Nat
  verticesAdded : Nat
  edgesAdded : Nat
  verticesUpdated : Nat
  deriving Repr, DecidableEq

namespace CallGraph

/-- Slide the window of the function that a record names; the answer counts the
functions that were found. -/
def applyRecord (g : CallGraph) (record : CoverageRecord) : Nat × CallGraph :=
  match g.node? record.name with
  | some node =>
    if g.hasNode node then (1, g.annotate node (·.slide record)) else (0, g)
  | none => (0, g)

/-- Slide the window of every function that a record names, and count them. -/
def applyCoverage (g : CallGraph) : List CoverageRecord → Nat × CallGraph
  | [] => (0, g)
  | record :: records =>
    let first := g.applyRecord record
    let rest := first.2.applyCoverage records
    (first.1 + rest.1, rest.2)

end CallGraph

/-- Merge the output of a profiling pass into the graph. -/
def Survey.ingest (s : Survey) (output : ProfileOutput) : IngestReport × Survey :=
  let facts := CallFact.parseLog output.callLog
  let extended := s.observe facts
  let updated := extended.graph.applyCoverage (CoverageRecord.parseReport output.coverageReport)
  ({ coveredFunctions := CallFact.touched facts
     seedsProfiled := 0
     verticesAdded := updated.2.vertexCount - s.graph.vertexCount
     edgesAdded := updated.2.edgeCount - s.graph.edgeCount
     verticesUpdated := updated.1 },
    { extended with graph := updated.2 })

end FuzzCampaign

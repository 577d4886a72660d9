import FuzzCampaign.CallGraph.Dot
import FuzzCampaign.Coverage.Seeds
import FuzzCampaign.Fleet.Worker

/-!
# Inputs and preflight checks

Everything that is read before a campaign starts: the call graph of the program
under test and the two indices of its functions.

Settings and inputs are checked without starting anything: the settings have to
be accepted, the inputs have to be readable, and pruning is tried on the graph.

Main definitions:

- `CampaignInputs.load`.
- `CampaignError`, with its wording and its causes.
- `preflight`, and the text of its report.
-/

namespace FuzzCampaign

/-! ## The inputs of a campaign -/

/-- Why the inputs of a campaign could not be read. -/
inductive InputError where
  | graph (error : GraphError)
  | unreadableGraph (path : Path) (fault : Fault)
  | unreadableIndex (path : Path) (fault : Fault)
  deriving Repr, DecidableEq

namespace InputError

/-- The wording of an input error. -/
def message : InputError → String
  | graph error => error.message
  | unreadableGraph path fault =>
    "Failed to read call graph " ++ path.text ++ ": " ++ fault.message
  | unreadableIndex path fault =>
    "Failed to read index file " ++ path.text ++ ": " ++ fault.message

/-- What lies underneath an error. -/
def causes : InputError → List String
  | graph _ => []
  | unreadableGraph _ fault => [fault.message]
  | unreadableIndex _ fault => [fault.message]

end InputError

section

variable {σ : Type} (files : FileSystem σ)

/-- Read a call graph with a given entry. -/
def CallGraph.load (path : Path) (entry : String) : Action σ InputError CallGraph := do
  let text ← (files.readText path).orFail (.unreadableGraph path)
  match CallGraph.ofDot text entry with
  | .ok graph => return graph
  | .error error => throw (.graph error)

/-- Read a source index. -/
def SourceIndex.load (path : Path) : Action σ InputError SourceIndex := do
  let text ← (files.readText path).orFail (.unreadableIndex path)
  return SourceIndex.parse text

/-- Read a block index. -/
def BlockIndex.load (path : Path) : Action σ InputError BlockIndex := do
  let text ← (files.readText path).orFail (.unreadableIndex path)
  return BlockIndex.parse text

end

/-- What a campaign starts from. -/
structure CampaignInputs where
  graph : CallGraph
  sources : SourceIndex
  blocks : BlockIndex

/-- Read the inputs that settings name. -/
def CampaignInputs.load {σ : Type} (files : FileSystem σ) (settings : Settings) :
    Action σ InputError CampaignInputs := do
  let graph ← CallGraph.load files settings.inputs.callGraph settings.campaign.entryFunction
  let sources ← SourceIndex.load files settings.inputs.sourceIndex
  let blocks ← BlockIndex.load files settings.inputs.blockIndex
  return ⟨graph, sources, blocks⟩

/-! ## What ends a campaign early -/

/-- Why a campaign ended early. -/
inductive CampaignError where
  | input (error : InputError)
  | staging (error : StagingError)
  | launch (error : WorkerError)
  | partition (error : PartitionError)
  | coverage (error : CoverageError)
  | schedule (error : ScheduleError)
  | io (path : Path) (fault : Fault)
  /-- The operator asked the campaign to stop. -/
  | interrupted (round : Nat)
  deriving Repr, DecidableEq

/-- What inputs a complaint is about. -/
def InputError.heading : InputError → String
  | graph _ => "Malformed call graph: "
  | unreadableGraph _ _ => "Malformed call graph: "
  | unreadableIndex _ _ => "Failed to load function index: "

namespace CampaignError

/-- The wording of a campaign error. -/
def message : CampaignError → String
  | input error => error.heading ++ error.message
  | staging error => "Seed staging failed: " ++ error.message
  | launch error => "Worker launch failed: " ++ error.message
  | partition error => "Partitioning failed: " ++ error.message
  | coverage error => "Coverage refresh failed: " ++ error.message
  | schedule error => "Invalid campaign configuration: " ++ error.message
  | io path fault => "Campaign I/O error on " ++ path.text ++ ": " ++ fault.message
  | interrupted round => "Campaign interrupted during round " ++ toString round

/-- What lies underneath an error, the outermost first. -/
def causes : CampaignError → List String
  | input error => error.message :: error.causes
  | staging error => error.message :: error.causes
  | launch error => [error.message, error.fault.message]
  | partition error => error.message :: error.causes
  | coverage error => error.message :: error.causes
  | schedule error => [error.message]
  | io _ fault => [fault.message]
  | interrupted _ => []

end CampaignError

/-! ## Preflight checks -/

/-- What a preflight check found. -/
structure PreflightReport where
  exploitationRounds : Nat
  roundWorkers : Nat
  loadedVertices : Nat
  loadedEdges : Nat
  pruned : PruneReport
  vertices : Nat
  edges : Nat
  isAcyclic : Bool
  deriving Repr, DecidableEq

/-- The text of a report. -/
def PreflightReport.render (r : PreflightReport) : String :=
  "Rounds:       1 scanning + " ++ toString r.exploitationRounds ++ " exploitation, " ++
    toString r.roundWorkers ++ " round worker(s) each\n" ++
  "Call graph:   " ++ toString r.loadedVertices ++ " vertices, " ++ toString r.loadedEdges ++
    " edges as loaded\n" ++
  "Pruned:       " ++ toString r.pruned.uninstrumented ++ " uninstrumented, " ++
    toString r.pruned.disconnected ++ " disconnected, " ++
    toString r.pruned.unreachable ++ " unreachable\n" ++
  "After prune:  " ++ toString r.vertices ++ " vertices, " ++ toString r.edges ++ " edges (" ++
    (if r.isAcyclic then "acyclic" else "cyclic") ++ ")"

/-- What pruning does to the inputs of a campaign. -/
def CampaignInputs.rehearsePruning (inputs : CampaignInputs) : PruneReport × CallGraph :=
  let pruned := (⟨inputs.graph, {}⟩ : Survey).prune inputs.blocks
  (pruned.1, pruned.2.graph)

/-- Check settings and inputs. -/
def preflight {σ : Type} (files : FileSystem σ) (settings : Settings) :
    Action σ CampaignError PreflightReport := do
  match settings.campaign.exploitationRounds with
  | .error error => throw (.schedule error)
  | .ok rounds =>
    let inputs ← (CampaignInputs.load files settings).orFail .input
    let (pruned, graph) := inputs.rehearsePruning
    return {
      exploitationRounds := rounds
      roundWorkers := settings.roundWorkers
      loadedVertices := inputs.graph.vertexCount
      loadedEdges := inputs.graph.edgeCount
      pruned := pruned
      vertices := graph.vertexCount
      edges := graph.edgeCount
      isAcyclic := graph.isAcyclic }

end FuzzCampaign

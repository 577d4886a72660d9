import FuzzCampaign.CallGraph.ShortestPath
import FuzzCampaign.Fleet.Layout
import FuzzCampaign.Index
import FuzzCampaign.Partition.Balance
import FuzzCampaign.Partition.Cluster
import FuzzCampaign.Partition.Score

/-!
# Partition plans

A plan hands the functions of a pruned graph to a number of tasks.  The naive
strategy cuts the list of functions into ranges of nearly equal length.  The
tree strategy cuts the arborescence into clusters whose scores are within an
equal share, and packs the clusters into tasks; every cluster also obliges the
functions on a shortest path from the entry to its top.

A task is written as its obligations, one line `file:function` for each source
location of its functions, and written to a numbered file.

Main definitions:

- `CallGraph.splitNaive` and `CallGraph.splitTree`.
- `Task.render`: the text of a task file.
- `PartitionPlan.writeTasks`: write the tasks of a plan to files.
-/

namespace FuzzCampaign

/-! ## Strategies and errors -/

/-- How a graph is cut into tasks. -/
inductive Strategy where
  | tree | naive
  deriving Repr, DecidableEq, Inhabited

namespace Strategy

/-- The word written for a strategy. -/
def word : Strategy → String
  | tree => "tree"
  | naive => "naive"

/-- The strategy that a word stands for. -/
def ofWord? (word : String) : Option Strategy :=
  if word = "tree" then some tree else if word = "naive" then some naive else none

@[simp] theorem ofWord?_word (s : Strategy) : ofWord? s.word = some s := by
  cases s <;> rfl

/-- The complaint about a word that stands for no strategy. -/
def unknownMessage (word : String) : String :=
  "unknown partitioning algorithm '" ++ word ++ "' (expected tree or naive)"

end Strategy

/-- Why a graph could not be partitioned. -/
inductive PartitionError where
  /-- No tasks were asked for, or there is nothing to hand out. -/
  | capacity (tasks totalScore : Nat)
  /-- The entry does not reach every function. -/
  | notSpanning
  /-- A task file could not be written. -/
  | taskFile (path : String) (fault : Fault)
  deriving Repr, DecidableEq

/-- The wording of a partition error. -/
def PartitionError.message : PartitionError → String
  | capacity tasks totalScore =>
    "Cannot split a total score of " ++ toString totalScore ++ " into " ++ toString tasks ++
      " task(s)"
  | notSpanning =>
    "Call graph has vertices unreachable from the entry; prune it before partitioning"
  | taskFile path fault => "Failed to write task file " ++ path ++ ": " ++ fault.message

/-! ## Tasks -/

/-- A source file and a function defined in it. -/
structure Obligation where
  sourceFile : String
  function : String
  deriving Repr, DecidableEq

namespace Obligation

/-- Obligations are ordered by file and then by function. -/
def precedes (a b : Obligation) : Bool :=
  decide (a.sourceFile < b.sourceFile) ||
    (decide (a.sourceFile = b.sourceFile) && decide (a.function ≤ b.function))

/-- The line of an obligation, without its end. -/
def render (o : Obligation) : String := o.sourceFile ++ ":" ++ o.function

/-- Each obligation once, in ascending order. -/
def arrange (obligations : List Obligation) : List Obligation :=
  obligations.eraseDups.mergeSort precedes

theorem mem_arrange {obligations : List Obligation} {o : Obligation} :
    o ∈ arrange obligations ↔ o ∈ obligations := by
  rw [arrange, (List.mergeSort_perm _ _).mem_iff, List.mem_eraseDups]

end Obligation

/-- The part of a graph that one worker is responsible for. -/
structure Task where
  vertices : List Nat := []
  /-- What the worker has to fuzz, in ascending order. -/
  obligations : List Obligation := []
  weight : Nat := 0
  deriving Repr, DecidableEq

/-- The text of a task file. -/
def Task.render (task : Task) : String :=
  String.join (task.obligations.map fun o => o.render ++ "\n")

/-- The tasks of a round. -/
structure PartitionPlan where
  tasks : List Task
  /-- How many clusters were packed; the number of tasks for the naive split. -/
  partitions : Nat
  /-- The edges of the tree that was cut, if there was one. -/
  arborescence : Option (List (Nat × Nat)) := none
  deriving Repr, DecidableEq

namespace CallGraph

/-- The obligations of one function: one for each of its source locations. -/
def obligationsOf (g : CallGraph) (sources : SourceIndex) (node : Nat) : List Obligation :=
  match g.name? node with
  | some name => (sources.values name).map fun location => ⟨location.file, name⟩
  | none => []

/-- The obligations of a list of functions. -/
def obligations (g : CallGraph) (sources : SourceIndex) (nodes : List Nat) : List Obligation :=
  Obligation.arrange (nodes.flatMap (g.obligationsOf sources))

/-- Give a function the colour of its task. -/
def paint (color : Color) (g : CallGraph) (node : Nat) : CallGraph :=
  g.annotate node fun notes => { notes with color := some color }

/-- Give the call between two functions the colour of a task. -/
def paintCall (color : Color) (caller : Nat) (g : CallGraph) (callee : Nat) : CallGraph :=
  match g.arc? caller callee with
  | some arc => g.modifyCall arc.index fun call => { call with color := some color }
  | none => g

/-! ## The naive strategy -/

/-- The first position of the `i`-th of `k` ranges over `n` positions.  The
first `n % k` ranges are one longer than the others. -/
def rangeStart (n k i : Nat) : Nat := i * (n / k) + min i (n % k)

/-- The functions of the `i`-th of `k` ranges. -/
def slice (nodes : List Nat) (k i : Nat) : List Nat :=
  (nodes.drop (rangeStart nodes.length k i)).take
    (rangeStart nodes.length k (i + 1) - rangeStart nodes.length k i)

/-- The task of a range of functions. -/
def sliceTask (g : CallGraph) (sources : SourceIndex) (nodes : List Nat) : Task where
  vertices := nodes
  obligations := g.obligations sources nodes
  weight := nodes.length

/-- Cut the list of functions into `k` ranges of nearly equal length. -/
def splitNaive (g : CallGraph) (k : Nat) (sources : SourceIndex) :
    Except PartitionError PartitionPlan × CallGraph :=
  if k = 0 then (.error (.capacity k g.vertexCount), g)
  else
    let slices := (List.range k).map (slice g.nodes k)
    let plan : PartitionPlan :=
      { tasks := slices.map (g.sliceTask sources), partitions := k }
    let painted := slices.zipIdx.foldl
      (fun g (nodes, i) => nodes.foldl (paint (Color.ofTask i)) g) g.clearColors
    (.ok plan, painted)

/-! ## The tree strategy -/

/-- The functions that a cluster obliges: its own, and those on a shortest path
from the entry to its top. -/
def foothold (g : CallGraph) (cluster : Cluster) : List Nat :=
  match cluster.vertices with
  | [] => []
  | top :: _ => (g.shortestPath? g.entry top).getD [] ++ cluster.vertices

/-- The task of a bin of clusters. -/
def binTask (g : CallGraph) (sources : SourceIndex) (bin : Bin Cluster) : Task where
  vertices := bin.items.flatMap (·.vertices)
  obligations := g.obligations sources (bin.items.flatMap g.foothold)
  weight := bin.weight

/-- Give a function and its calls in the tree the colour of a task. -/
def paintBranch (t : Arborescence) (color : Color) (g : CallGraph) (node : Nat) : CallGraph :=
  (t.children node).foldl (paintCall color node) (g.paint color node)

/-- The smallest integer not below the quotient. -/
def shareOf (total k : Nat) : Nat := (total + k - 1) / k

/-- Cut the arborescence into clusters and pack them into `k` tasks.  Scores are
assigned first, also when there turns out to be nothing to hand out. -/
def splitTree (g : CallGraph) (k : Nat) (sources : SourceIndex) (cap : ScoreCap) :
    Except PartitionError PartitionPlan × CallGraph :=
  match g.arborescence? with
  | none => (.error .notSpanning, g)
  | some tree =>
    let (stats, scored) := g.assignScores cap
    if k = 0 ∨ stats.total = 0 then (.error (.capacity k stats.total), scored)
    else
      let clusters := tree.clusters scored.scoreOf (shareOf stats.total k)
      let bins := balance Cluster.weight clusters k
      let plan : PartitionPlan :=
        { tasks := bins.map (scored.binTask sources)
          partitions := clusters.length
          arborescence := some tree.edges }
      let painted := plan.tasks.zipIdx.foldl
        (fun g (task, i) => task.vertices.foldl (paintBranch tree (Color.ofTask i)) g)
        scored.clearColors
      (.ok plan, painted)

/-- Cut a graph into `k` tasks by a strategy. -/
def split (g : CallGraph) (strategy : Strategy) (k : Nat) (sources : SourceIndex)
    (cap : ScoreCap) : Except PartitionError PartitionPlan × CallGraph :=
  match strategy with
  | .tree => g.splitTree k sources cap
  | .naive => g.splitNaive k sources

end CallGraph

/-! ## Task files -/

/-- Write tasks to numbered files, counted from `number` on. -/
def Task.writeAll {σ : Type} (files : FileSystem σ) (dir : Path) :
    Nat → List Task → Action σ PartitionError (List Path)
  | _, [] => return []
  | number, task :: rest => do
    let file := Layout.taskFile dir number
    (files.writeText file task.render).orFail (.taskFile file.text)
    let others ← writeAll files dir (number + 1) rest
    return file :: others

/-- Write the tasks of a plan into a directory.  The answer lists the files. -/
def PartitionPlan.writeTasks {σ : Type} (plan : PartitionPlan) (files : FileSystem σ)
    (dir : Path) : Action σ PartitionError (List Path) :=
  Task.writeAll files dir 1 plan.tasks

/-- What lies underneath a partition error. -/
def PartitionError.causes : PartitionError → List String
  | .taskFile _ fault => [fault.message]
  | .capacity _ _ => []
  | .notSpanning => []

end FuzzCampaign

import FuzzCampaign.CallGraph.ShortestPath
import FuzzCampaign.Campaign.State
import FuzzCampaign.Index

/-!
# Pruning

Functions that no task can use are removed from the call graph in three
passes, each finishing before the next starts: functions without instrumented
blocks, functions without any call, and functions that the entry does not
reach.  The entry survives every pass.  The names of removed functions are
parked in the spare set.

Main definitions:

- `CallGraph.prune`: the three passes, with a report of what each removed.
-/

namespace FuzzCampaign

/-- How many functions each pass removed. -/
structure PruneReport where
  uninstrumented : Nat := 0
  disconnected : Nat := 0
  unreachable : Nat := 0
  deriving Repr, DecidableEq

/-- How many functions were removed in all. -/
def PruneReport.total (report : PruneReport) : Nat :=
  report.uninstrumented + report.disconnected + report.unreachable

/-- A call graph together with the campaign's bookkeeping. -/
structure Survey where
  graph : CallGraph
  state : CampaignState

namespace Survey

/-- Remove one function and park its name; the entry is left alone.  The answer
counts the removed functions. -/
def drop (s : Survey) (node : Nat) : Nat × Survey :=
  match s.graph.remove node with
  | (some v, graph) => (1, ⟨graph, s.state.park v.name⟩)
  | (none, graph) => (0, ⟨graph, s.state⟩)

/-- Remove a list of functions and count the removed ones. -/
def dropAll (s : Survey) : List Nat → Nat × Survey
  | [] => (0, s)
  | node :: rest =>
    let first := s.drop node
    let others := first.2.dropAll rest
    (first.1 + others.1, others.2)

@[simp] theorem dropAll_nil (s : Survey) : s.dropAll [] = (0, s) := rfl

end Survey

namespace CallGraph

/-- Enter the instrumented locations of one function, if the index has any. -/
def locate (blocks : BlockIndex) (g : CallGraph) (node : Nat) : CallGraph :=
  match g.name? node with
  | none => g
  | some name =>
    match blocks.find? name with
    | some locations => g.annotate node fun notes => { notes with locations := locations }
    | none => g

/-- Enter the instrumented locations of every function. -/
def locateAll (blocks : BlockIndex) (g : CallGraph) : CallGraph := g.nodes.foldl (locate blocks) g

/-- The functions besides the entry that have no instrumented block. -/
def uninstrumented (blocks : BlockIndex) (g : CallGraph) : List Nat :=
  g.nodes.filter fun node =>
    node != g.entry && (g.name? node).any fun name => !blocks.contains name

/-- The functions besides the entry that neither make nor receive a call. -/
def disconnected (g : CallGraph) : List Nat :=
  g.nodes.filter fun node => node != g.entry && g.inDegree node == 0 && g.outDegree node == 0

/-- The functions that the entry does not reach. -/
def unreachable (g : CallGraph) : List Nat :=
  let reached := g.reachable g.entry
  g.nodes.filter fun node => !reached.contains node

end CallGraph

namespace Survey

/-- The first pass: enter the instrumented locations and remove the functions
that have none. -/
def dropUninstrumented (blocks : BlockIndex) (s : Survey) : Nat × Survey :=
  (⟨s.graph.locateAll blocks, s.state⟩ : Survey).dropAll (s.graph.uninstrumented blocks)

/-- The second pass: remove the functions without any call. -/
def dropDisconnected (s : Survey) : Nat × Survey := s.dropAll s.graph.disconnected

/-- The third pass: remove the functions that the entry does not reach. -/
def dropUnreachable (s : Survey) : Nat × Survey := s.dropAll s.graph.unreachable

/-- Remove every function that no task can use. -/
def prune (blocks : BlockIndex) (s : Survey) : PruneReport × Survey :=
  let first := s.dropUninstrumented blocks
  let second := first.2.dropDisconnected
  let third := second.2.dropUnreachable
  (⟨first.1, second.1, third.1⟩, third.2)

end Survey

end FuzzCampaign

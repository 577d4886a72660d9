import FuzzCampaign.Arborescence.Tree
import FuzzCampaign.Weight

/-!
# Cutting a tree into clusters

The tree is cut bottom-up.  Children come before their parent; the cluster of a
child joins that of its parent as long as the sum stays within a capacity, and
is finished otherwise.  A single function that is heavier than the capacity
still forms a cluster.

Main definitions:

- `Arborescence.clusters`: the finished clusters, that of the root last.
-/

namespace FuzzCampaign

/-- A connected piece of a tree, its top function first. -/
structure Cluster where
  vertices : List Nat
  weight : Nat
  deriving Repr, DecidableEq

namespace Cluster

/-- The cluster of a single function. -/
def single (node weight : Nat) : Cluster := ⟨[node], weight⟩

/-- Two clusters as one. -/
def append (a b : Cluster) : Cluster := ⟨a.vertices ++ b.vertices, Weight.add a.weight b.weight⟩

end Cluster

/-- The state of cutting a tree. -/
structure Cutting where
  /-- The clusters that may still grow, by their top functions. -/
  growing : List (Nat × Cluster) := []
  finished : List Cluster := []
  deriving Repr, DecidableEq

namespace Cutting

/-- Take the growing cluster of a function. -/
def take? (c : Cutting) (node : Nat) : Option (Cluster × Cutting) :=
  (c.growing.lookup node).map fun cluster =>
    (cluster, { c with growing := c.growing.filter (·.1 != node) })

/-- Let the cluster of a child join a cluster, or finish it when the sum would
exceed the capacity. -/
def absorb (capacity : Nat) (state : Cluster × Cutting) (child : Nat) : Cluster × Cutting :=
  match state.2.take? child with
  | none => state
  | some (sub, cutting) =>
    if Weight.add state.1.weight sub.weight ≤ capacity then (state.1.append sub, cutting)
    else (state.1, { cutting with finished := cutting.finished ++ [sub] })

/-- Visit a function whose children were visited before. -/
def visit (t : Arborescence) (weigh : Nat → Nat) (capacity : Nat) (c : Cutting) (node : Nat) :
    Cutting :=
  let (cluster, c) := (t.children node).foldl (absorb capacity) (.single node (weigh node), c)
  { c with growing := (node, cluster) :: c.growing }

/-- Finish the cluster of the root. -/
def close (c : Cutting) (root : Nat) : List Cluster :=
  match c.take? root with
  | some (cluster, c) => c.finished ++ [cluster]
  | none => c.finished

end Cutting

/-- Cut a tree into connected clusters within a capacity. -/
def Arborescence.clusters (t : Arborescence) (weigh : Nat → Nat) (capacity : Nat) :
    List Cluster :=
  (t.postOrder.foldl (Cutting.visit t weigh capacity) {}).close t.root

end FuzzCampaign

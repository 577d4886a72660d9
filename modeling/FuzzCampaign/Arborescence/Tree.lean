import FuzzCampaign.Arborescence.Edmonds
import FuzzCampaign.CallGraph.Basic

/-!
# The arborescence of a call graph

A spanning tree of the call graph directed away from the entry, of least total
call weight.  Its edges are listed by ascending child, and parents and children
are read off that list.

Main definitions:

- `CallGraph.arborescence?`: the tree, when the entry reaches every function.
- `Arborescence.postOrder`: children before their parent, the root last.
- `Arborescence.turn`: one turn of the loop that lists them.
-/

namespace FuzzCampaign

/-- A tree of functions directed away from its root. -/
structure Arborescence where
  root : Nat
  /-- Pairs of parent and child. -/
  edges : List (Nat × Nat)
  deriving Repr, DecidableEq

namespace Arborescence

/-- The parent of a function; the root has none. -/
def parent? (t : Arborescence) (node : Nat) : Option Nat :=
  (t.edges.find? (·.2 == node)).map (·.1)

/-- The children of a function, ascending. -/
def children (t : Arborescence) (node : Nat) : List Nat :=
  (t.edges.filter (·.1 == node)).map (·.2)

/-- How many functions the tree spans. -/
def vertexCount (t : Arborescence) : Nat := t.edges.length + 1

theorem mem_children {t : Arborescence} {parent child : Nat} :
    child ∈ t.children parent ↔ (parent, child) ∈ t.edges := by
  simp only [children, List.mem_map, List.mem_filter, beq_iff_eq]
  constructor
  · rintro ⟨⟨p, c⟩, ⟨hmem, rfl⟩, rfl⟩
    exact hmem
  · intro h
    exact ⟨(parent, child), ⟨h, rfl⟩, rfl⟩

/-- One turn of the listing: the entry that is on top of the stack is taken off.  A function is
first put back, marked, below its children, and listed when it comes up again. -/
def turn (t : Arborescence) : List Nat × List (Nat × Bool) → List Nat × List (Nat × Bool)
  | (order, []) => (order, [])
  | (order, (node, true) :: stack) => (order ++ [node], stack)
  | (order, (node, false) :: stack) =>
    (order, (t.children node).map (·, false) ++ (node, true) :: stack)

/-- List functions with an explicit stack, from which at most `fuel` entries are taken. -/
def listFrom (t : Arborescence) : Nat → List (Nat × Bool) → List Nat
  | 0, _ => []
  | _ + 1, [] => []
  | fuel + 1, (node, true) :: stack => node :: listFrom t fuel stack
  | fuel + 1, (node, false) :: stack =>
    listFrom t fuel ((t.children node).map (·, false) ++ (node, true) :: stack)

/-- Every function after all of its descendants.  Each function comes up twice,
so that twice the number of functions bounds the listing. -/
def postOrder (t : Arborescence) : List Nat := t.listFrom (2 * t.vertexCount) [(t.root, false)]

end Arborescence

namespace CallGraph

/-- The position of a function among all functions. -/
def rank (g : CallGraph) (node : Nat) : Nat := g.nodes.idxOf node

/-- The calls of a graph as weighted edges between positions. -/
def weightedEdges (g : CallGraph) : Array WeightedEdge :=
  (g.arcsInOrder.map fun arc =>
    { source := g.rank arc.caller, target := g.rank arc.callee,
      weight := arc.call.weight.toNat : WeightedEdge }).toArray

/-- The spanning tree of least total weight that is directed away from the
entry; `none` when the entry does not reach every function. -/
def arborescence? (g : CallGraph) : Option Arborescence :=
  let arcs := g.arcsInOrder
  (edmonds g.vertexCount (g.rank g.entry) g.weightedEdges).map fun chosen =>
    { root := g.entry
      edges := (chosen.filterMap fun index => arcs[index]?.map fun arc => (arc.caller, arc.callee))
        |>.mergeSort fun a b => decide (a.2 ≤ b.2) }

end CallGraph

end FuzzCampaign

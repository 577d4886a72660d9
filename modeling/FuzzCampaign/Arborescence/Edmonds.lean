import FuzzCampaign.Arborescence.Classes
import FuzzCampaign.Arborescence.EdgeHeap

/-!
# Minimum spanning arborescences

From the edges of a weighted directed graph, one edge into every vertex other
than the root is chosen, such that the chosen edges form a tree of least total
weight that is directed away from the root.

Every vertex keeps the edges into it in a heap.  A walk starts at each vertex
in turn and goes backwards along the lightest edge that comes from outside.
When it meets itself, the cycle is contracted: its vertices become one class,
their heaps become one heap, in which every edge weighs less by the weight of
the cycle edge that it would replace.  A walk ends at a vertex of an earlier
walk, or at the root.  Afterwards the contractions are undone, the latest
first: a cycle keeps its edges, except the one into the vertex at which the
chosen edge enters the cycle.

Every step of a walk takes an edge out of a heap, so the number of edges bounds
the number of steps.

The same search is made step by step, on heaps in a store and on tables.  There is no
next step where an entry of a table or a node of the store does not exist, where the way
back along a walk comes to its end before the cycle is closed, or where a number arises that
is not allowed.

Main definitions:

- `Edmonds.walk` and `Edmonds.contract`: building up the contractions.
- `Edmonds.expand`: undoing them.
- `edmonds`: the chosen edges, by target; `none` when the root does not reach
  every vertex.
- `Search.step` and `Search.after`: one step of the search, and a number of them.
-/

namespace FuzzCampaign

/-- A directed edge with a weight. -/
structure WeightedEdge where
  source : Nat
  target : Nat
  weight : Int
  deriving Repr, DecidableEq, Inhabited

namespace Edmonds

/-- One step of a walk: the class that was left, and the edge into it. -/
structure Step where
  vertex : Nat
  edge : Nat
  deriving Repr, DecidableEq

/-- A contracted cycle. -/
structure Contraction where
  /-- The representative of the class of the cycle. -/
  representative : Nat
  /-- The time before the vertices of the cycle were joined. -/
  time : Nat
  /-- The edges of the cycle. -/
  edges : List Nat
  deriving Repr, DecidableEq

/-- The state of the walks. -/
structure State where
  /-- The edges into each class, by representative. -/
  queues : Array EdgeHeap
  classes : Classes
  /-- The start of the walk that visited each class, by representative. -/
  seen : Array (Option Nat)
  /-- The steps of the current walk, the latest first. -/
  path : List Step := []
  /-- The contracted cycles, the latest first. -/
  contractions : List Contraction := []

/-- The source of an edge, by number. -/
def source (edges : Array WeightedEdge) (edge : Nat) : Nat := (edges[edge]?.map (·.source)).getD 0

/-- The target of an edge, by number. -/
def target (edges : Array WeightedEdge) (edge : Nat) : Nat := (edges[edge]?.map (·.target)).getD 0

/-- The heap of edges into a class. -/
def queue (queues : Array EdgeHeap) (v : Nat) : EdgeHeap := queues[v]?.getD .nil

/-- Enter an edge into the heap of its target.  Loops and edges into the root
are no candidates. -/
def enqueue (root : Nat) (queues : Array EdgeHeap) (entry : WeightedEdge × Nat) :
    Array EdgeHeap :=
  let (e, index) := entry
  if e.source = e.target ∨ e.target = root then queues
  else
    queues.setIfInBounds e.target
      (.merge (queue queues e.target) (.singleton index e.weight))

/-- The candidate edges into each of `n` vertices. -/
def initialQueues (n root : Nat) (edges : Array WeightedEdge) : Array EdgeHeap :=
  edges.toList.zipIdx.foldl (enqueue root) (Array.replicate n .nil)

/-- The state before the first walk: the root counts as visited. -/
def initial (n root : Nat) (edges : Array WeightedEdge) : State where
  queues := initialQueues n root edges
  classes := Classes.discrete n
  seen := (Array.replicate n none).setIfInBounds root (some root)

/-- Drop edges that come from inside the class `u`, until the first edge of the
heap comes from outside or the heap is empty.  The heap in the answer is
settled. -/
def dropInternal (edges : Array WeightedEdge) (classes : Classes) (u : Nat) (h : EdgeHeap) :
    EdgeHeap :=
  match _hs : h.settle with
  | .nil => .nil
  | .node e k d l r n =>
    if classes.find (source edges e) = u then
      dropInternal edges classes u (EdgeHeap.node e k d l r n).pop
    else .node e k d l r n
termination_by h.size
decreasing_by
  have hlt : (EdgeHeap.node e k d l r n).pop.size < (EdgeHeap.node e k d l r n).size :=
    EdgeHeap.size_pop_lt (by simp)
  have hsize : (EdgeHeap.node e k d l r n).size = h.size := by rw [← _hs, EdgeHeap.size_settle]
  omega

/-- What comes out of contracting a cycle. -/
structure Contracted where
  heap : EdgeHeap
  classes : Classes
  /-- The edges of the cycle, in the order of the walk. -/
  cycle : List Nat
  /-- The steps before the cycle, the latest first. -/
  path : List Step

/-- Follow the walk back from its end and join every class on the way with `u`,
up to `u` itself. -/
def contract (queues : Array EdgeHeap) (u : Nat) :
    EdgeHeap → Classes → List Nat → List Step → Contracted
  | heap, classes, cycle, [] => ⟨heap, classes, cycle, []⟩
  | heap, classes, cycle, step :: rest =>
    let heap := heap.merge (queue queues step.vertex)
    match classes.union u step.vertex with
    | (true, classes) => contract queues u heap classes (step.edge :: cycle) rest
    | (false, _) => ⟨heap, classes, step.edge :: cycle, rest⟩

/-- Contract the cycle that the walk closed at the class `u`.  The class that
replaces it counts as not visited. -/
def State.contractCycle (s : State) (u : Nat) : Nat × State :=
  let done := contract s.queues u .nil s.classes [] s.path
  let representative := done.classes.find u
  (representative,
    { queues := s.queues.setIfInBounds representative done.heap
      classes := done.classes
      seen := s.seen.setIfInBounds representative none
      path := done.path
      contractions := ⟨representative, s.classes.time, done.cycle⟩ :: s.contractions })

/-- Leave the class `u` by an edge of the given weight, the first one of the
settled heap. -/
def State.leave (s : State) (start u edge : Nat) (weight : Int) (heap : EdgeHeap) : State :=
  { s with
    queues := s.queues.setIfInBounds u (heap.shift (-weight)).pop
    seen := s.seen.setIfInBounds u (some start)
    path := ⟨u, edge⟩ :: s.path }

/-- Walk backwards from the class `u` until a visited class is met.  The answer
is `none` when a class has no edge from outside, or after `fuel` steps. -/
def walk (edges : Array WeightedEdge) (start : Nat) : Nat → Nat → State → Option State
  | 0, _, _ => none
  | fuel + 1, u, s =>
    if (s.seen[u]?.join).isSome then some s
    else
      match dropInternal edges s.classes u (queue s.queues u) with
      | .nil => none
      | .node edge weight pending l r n =>
        let s := s.leave start u edge weight (.node edge weight pending l r n)
        let next := s.classes.find (source edges edge)
        if s.seen[next]?.join = some start then
          let (representative, s) := s.contractCycle next
          walk edges start fuel representative s
        else walk edges start fuel next s

/-- Enter an edge as the one chosen into the class of its target. -/
def choose (edges : Array WeightedEdge) (classes : Classes) (incoming : Array (Option Nat))
    (edge : Nat) : Array (Option Nat) :=
  incoming.setIfInBounds (classes.find (target edges edge)) (some edge)

/-- Walk from every vertex in turn.  After each walk its edges are chosen. -/
def walkAll (edges : Array WeightedEdge) :
    List Nat → State → Array (Option Nat) → Option (State × Array (Option Nat))
  | [], s, incoming => some (s, incoming)
  | start :: rest, s, incoming =>
    match walk edges start (edges.size + 1) start { s with path := [] } with
    | none => none
    | some s =>
      walkAll edges rest s
        ((s.path.map (·.edge)).reverse.foldl (choose edges s.classes) incoming)

/-- Undo one contraction: the cycle keeps its edges, except the one into the
vertex at which it is entered. -/
def expandOne (edges : Array WeightedEdge) (classes : Classes) (incoming : Array (Option Nat))
    (c : Contraction) : Array (Option Nat) :=
  let entering := incoming[c.representative]?.join
  (c.edges ++ entering.toList).foldl (choose edges classes) incoming

/-- Undo all contractions, the latest first. -/
def expand (edges : Array WeightedEdge) :
    List Contraction → Classes → Array (Option Nat) → Array (Option Nat)
  | [], _, incoming => incoming
  | c :: earlier, classes, incoming =>
    let classes := classes.rollback c.time
    expand edges earlier classes (expandOne edges classes incoming c)

/-- The edges chosen into the vertices other than the root; `none` when one is
missing. -/
def chosen (n root : Nat) (incoming : Array (Option Nat)) : Option (List Nat) :=
  ((List.range n).filter (· != root)).mapM fun v => incoming[v]?.join

end Edmonds

open Edmonds in
/-- The edges of a minimum spanning arborescence, by number and in the order of
their targets.  The answer is `none` when some vertex cannot be reached from
the root, or when the root is no vertex.  Of equally light candidates the one
with the lowest number is taken first. -/
def edmonds (n root : Nat) (edges : Array WeightedEdge) : Option (List Nat) :=
  if root < n then
    match walkAll edges (List.range n) (initial n root edges) (Array.replicate n none) with
    | some (s, incoming) => chosen n root (expand edges s.contractions s.classes incoming)
    | none => none
  else none

/-- A root outside the graph has no arborescence. -/
theorem edmonds_of_le {n root : Nat} (h : n ≤ root) (edges : Array WeightedEdge) :
    edmonds n root edges = none := by
  simp [edmonds, Nat.not_lt.2 h]

/-! ## The search step by step -/

namespace Edmonds

/-- Write an entry of a table. -/
def put {α : Type} (table : Array α) (i : Nat) (value : α) : Option (Array α) :=
  if i < table.size then some (table.setIfInBounds i value) else none

/-- What a search does next. -/
inductive Stage where
  /-- Walk from the next vertex. -/
  | resting (later : List Nat)
  /-- Go on with the walk from `start`, which stands at the class `u`. -/
  | walking (start u : Nat) (later : List Nat)
  /-- Contract the cycle that the walk from `start` has closed at the class `u`. -/
  | closing (start u : Nat) (later : List Nat)
  /-- Undo the contractions, the latest first. -/
  | expanding (contractions : List Contraction)
  | finished (answer : Option (List Nat))
  deriving Repr, DecidableEq

/-- A search that keeps its heaps in a store. -/
structure Search where
  stage : Stage
  heaps : HeapStore := {}
  /-- The root of the heap of each class, by representative. -/
  queues : Array (Option Nat)
  classes : Classes
  seen : Array (Option Nat)
  /-- The edges chosen so far, by the classes that they enter. -/
  incoming : Array (Option Nat)
  path : List Step := []
  contractions : List Contraction := []
  /-- The edges that were taken off heaps, the latest first. -/
  popped : List Nat := []
  deriving Repr, DecidableEq

/-- Enter an edge into the heap of its target. -/
def enter (allowed : Int → Bool) (root : Nat) (shelves : HeapStore × Array (Option Nat))
    (entry : WeightedEdge × Nat) : Option (HeapStore × Array (Option Nat)) := do
  let (heaps, queues) := shelves
  let (e, index) := entry
  if e.source = e.target ∨ e.target = root then some (heaps, queues)
  else
    let (single, heaps) := heaps.singleton index e.weight
    let queue ← queues[e.target]?
    let (merged, heaps) ← HeapStore.mergeIn allowed heaps.depthLimit heaps queue (some single)
    return (heaps, ← put queues e.target merged)

/-- Enter an edge as the one chosen into the class of its target. -/
def choose? (edges : Array WeightedEdge) (classes : Classes) (incoming : Array (Option Nat))
    (edge : Nat) : Option (Array (Option Nat)) := do
  let e ← edges[edge]?
  let v ← classes.find? e.target
  put incoming v (some edge)

/-- What comes out of contracting a cycle, in a store. -/
structure Gathered where
  heaps : HeapStore
  merged : Option Nat
  classes : Classes
  cycle : List Nat
  path : List Step

/-- Follow the walk back from its end and join every class on the way with `u`, up to `u`
itself. -/
def gather (allowed : Int → Bool) (queues : Array (Option Nat)) (u : Nat) :
    HeapStore → Option Nat → Classes → List Nat → List Step → Option Gathered
  | _, _, _, _, [] => none
  | heaps, merged, classes, cycle, step :: rest => do
    let queue ← queues[step.vertex]?
    let (merged, heaps) ← HeapStore.mergeIn allowed heaps.depthLimit heaps merged queue
    let (different, classes) ← classes.union? u step.vertex
    if different then gather allowed queues u heaps merged classes (step.edge :: cycle) rest
    else some ⟨heaps, merged, classes, step.edge :: cycle, rest⟩

namespace Search

/-- The search before the first walk.  It has ended at once when the root is no vertex. -/
def setOut (allowed : Int → Bool) (n root : Nat) (edges : Array WeightedEdge) : Option Search :=
  let start : Search :=
    { stage := .resting (List.range n), queues := Array.replicate n none
      classes := .discrete n, seen := Array.replicate n none, incoming := Array.replicate n none }
  if root < n then do
    let (heaps, queues) ←
      edges.toList.zipIdx.foldlM (enter allowed root) (start.heaps, start.queues)
    return { start with heaps, queues, seen := ← put start.seen root (some root) }
  else some { start with stage := .finished none }

/-- Take the first edge off the heap of the class `u`.  An edge from inside the class is
dropped, and the class is left by any other. -/
def look (allowed : Int → Bool) (edges : Array WeightedEdge) (start u : Nat) (later : List Nat)
    (s : Search) : Option Search := do
  let some root ← s.queues[u]? | some { s with stage := .finished none }
  let ((edge, weight), heaps) ← s.heaps.topIn allowed root
  let e ← edges[edge]?
  let next ← s.classes.find? e.source
  if next = u then
    let (rest, heaps) ← heaps.popIn allowed root
    return { s with heaps, queues := ← put s.queues u rest, popped := edge :: s.popped }
  else
    let heaps ← heaps.shiftIn allowed root (-weight)
    let (rest, heaps) ← heaps.popIn allowed root
    let queues ← put s.queues u rest
    let seen ← put s.seen u (some start)
    let mark ← seen[next]?
    return { s with
      stage := if mark = some start then .closing start next later else .walking start next later
      heaps, queues, seen, path := ⟨u, edge⟩ :: s.path, popped := edge :: s.popped }

/-- Contract the cycle that the walk closed at the class `u`. -/
def close (allowed : Int → Bool) (start u : Nat) (later : List Nat) (s : Search) :
    Option Search := do
  let done ← gather allowed s.queues u s.heaps none s.classes [] s.path
  let representative ← done.classes.find? u
  let queues ← put s.queues representative done.merged
  let seen ← put s.seen representative none
  return { s with
    stage := .walking start representative later
    heaps := done.heaps, queues, classes := done.classes, seen, path := done.path
    contractions := ⟨representative, s.classes.time, done.cycle⟩ :: s.contractions }

/-- Undo the contraction `c`, before the earlier ones. -/
def unfold (edges : Array WeightedEdge) (c : Contraction) (earlier : List Contraction)
    (s : Search) : Option Search := do
  let classes ← s.classes.rollback? c.time
  let entering ← s.incoming[c.representative]?
  let incoming ← (c.edges ++ entering.toList).foldlM (choose? edges classes) s.incoming
  return { s with stage := .expanding earlier, classes, incoming }

/-- One step of a search. -/
def step (allowed : Int → Bool) (root : Nat) (edges : Array WeightedEdge) (s : Search) :
    Option Search :=
  match s.stage with
  | .resting [] => some { s with stage := .expanding s.contractions }
  | .resting (start :: later) => some { s with stage := .walking start start later, path := [] }
  | .walking start u later => do
    match ← s.seen[u]? with
    | none => s.look allowed edges start u later
    | some _ =>
      let incoming ← (s.path.map (·.edge)).reverse.foldlM (choose? edges s.classes) s.incoming
      return { s with stage := .resting later, incoming }
  | .closing start u later => s.close allowed start u later
  | .expanding [] => some { s with stage := .finished (chosen s.incoming.size root s.incoming) }
  | .expanding (c :: earlier) => s.unfold edges c earlier
  | .finished _ => some s

/-- A number of steps of a search. -/
def after (allowed : Int → Bool) (root : Nat) (edges : Array WeightedEdge) :
    Nat → Search → Option Search
  | 0, s => some s
  | steps + 1, s => do
    let s ← s.step allowed root edges
    after allowed root edges steps s

end Search

end Edmonds

end FuzzCampaign

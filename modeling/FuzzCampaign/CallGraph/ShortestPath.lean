import FuzzCampaign.CallGraph.Basic

/-!
# Reachable functions and shortest call paths

Which functions can be called, directly or not, once a given function runs; and
whether any function can call itself in this way.  The search keeps a stack of
functions still to visit.  A function is expanded at its first visit only, so
every call is followed at most once and the number of calls bounds the number
of visits.

A shortest path is found by a best-first search with unit cost per call.  The
search keeps the functions it has seen and not yet expanded in a binary heap,
ordered by their distance alone.  Which of several equally near functions comes
out first is decided by the positions in the heap:

- an entry that is pushed rises past strictly farther parents only;
- when the nearest entry is taken, the last entry of the heap is put into its
  place, sinks to the bottom, always past the nearer child and past the right
  one when both are equally near, and then rises again.

The nearest function on the frontier is expanded, each at most once; a callee
that was not seen before, or only at a larger distance, is recorded with its
caller and joins the frontier.  The recorded callers, followed back from the
goal, are the path.  The number of calls bounds the number of functions that
ever join the frontier.

Main definitions:

- `CallGraph.reachable`: all functions reachable from one, itself included.
- `CallGraph.isAcyclic`: no call leads to a function that can reach its caller.
- `Frontier.push` and `Frontier.pop?`.
- `CallGraph.shortestPath?`: the functions on a path with the fewest calls.
- `CallGraph.distance?`: the number of calls on such a path.
-/

namespace FuzzCampaign

/-! ## Reachable functions -/

namespace CallGraph

/-- Visit the functions on a stack, adding the callees of each new one.  At
most `fuel` visits are made. -/
def visit (g : CallGraph) : Nat → List Nat → List Nat → List Nat
  | 0, _, seen => seen
  | _ + 1, [], seen => seen
  | fuel + 1, node :: stack, seen =>
    if node ∈ seen then visit g fuel stack seen
    else visit g fuel (g.callees node ++ stack) (node :: seen)

/-- The functions reachable from a function of the graph, itself included. -/
def reachable (g : CallGraph) (start : Nat) : List Nat :=
  if g.hasNode start then g.visit (g.arcs.length + 1) [start] [] else []

/-- Whether no function can reach itself by one or more calls. -/
def isAcyclic (g : CallGraph) : Bool :=
  g.arcs.all fun arc => !(g.reachable arc.callee).contains arc.caller

theorem subset_visit (g : CallGraph) (fuel : Nat) (stack seen : List Nat) :
    seen ⊆ g.visit fuel stack seen := by
  induction fuel generalizing stack seen with
  | zero => simp [visit]
  | succ fuel ih =>
    cases stack with
    | nil => simp [visit]
    | cons node stack =>
      rw [visit]
      split
      · exact ih _ _
      · exact fun x hx => ih _ _ (List.mem_cons_of_mem _ hx)

end CallGraph

/-! ## The frontier of a search -/

/-- A function at a known distance. -/
structure Sighting where
  distance : Nat
  node : Nat
  deriving Repr, DecidableEq, Inhabited

/-- A heap of sightings: the children of position `i` are at `2 * i + 1` and
`2 * i + 2`, and no child is nearer than its parent. -/
structure Frontier where
  entries : Array Sighting := #[]
  deriving Repr, DecidableEq

namespace Frontier

/-- Let the entry at a position rise past strictly farther parents. -/
def rise (entries : Array Sighting) (pos : Nat) : Array Sighting :=
  if h : 0 < pos ∧ pos < entries.size then
    let parent := (pos - 1) / 2
    have hlt : parent < pos := by omega
    have hparent : parent < entries.size := Nat.lt_trans hlt h.2
    if entries[pos].distance < entries[parent].distance then
      rise (entries.swap parent pos hparent h.2) parent
    else entries
  else entries
termination_by pos

/-- Let the entry at a position sink to the bottom, and report where it came to
rest. -/
def sink (entries : Array Sighting) (pos : Nat) : Array Sighting × Nat :=
  let left := 2 * pos + 1
  if h : left + 1 < entries.size then
    let child := if entries[left + 1].distance ≤ entries[left].distance then left + 1 else left
    have hc : pos < child ∧ child < entries.size := by
      simp only [child, left] at *
      split <;> omega
    sink (entries.swap pos child (Nat.lt_trans hc.1 hc.2) hc.2) child
  else if h : left < entries.size then
    (entries.swap pos left (by omega) h, left)
  else (entries, pos)
termination_by entries.size - pos
decreasing_by
  rw [Array.size_swap]
  exact Nat.sub_lt_sub_left (Nat.lt_trans hc.1 hc.2) hc.1

/-- Add a sighting. -/
def push (f : Frontier) (s : Sighting) : Frontier :=
  ⟨rise (f.entries.push s) f.entries.size⟩

/-- Take the nearest sighting. -/
def pop? (f : Frontier) : Option (Sighting × Frontier) :=
  match f.entries.back? with
  | none => none
  | some last =>
    let rest := f.entries.pop
    match rest[0]? with
    | none => some (last, ⟨rest⟩)
    | some nearest =>
      let sunk := sink (rest.setIfInBounds 0 last) 0
      some (nearest, ⟨rise sunk.1 sunk.2⟩)

theorem rise_perm (entries : Array Sighting) (pos : Nat) : (rise entries pos).Perm entries := by
  fun_induction rise entries pos with
  | case1 entries pos h parent hlt hparent hnear ih => exact ih.trans (Array.swap_perm ..)
  | case2 => exact Array.Perm.refl _
  | case3 => exact Array.Perm.refl _

theorem sink_perm (entries : Array Sighting) (pos : Nat) : (sink entries pos).1.Perm entries := by
  fun_induction sink entries pos with
  | case1 entries pos left h child hc ih => exact ih.trans (Array.swap_perm ..)
  | case2 => exact Array.swap_perm ..
  | case3 => exact Array.Perm.refl _

end Frontier

/-! ## Shortest paths -/

/-- What a search knows: the distance at which each function was seen, from
which caller, and which functions were expanded. -/
structure PathSearch where
  frontier : Frontier := {}
  /-- Distance and caller of every function seen, by number. -/
  seen : List (Nat × Nat × Option Nat) := []
  expanded : List Nat := []
  deriving Repr

namespace PathSearch

/-- The search that has seen its starting point only. -/
def starting (node : Nat) : PathSearch where
  frontier := Frontier.push {} ⟨0, node⟩
  seen := [(node, 0, none)]

/-- The distance at which a function was seen. -/
def distance? (s : PathSearch) (node : Nat) : Option Nat := (s.seen.lookup node).map (·.1)

/-- The caller from which a function was seen. -/
def caller? (s : PathSearch) (node : Nat) : Option Nat := (s.seen.lookup node).bind (·.2)

/-- Enter a callee at a distance and put it on the frontier. -/
def record (s : PathSearch) (callee distance caller : Nat) : PathSearch :=
  { s with
    seen := (callee, distance, some caller) :: s.seen
    frontier := s.frontier.push ⟨distance, callee⟩ }

/-- Record a callee, unless it was seen at the same or a smaller distance. -/
def relax (caller : Nat) (distance : Nat) (s : PathSearch) (callee : Nat) : PathSearch :=
  match s.distance? callee with
  | some known => if known ≤ distance then s else s.record callee distance caller
  | none => s.record callee distance caller

/-- Expand the nearest functions one after another until the goal comes up.  At
most `fuel` functions are taken from the frontier. -/
def run (g : CallGraph) (goal : Nat) : Nat → PathSearch → Option PathSearch
  | 0, _ => none
  | fuel + 1, s =>
    match s.frontier.pop? with
    | none => none
    | some (nearest, frontier) =>
      let s := { s with frontier := frontier }
      if nearest.node = goal then some s
      else if nearest.node ∈ s.expanded then run g goal fuel s
      else
        let s := { s with expanded := nearest.node :: s.expanded }
        run g goal fuel
          ((g.callees nearest.node).foldl (relax nearest.node (nearest.distance + 1)) s)

/-- Follow the recorded callers back from a function, in front of `path`. -/
def trace (s : PathSearch) : Nat → Nat → List Nat → List Nat
  | 0, node, path => node :: path
  | fuel + 1, node, path =>
    match s.caller? node with
    | some caller => trace s fuel caller (node :: path)
    | none => node :: path

end PathSearch

namespace CallGraph

/-- The functions on a path with the fewest calls, both ends included. -/
def shortestPath? (g : CallGraph) (start goal : Nat) : Option (List Nat) :=
  if g.hasNode start && g.hasNode goal then
    (PathSearch.run g goal (g.arcs.length + 2) (PathSearch.starting start)).map fun s =>
      s.trace s.seen.length goal []
  else none

/-- The number of calls on a path with the fewest calls. -/
def distance? (g : CallGraph) (start goal : Nat) : Option Nat :=
  (g.shortestPath? start goal).map fun path => path.length - 1

end CallGraph

end FuzzCampaign

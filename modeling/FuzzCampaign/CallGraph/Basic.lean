import FuzzCampaign.CallGraph.Vertex
import Std.Data.HashMap

/-!
# The call graph

A call graph holds functions in numbered slots and calls in a list, the most
recently added call first.  A removed function frees its slot and a removed
call frees its index; the number freed last is given out first, and only when
none is free is a new one taken.  The numbers of all other functions and calls
never change.  Two tables find a function by its identity and by its name, and
the entry function is never removed.

Main definitions:

- `CallGraph.insert`, `CallGraph.remove`, `CallGraph.addCall`: the operations
  that change which functions and calls there are.
- `CallGraph.annotate`, `CallGraph.modifyCall`: changes of attributes only.
- `CallGraph.isConsistent`: the tables agree with the slots.
-/

namespace FuzzCampaign

/-- A directed call graph with a designated entry function. -/
structure CallGraph where
  /-- The functions by number; an empty slot was freed. -/
  slots : Array (Option Vertex)
  /-- Freed function numbers, the last one freed first. -/
  freeSlots : List Nat
  /-- The calls, the last one added first. -/
  arcs : List Arc
  /-- How many call numbers were ever given out. -/
  arcBound : Nat
  /-- Freed call numbers, the last one freed first. -/
  freeArcs : List Nat
  byId : Std.HashMap VertexId Nat
  byName : Std.HashMap String Nat
  entry : Nat

namespace CallGraph

/-- The graph that holds the entry function alone. -/
def ofEntry (entry : Vertex) : CallGraph where
  slots := #[some entry]
  freeSlots := []
  arcs := []
  arcBound := 0
  freeArcs := []
  byId := (∅ : Std.HashMap VertexId Nat).insert entry.id 0
  byName := (∅ : Std.HashMap String Nat).insert entry.name 0
  entry := 0

/-! ## Looking up functions -/

/-- The function with a number. -/
def vertex? (g : CallGraph) (node : Nat) : Option Vertex := g.slots[node]?.join

/-- Whether a number belongs to a function of the graph. -/
def hasNode (g : CallGraph) (node : Nat) : Bool := (g.vertex? node).isSome

/-- The numbers of all functions, ascending. -/
def nodes (g : CallGraph) : List Nat := (List.range g.slots.size).filter g.hasNode

/-- The functions with their numbers, in ascending order of the numbers. -/
def vertices (g : CallGraph) : List (Nat × Vertex) :=
  g.nodes.filterMap fun node => (g.vertex? node).map (node, ·)

/-- The number of the function with a name. -/
def node? (g : CallGraph) (name : String) : Option Nat := g.byName[name]?

/-- The number of the function with an identity. -/
def nodeById? (g : CallGraph) (id : VertexId) : Option Nat := g.byId[id]?

/-- Whether a function of this name is in the graph. -/
def containsName (g : CallGraph) (name : String) : Bool := g.byName.contains name

/-- The name of the function with a number. -/
def name? (g : CallGraph) (node : Nat) : Option String := (g.vertex? node).map (·.name)

/-- How many functions there are. -/
def vertexCount (g : CallGraph) : Nat := g.nodes.length

theorem mem_nodes {g : CallGraph} {node : Nat} : node ∈ g.nodes ↔ (g.vertex? node).isSome := by
  simp only [nodes, List.mem_filter, List.mem_range, hasNode, and_iff_right_iff_imp]
  intro h
  simp only [vertex?] at h
  by_cases hlt : node < g.slots.size
  · exact hlt
  · simp [Array.getElem?_eq_none (Nat.le_of_not_lt hlt)] at h

/-- Function numbers are listed in strictly ascending order. -/
theorem nodes_pairwise (g : CallGraph) : g.nodes.Pairwise (· < ·) :=
  List.Pairwise.filter _ List.pairwise_lt_range

theorem nodup_nodes (g : CallGraph) : g.nodes.Nodup :=
  g.nodes_pairwise.imp Nat.ne_of_lt

/-! ## Looking up calls -/

/-- The call from one function to another. -/
def arc? (g : CallGraph) (caller callee : Nat) : Option Arc :=
  g.arcs.find? (·.joins caller callee)

/-- The attributes of the call with a number. -/
def callAt? (g : CallGraph) (index : Nat) : Option Call :=
  (g.arcs.find? (·.index == index)).map (·.call)

/-- Whether one function calls another. -/
def hasCall (g : CallGraph) (caller callee : Nat) : Bool := (g.arc? caller callee).isSome

/-- The calls made by a function, the last one added first. -/
def outgoing (g : CallGraph) (node : Nat) : List Arc := g.arcs.filter (·.caller == node)

/-- The calls of a function, the last one added first. -/
def incoming (g : CallGraph) (node : Nat) : List Arc := g.arcs.filter (·.callee == node)

/-- The functions called by a function, the last call added first. -/
def callees (g : CallGraph) (node : Nat) : List Nat := (g.outgoing node).map (·.callee)

/-- How many calls a function receives. -/
def inDegree (g : CallGraph) (node : Nat) : Nat := (g.incoming node).length

/-- How many calls a function makes. -/
def outDegree (g : CallGraph) (node : Nat) : Nat := (g.outgoing node).length

/-- All calls in ascending order of their numbers. -/
def arcsInOrder (g : CallGraph) : List Arc :=
  g.arcs.mergeSort fun a b => decide (a.index ≤ b.index)

/-- How many calls there are. -/
def edgeCount (g : CallGraph) : Nat := g.arcs.length

theorem arcsInOrder_perm (g : CallGraph) : g.arcsInOrder.Perm g.arcs :=
  List.mergeSort_perm _ _

/-- Calls are listed in ascending order of their numbers. -/
theorem arcsInOrder_pairwise_le (g : CallGraph) :
    g.arcsInOrder.Pairwise fun a b => a.index ≤ b.index := by
  refine (List.pairwise_mergeSort (fun a b c => ?_) (fun a b => ?_) g.arcs).imp ?_
  · simpa using Nat.le_trans
  · simpa using Nat.le_total _ _
  · simp

@[simp] theorem mem_arcsInOrder {g : CallGraph} {arc : Arc} :
    arc ∈ g.arcsInOrder ↔ arc ∈ g.arcs :=
  g.arcsInOrder_perm.mem_iff

theorem hasCall_iff {g : CallGraph} {caller callee : Nat} :
    g.hasCall caller callee = true ↔
      ∃ arc ∈ g.arcs, arc.caller = caller ∧ arc.callee = callee := by
  simp [hasCall, arc?]

theorem mem_callees {g : CallGraph} {caller callee : Nat} :
    callee ∈ g.callees caller ↔ g.hasCall caller callee = true := by
  simp only [callees, outgoing, List.mem_map, List.mem_filter, beq_iff_eq, hasCall_iff]
  constructor
  · rintro ⟨arc, ⟨hmem, hcaller⟩, hcallee⟩
    exact ⟨arc, hmem, hcaller, hcallee⟩
  · rintro ⟨arc, hmem, hcaller, hcallee⟩
    exact ⟨arc, ⟨hmem, hcaller⟩, hcallee⟩

/-! ## Changing the set of functions and calls -/

/-- Put a function into a free slot, without entering it into the tables. -/
def allocate (g : CallGraph) (v : Vertex) : Nat × CallGraph :=
  match g.freeSlots with
  | slot :: rest =>
    (slot, { g with slots := g.slots.setIfInBounds slot (some v), freeSlots := rest })
  | [] => (g.slots.size, { g with slots := g.slots.push (some v) })

/-- Insert a function.  A function whose name is known already is not inserted;
the answer is then the number of the known one. -/
def insert (g : CallGraph) (v : Vertex) : Nat × CallGraph :=
  match g.byName[v.name]? with
  | some node => (node, g)
  | none =>
    let placed := g.allocate v
    (placed.1,
      { placed.2 with
        byId := g.byId.insert v.id placed.1
        byName := g.byName.insert v.name placed.1 })

/-- Remove all calls from and to a function: first those it makes, then those
made to it, the last one added first. -/
def detach (g : CallGraph) (node : Nat) : CallGraph :=
  let made := g.outgoing node
  let received := (g.incoming node).filter (·.caller != node)
  { g with
    arcs := g.arcs.filter fun arc => !arc.touches node
    freeArcs := ((made ++ received).map (·.index)).reverse ++ g.freeArcs }

/-- Remove a function and its calls.  The entry function and numbers without a
function are left alone. -/
def remove (g : CallGraph) (node : Nat) : Option Vertex × CallGraph :=
  if node = g.entry then (none, g)
  else
    match g.vertex? node with
    | none => (none, g)
    | some v =>
      let g := g.detach node
      (some v,
        { g with
          slots := g.slots.setIfInBounds node none
          freeSlots := node :: g.freeSlots
          byId := g.byId.erase v.id
          byName := g.byName.erase v.name })

/-- Add a call under the next free number, without any check. -/
def pushArc (g : CallGraph) (caller callee : Nat) (call : Call) : CallGraph :=
  match g.freeArcs with
  | index :: rest => { g with arcs := ⟨index, caller, callee, call⟩ :: g.arcs, freeArcs := rest }
  | [] =>
    { g with arcs := ⟨g.arcBound, caller, callee, call⟩ :: g.arcs, arcBound := g.arcBound + 1 }

/-- Add a call between two functions of the graph, unless there is one already.
The answer tells whether it was added. -/
def addCall (g : CallGraph) (caller callee : Nat) (call : Call) : Bool × CallGraph :=
  if g.hasCall caller callee || !g.hasNode caller || !g.hasNode callee then (false, g)
  else (true, g.pushArc caller callee call)

/-! ## Changing attributes -/

/-- Change the function with a number. -/
def modifyVertex (g : CallGraph) (node : Nat) (f : Vertex → Vertex) : CallGraph :=
  { g with slots := g.slots.modify node fun slot => slot.map f }

/-- Change what is known about the function with a number. -/
def annotate (g : CallGraph) (node : Nat) (f : Annotations → Annotations) : CallGraph :=
  { g with slots := g.slots.modify node fun slot => slot.map (·.annotate f) }

/-- Change the attributes of the call with a number. -/
def modifyCall (g : CallGraph) (index : Nat) (f : Call → Call) : CallGraph :=
  { g with
    arcs := g.arcs.map fun arc =>
      if arc.index = index then { arc with call := f arc.call } else arc }

/-- Drop the colours of all functions and calls. -/
def clearColors (g : CallGraph) : CallGraph :=
  { g with
    slots := g.slots.map fun slot => slot.map (·.annotate fun notes => { notes with color := none })
    arcs := g.arcs.map fun arc => { arc with call := { arc.call with color := none } } }

theorem vertex?_modifyVertex (g : CallGraph) (node other : Nat) (f : Vertex → Vertex) :
    (g.modifyVertex node f).vertex? other =
      if node = other then (g.vertex? other).map f else g.vertex? other := by
  simp only [vertex?, modifyVertex, Array.getElem?_modify]
  split
  · cases g.slots[other]? <;> simp
  · rfl

theorem vertex?_annotate (g : CallGraph) (node other : Nat) (f : Annotations → Annotations) :
    (g.annotate node f).vertex? other =
      if node = other then (g.vertex? other).map (·.annotate f) else g.vertex? other :=
  g.vertex?_modifyVertex node other (·.annotate f)

@[simp] theorem arcs_annotate (g : CallGraph) (node : Nat) (f : Annotations → Annotations) :
    (g.annotate node f).arcs = g.arcs := rfl

@[simp] theorem entry_annotate (g : CallGraph) (node : Nat) (f : Annotations → Annotations) :
    (g.annotate node f).entry = g.entry := rfl

@[simp] theorem entry_remove (g : CallGraph) (node : Nat) : (g.remove node).2.entry = g.entry := by
  unfold remove
  split
  · rfl
  · split <;> rfl

@[simp] theorem entry_allocate (g : CallGraph) (v : Vertex) :
    (g.allocate v).2.entry = g.entry := by
  unfold allocate
  split <;> rfl

@[simp] theorem entry_insert (g : CallGraph) (v : Vertex) : (g.insert v).2.entry = g.entry := by
  unfold insert
  split <;> simp

@[simp] theorem entry_addCall (g : CallGraph) (caller callee : Nat) (call : Call) :
    (g.addCall caller callee call).2.entry = g.entry := by
  unfold addCall pushArc
  split
  · rfl
  · split <;> rfl

/-! ## Consistency -/

/-- Whether the two tables hold one entry for each function, and lead from the
identity and the name of every function to its number. -/
def isConsistent (g : CallGraph) : Bool :=
  g.byId.size == g.vertexCount && g.byName.size == g.vertexCount &&
    g.vertices.all fun (node, v) => g.byId[v.id]? == some node && g.byName[v.name]? == some node

end CallGraph

end FuzzCampaign

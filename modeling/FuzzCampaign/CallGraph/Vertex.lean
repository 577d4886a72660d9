/-!
# Functions and calls

The vocabulary of a call graph: a vertex stands for one function of the fuzzed
program, an arc for one observed or declared call.  Identity and annotations
are kept apart, so that an update of what is known about a function cannot
change which function it is.

Main results:

- `Color.ofTask_ne_black`: the last colour of the palette marks no task.
-/

namespace FuzzCampaign

/-- Where a function or a call was learned from. -/
inductive Origin where
  /-- Declared in the call graph that the compiler emitted. -/
  | static
  /-- Observed while the profiling binary ran. -/
  | dynamic
  deriving Repr, DecidableEq, Inhabited

/-- The word written for an origin. -/
def Origin.word : Origin → String
  | static => "static"
  | dynamic => "dynamic"

/-- The palette that marks which task owns a function. -/
inductive Color where
  | red | green | blue | orange | purple | black
  deriving Repr, DecidableEq, Inhabited

namespace Color

/-- The word written for a colour. -/
def word : Color → String
  | red => "red"
  | green => "green"
  | blue => "blue"
  | orange => "orange"
  | purple => "purple"
  | black => "black"

/-- The colour of the task with the given zero-based index.  Five colours take
turns, and black stays reserved for functions outside every task. -/
def ofTask (task : Nat) : Color :=
  match task % 5 with
  | 0 => red
  | 1 => green
  | 2 => blue
  | 3 => orange
  | _ => purple

theorem ofTask_ne_black (task : Nat) : ofTask task ≠ black := by
  unfold ofTask
  split <;> simp

end Color

/-- The identity of a vertex, stable for a whole campaign. -/
structure VertexId where
  text : String
  deriving Repr, DecidableEq, Hashable, Inhabited

/-- The identity of a function that was first seen at run time. -/
def VertexId.dynamic (name : String) : VertexId := ⟨"dyn:" ++ name⟩

/-- What the campaign has learned about a function. -/
structure Annotations where
  /-- Instrumented blocks; absent until the first coverage report on the
  function. -/
  totalBlocks : Option UInt32 := none
  /-- Blocks covered at the previous report. -/
  coveredBefore : UInt32 := 0
  /-- Blocks covered at the latest report. -/
  coveredNow : UInt32 := 0
  /-- Source files with the static block count found in each. -/
  locations : List (String × UInt32) := []
  score : Nat := 0
  color : Option Color := none
  deriving Repr, DecidableEq, Inhabited

/-- One function of the fuzzed program. -/
structure Vertex where
  id : VertexId
  name : String
  origin : Origin := .static
  notes : Annotations := {}
  deriving Repr, DecidableEq, Inhabited

namespace Vertex

/-- A static function whose identity is its name. -/
def named (name : String) : Vertex where
  id := ⟨name⟩
  name := name

/-- A function first seen at run time. -/
def observed (name : String) : Vertex where
  id := VertexId.dynamic name
  name := name
  origin := .dynamic

/-- The static block count at the first known source location. -/
def staticBlocks? (v : Vertex) : Option UInt32 := v.notes.locations.head?.map (·.2)

/-- Whether the function was first seen at run time. -/
def isDynamic (v : Vertex) : Bool := v.origin == .dynamic

/-- Change what is known about a function. -/
def annotate (v : Vertex) (f : Annotations → Annotations) : Vertex :=
  { v with notes := f v.notes }

@[simp] theorem id_annotate (v : Vertex) (f : Annotations → Annotations) :
    (v.annotate f).id = v.id := rfl

@[simp] theorem name_annotate (v : Vertex) (f : Annotations → Annotations) :
    (v.annotate f).name = v.name := rfl

@[simp] theorem origin_annotate (v : Vertex) (f : Annotations → Annotations) :
    (v.annotate f).origin = v.origin := rfl

@[simp] theorem notes_annotate (v : Vertex) (f : Annotations → Annotations) :
    (v.annotate f).notes = f v.notes := rfl

end Vertex

/-- The attributes of a call. -/
structure Call where
  origin : Origin := .static
  /-- Cost of the call in an arborescence; lower is preferred. -/
  weight : UInt32 := 1
  color : Option Color := none
  deriving Repr, DecidableEq, Inhabited

/-- A call between two vertices of a graph, with its index in the graph. -/
structure Arc where
  index : Nat
  caller : Nat
  callee : Nat
  call : Call := {}
  deriving Repr, DecidableEq, Inhabited

namespace Arc

/-- Whether a vertex is one of the two ends. -/
def touches (arc : Arc) (node : Nat) : Bool := arc.caller == node || arc.callee == node

/-- Whether an arc leads from `caller` to `callee`. -/
def joins (arc : Arc) (caller callee : Nat) : Bool :=
  arc.caller == caller && arc.callee == callee

@[simp] theorem joins_iff {arc : Arc} {caller callee : Nat} :
    arc.joins caller callee = true ↔ arc.caller = caller ∧ arc.callee = callee := by
  simp [joins]

@[simp] theorem touches_iff {arc : Arc} {node : Nat} :
    arc.touches node = true ↔ arc.caller = node ∨ arc.callee = node := by
  simp [touches]

end Arc

end FuzzCampaign

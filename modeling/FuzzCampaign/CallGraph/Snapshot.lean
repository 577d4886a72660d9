import FuzzCampaign.CallGraph.Dot
import FuzzCampaign.Text.Quoted

/-!
# Snapshots of a call graph

The state of a call graph as a plain record, and its written form: a document
of nested objects, indented by two blanks for each level, with the fields in a
fixed order.

Main definitions:

- `CallGraph.snapshot`.
- `GraphSnapshot.render`: the written form.
-/

namespace FuzzCampaign

/-- What a snapshot says about a function. -/
structure VertexSnapshot where
  id : String
  name : String
  origin : Origin
  totalBlocks : Option UInt32
  coveredBefore : UInt32
  coveredNow : UInt32
  staticBlocks : Option UInt32
  score : Nat
  color : Option Color
  deriving Repr, DecidableEq

/-- What a snapshot says about a call; the ends are named by their identities. -/
structure ArcSnapshot where
  caller : String
  callee : String
  origin : Origin
  color : Option Color
  deriving Repr, DecidableEq

/-- The functions and calls of a graph, in the order of their numbers. -/
structure GraphSnapshot where
  entry : String
  vertices : List VertexSnapshot
  arcs : List ArcSnapshot
  deriving Repr, DecidableEq

/-- What a snapshot records of a function. -/
def Vertex.snapshot (v : Vertex) : VertexSnapshot where
  id := v.id.text
  name := v.name
  origin := v.origin
  totalBlocks := v.notes.totalBlocks
  coveredBefore := v.notes.coveredBefore
  coveredNow := v.notes.coveredNow
  staticBlocks := v.staticBlocks?
  score := v.notes.score
  color := v.notes.color

/-- The snapshot of a graph. -/
def CallGraph.snapshot (g : CallGraph) : GraphSnapshot where
  entry := g.idText g.entry
  vertices := g.vertices.map fun (_, v) => v.snapshot
  arcs := g.arcsInOrder.map fun arc =>
    { caller := g.idText arc.caller
      callee := g.idText arc.callee
      origin := arc.call.origin
      color := arc.call.color }

/-! ## The written form -/

/-- A document of nested objects and lists, as far as snapshots need it. -/
inductive Document where
  | null
  | text (value : String)
  | number (value : Nat)
  | list (items : List Document)
  | record (fields : List (String × Document))

namespace Document

/-- A line feed and the indentation of a level. -/
def newline (level : Nat) : String := "\n" ++ String.ofList (List.replicate (2 * level) ' ')

mutual

/-- The written form of a document at a level of nesting. -/
def render (level : Nat) : Document → String
  | null => "null"
  | text value => Text.Quoted.json value
  | number value => toString value
  | list [] => "[]"
  | list (item :: items) =>
    "[" ++ newline (level + 1) ++ render (level + 1) item ++ renderItems (level + 1) items ++
      newline level ++ "]"
  | record [] => "\x7b\x7d"
  | record ((name, value) :: fields) =>
    "\x7b" ++ newline (level + 1) ++ Text.Quoted.json name ++ ": " ++ render (level + 1) value ++
      renderFields (level + 1) fields ++ newline level ++ "\x7d"

/-- The items of a list after the first. -/
def renderItems (level : Nat) : List Document → String
  | [] => ""
  | item :: items => "," ++ newline level ++ render level item ++ renderItems level items

/-- The fields of a record after the first. -/
def renderFields (level : Nat) : List (String × Document) → String
  | [] => ""
  | (name, value) :: fields =>
    "," ++ newline level ++ Text.Quoted.json name ++ ": " ++ render level value ++
      renderFields level fields

end

/-- A value that may be absent. -/
def optional {α : Type} (f : α → Document) : Option α → Document
  | some value => f value
  | none => null

/-- A block count. -/
def count (n : UInt32) : Document := number n.toNat

end Document

/-- A function as part of a document. -/
def VertexSnapshot.document (v : VertexSnapshot) : Document :=
  .record
    [("id", .text v.id), ("name", .text v.name), ("origin", .text v.origin.word),
     ("total_blocks", .optional .count v.totalBlocks), ("covered_prev", .count v.coveredBefore),
     ("covered_cur", .count v.coveredNow), ("static_blocks", .optional .count v.staticBlocks),
     ("score", .number v.score), ("color", .optional (fun c => .text c.word) v.color)]

/-- A call as part of a document. -/
def ArcSnapshot.document (arc : ArcSnapshot) : Document :=
  .record
    [("caller", .text arc.caller), ("callee", .text arc.callee),
     ("origin", .text arc.origin.word),
     ("color", .optional (fun c => .text c.word) arc.color)]

/-- A snapshot as a document. -/
def GraphSnapshot.document (s : GraphSnapshot) : Document :=
  .record
    [("entry", .text s.entry), ("vertices", .list (s.vertices.map VertexSnapshot.document)),
     ("edges", .list (s.arcs.map ArcSnapshot.document))]

/-- The written form of a snapshot. -/
def GraphSnapshot.render (s : GraphSnapshot) : String := s.document.render 0

end FuzzCampaign

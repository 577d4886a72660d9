import FuzzCampaign.CallGraph.Basic
import FuzzCampaign.Text.Blank
import FuzzCampaign.Text.Line

/-!
# Call graphs in the DOT language

Reading of the call graphs that compilers emit, and writing of call graphs for
inspection.

A description is read line by line; every line holds at most one statement.  A
statement is an edge `a -> b` or a node with attributes in brackets.  A node
stands for the function named by its first usable label; nodes without one are
dropped together with their edges, and a label that occurs again is folded into
the first node that carries it.

Main definitions:

- `DotText.statement?` and `DotText.parse`: the statements of a text.
- `CallGraph.ofDot`: the graph of a text, or an error when no node is labelled
  with the name of the entry function.
- `CallGraph.toDot`: the written form of a graph.
-/

namespace FuzzCampaign

/-- One statement of a graph description. -/
inductive DotStatement where
  | node (name : String) (label : Option String)
  | edge (caller callee : String)
  deriving Repr, DecidableEq

namespace DotText

/-- Remove quotes from both ends. -/
def unquote (text : List Char) : List Char :=
  Text.trimEndWhile (· == '"') (text.dropWhile (· == '"'))

/-- Cut attributes at the commas outside quotes. -/
def attributeParts : Bool → List Char → List (List Char)
  | _, [] => [[]]
  | quoted, c :: rest =>
    if c = ',' ∧ quoted = false then [] :: attributeParts quoted rest
    else
      match attributeParts (if c = '"' then !quoted else quoted) rest with
      | [] => [[c]]
      | part :: others => (c :: part) :: others

/-- The name and the value of an attribute. -/
def attribute? (part : List Char) : Option (List Char × List Char) :=
  (Text.cutAt ['='] part).map fun sides =>
    (Text.trim sides.1, unquote (Text.trim sides.2))

/-- The value of the last attribute called `label`. -/
def label? (attributes : List Char) : Option String :=
  let values := (attributeParts false attributes).filterMap fun part =>
    match attribute? part with
    | some (name, value) => if name = "label".toList then some value else none
    | none => none
  values.getLast?.map String.ofList

/-- The openings of lines that are no statements. -/
def skippedOpenings : List String :=
  ["digraph", "graph", "//", "\x7d", "\x7b", "label=", "node ", "edge "]

/-- Whether a trimmed line is no statement. -/
def isSkipped (line : List Char) : Bool :=
  line.isEmpty || skippedOpenings.any fun opening => opening.toList.isPrefixOf line

/-- The body of a line: without blanks and semicolons around it. -/
def body (line : List Char) : List Char :=
  Text.trim (Text.trimEndWhile (· == ';') (Text.trim line))

/-- What stands before the bracket of the attributes, and the attributes. -/
def headAndAttributes (line : List Char) : List Char × Option (List Char) :=
  match Text.cutAt ['['] line with
  | some (head, attributes) =>
    (Text.trim head, some (Text.trimEndWhile (· == ']') attributes))
  | none => (line, none)

/-- The statement on a line. -/
def statement? (line : List Char) : Option DotStatement :=
  let line := body line
  if isSkipped line then none
  else
    let (head, attributes) := headAndAttributes line
    match Text.cutAt ['-', '>'] head with
    | some (caller, callee) =>
      let caller := unquote (Text.trim caller)
      let callee := unquote (Text.trim callee)
      if caller.isEmpty || callee.isEmpty then none
      else some (.edge (String.ofList caller) (String.ofList callee))
    | none =>
      let name := unquote head
      if name.isEmpty then none
      else some (.node (String.ofList name) (attributes.bind label?))

/-- The statements of a text, in order. -/
def parse (text : String) : List DotStatement := (Text.lines text).filterMap statement?

/-- A label without the braces and quotes that surround function names; `none`
when nothing is left. -/
def cleanLabel? (label : String) : Option String :=
  let name := Text.trim (label.toList.filter fun c => c != '\x7b' && c != '\x7d' && c != '"')
  if name.isEmpty then none else some (String.ofList name)

/-- The nodes with a usable label, and the label of each. -/
def labels (statements : List DotStatement) : List (String × String) :=
  statements.filterMap fun
    | .node name (some label) => (cleanLabel? label).map (name, ·)
    | _ => none

/-- Each labelled node with its first usable label, in order. -/
def firstLabels (statements : List DotStatement) : List (String × String) :=
  (labels statements).foldl
    (fun found entry =>
      if found.any fun earlier => earlier.1 == entry.1 then found else found ++ [entry]) []

/-- The edges, in order. -/
def edges (statements : List DotStatement) : List (String × String) :=
  statements.filterMap fun
    | .edge caller callee => some (caller, callee)
    | _ => none

end DotText

/-- Why a call graph could not be built. -/
inductive GraphError where
  /-- No node is labelled with the name of the entry function. -/
  | noEntry (name : String)
  deriving Repr, DecidableEq

/-- The wording of a graph error. -/
def GraphError.message : GraphError → String
  | noEntry name => "No vertex labelled '" ++ name ++ "' found in the call graph"

namespace CallGraph

/-- Insert the function of a labelled node. -/
def insertLabelled (g : CallGraph) (node name : String) : CallGraph :=
  (g.insert { id := ⟨node⟩, name := name }).2

/-- Add a static call between the functions of two labelled nodes; an edge of
a node without a label leaves no trace. -/
def addLabelled (labels : List (String × String)) (g : CallGraph) (edge : String × String) :
    CallGraph :=
  match (labels.lookup edge.1).bind g.node?, (labels.lookup edge.2).bind g.node? with
  | some caller, some callee => (g.addCall caller callee {}).2
  | _, _ => g

/-- The call graph of a description. -/
def ofStatements (statements : List DotStatement) (entry : String) :
    Except GraphError CallGraph :=
  let labels := DotText.firstLabels statements
  match labels.find? (·.2 == entry) with
  | none => .error (.noEntry entry)
  | some (node, _) =>
    let start := ofEntry { id := ⟨node⟩, name := entry }
    let functions := labels.foldl (fun g label => g.insertLabelled label.1 label.2) start
    .ok ((DotText.edges statements).foldl (addLabelled labels) functions)

/-- The call graph of a text in the DOT language. -/
def ofDot (text : String) (entry : String) : Except GraphError CallGraph :=
  ofStatements (DotText.parse text) entry

end CallGraph

/-! ## Writing -/

namespace DotText

/-- A label with its quotes escaped. -/
def escape (label : String) : String :=
  String.ofList (label.toList.flatMap fun c => if c = '"' then ['\\', '"'] else [c])

/-- A text between quotes. -/
def quoted (text : String) : String := "\"" ++ text ++ "\""

/-- The line of a function. -/
def vertexLine (v : Vertex) : String :=
  let blocks :=
    match v.staticBlocks? with
    | some n => "\\n" ++ toString n.toNat
    | none => ""
  let style := if v.isDynamic then ",style=dashed" else ""
  let color :=
    match v.notes.color with
    | some c => ",color=" ++ c.word ++ ",fontcolor=" ++ c.word
    | none => ""
  "\t" ++ quoted v.id.text ++ " [shape=record,label=\"\x7b" ++ escape (v.name ++ blocks) ++
    "\x7d\"" ++ style ++ color ++ "];\n"

/-- The attributes of a call, in brackets; nothing when there are none. -/
def callAttributes (call : Call) : String :=
  let style := if call.origin == .dynamic then ["style=dashed"] else []
  let color :=
    match call.color with
    | some c => ["color=" ++ c.word]
    | none => []
  let parts := style ++ color
  if parts.isEmpty then "" else " [" ++ ",".intercalate parts ++ "]"

end DotText

namespace CallGraph

/-- The text of a function's identity. -/
def idText (g : CallGraph) (node : Nat) : String :=
  match g.vertex? node with
  | some v => v.id.text
  | none => ""

/-- The line of a call. -/
def callLine (g : CallGraph) (caller callee : Nat) : String :=
  let attributes :=
    match g.arc? caller callee with
    | some arc => DotText.callAttributes arc.call
    | none => ""
  "\t" ++ DotText.quoted (g.idText caller) ++ " -> " ++ DotText.quoted (g.idText callee) ++
    attributes ++ ";\n"

/-- The written form of a graph with the given calls only. -/
def toDotWith (g : CallGraph) (calls : List (Nat × Nat)) : String :=
  "digraph \"callgraph\" \x7b\n" ++
    String.join (g.vertices.map fun (_, v) => DotText.vertexLine v) ++
    String.join (calls.map fun (caller, callee) => g.callLine caller callee) ++ "\x7d\n"

/-- The written form of a graph. -/
def toDot (g : CallGraph) : String :=
  g.toDotWith (g.arcsInOrder.map fun arc => (arc.caller, arc.callee))

end CallGraph

end FuzzCampaign

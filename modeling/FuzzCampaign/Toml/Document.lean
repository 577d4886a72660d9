import FuzzCampaign.Toml.Scalar

/-!
# Settings files

A settings file is a list of sections.  The first one has no header; every other
one starts with a header that names its table, or the array that its table is
added to.  A section assigns values to keys.

Main definitions:

- `Toml.value`: nested values.
- `Toml.sections?`: the sections of a file.
- `Toml.parse?`: the table that a file stands for.
-/

namespace FuzzCampaign.Toml

/-! ## Nested values -/

/-- The rest of a list between brackets, at most `fuel` items.  A comma may stand
behind the last one. -/
def arrayItems (item : Reader Value) : Nat → Reader (List Value)
  | 0, _ => none
  | fuel + 1, input =>
    match skipLayout input with
    | ']' :: rest => some ([], rest)
    | input => do
      let (first, rest) ← item input
      match skipLayout rest with
      | ']' :: rest => some ([first], rest)
      | ',' :: rest => do
        let (items, rest) ← arrayItems item fuel rest
        some (first :: items, rest)
      | _ => none

/-- A key, an equals sign and a value. -/
def assignment? (item : Reader Value) (input : List Char) :
    Option ((List String × String × Value) × List Char) := do
  let ((path, key), rest) ← key? input
  match rest with
  | '=' :: rest => do
    let (value, rest) ← item (skipBlanks rest)
    some ((path, key, value), rest)
  | _ => none

/-- The rest of a table between braces after its first entries, at most `fuel`
entries.  No comma stands behind the last one. -/
def tableEntries (item : Reader Value) : Nat → Entries → Reader Entries
  | 0, _, _ => none
  | fuel + 1, entries, input => do
    let ((path, key, value), rest) ← assignment? item input
    let entries ← assign entries path key value
    match skipBlanks rest with
    | '\x7d' :: rest => some (entries, rest)
    | ',' :: rest => tableEntries item fuel entries rest
    | _ => none

/-- The rest of a table between braces. -/
def tableBody (item : Reader Value) (input : List Char) : Option (Entries × List Char) :=
  match skipBlanks input with
  | '\x7d' :: rest => some ([], rest)
  | input => tableEntries item (input.length + 1) [] input

/-- A value whose lists and tables are nested at most `depth` times. -/
def value : Nat → Reader Value
  | depth, input =>
    match input with
    | '"' :: _ => (quoted? input).map fun (text, rest) => (.text text, rest)
    | '\x27' :: _ => (quoted? input).map fun (text, rest) => (.text text, rest)
    | '[' :: rest =>
      match depth with
      | 0 => none
      | depth + 1 => (arrayItems (value depth) (rest.length + 1) rest).map fun (items, rest) =>
          (.array false items, rest)
    | '\x7b' :: rest =>
      match depth with
      | 0 => none
      | depth + 1 => (tableBody (value depth) rest).map fun (entries, rest) =>
          (.table .closed entries, rest)
    | _ => plainValue? input

/-! ## Sections -/

/-- What a section adds to. -/
inductive Header where
  /-- The table of the whole file. -/
  | file
  | table (path : List String) (key : String)
  /-- A new table of an open array. -/
  | row (path : List String) (key : String)
  deriving Repr, DecidableEq

/-- A header and the values assigned below it. -/
structure Section where
  header : Header := .file
  assignments : List (List String × String × Value) := []
  deriving Repr

/-- A line of a file. -/
inductive Line where
  | blank
  | header (header : Header)
  | assignment (path : List String) (key : String) (value : Value)

/-- A line of a file, with its end. -/
def line? (input : List Char) : Option (Line × List Char) :=
  match skipBlanks input with
  | [] => some (.blank, [])
  | '[' :: '[' :: rest => do
    let ((path, key), rest) ← key? rest
    match rest with
    | ']' :: ']' :: rest => (lineEnd? rest).map fun rest => (.header (.row path key), rest)
    | _ => none
  | '[' :: rest => do
    let ((path, key), rest) ← key? rest
    match rest with
    | ']' :: rest => (lineEnd? rest).map fun rest => (.header (.table path key), rest)
    | _ => none
  | c :: rest =>
    if c == '#' || c == '\n' || c == '\r' then
      (lineEnd? (c :: rest)).map fun rest => (.blank, rest)
    else do
      let ((path, key, value), rest) ← assignment? (value depthLimit) (c :: rest)
      (lineEnd? rest).map fun rest => (.assignment path key value, rest)

/-- All lines of a file, at most `fuel` of them. -/
def fileLines : Nat → List Char → Option (List Line)
  | 0, _ => none
  | _ + 1, [] => some []
  | fuel + 1, input => do
    let (line, rest) ← line? input
    let lines ← fileLines fuel rest
    some (line :: lines)

/-- Lines as sections: every header opens one.  The answer is the part of the
current section that the lines give, and the sections behind it. -/
def groupLines : List Line → List (List String × String × Value) × List Section
  | [] => ([], [])
  | .blank :: rest => groupLines rest
  | .assignment path key value :: rest =>
    let (assignments, sections) := groupLines rest
    ((path, key, value) :: assignments, sections)
  | .header header :: rest =>
    let (assignments, sections) := groupLines rest
    ([], ⟨header, assignments⟩ :: sections)

/-- The sections of a file.  A byte order mark in front is dropped. -/
def sections? (text : String) : Option (List Section) :=
  let input :=
    match text.toList with
    | '\ufeff' :: rest => rest
    | input => input
  (fileLines (input.length + 1) input).map fun lines =>
    let (assignments, sections) := groupLines lines
    ⟨.file, assignments⟩ :: sections

/-! ## The table of a file -/

/-- Enter the assignments of a section into a table. -/
def fill (entries : Entries) (assignments : List (List String × String × Value)) :
    Option Entries :=
  assignments.foldlM (fun entries (path, key, value) => assign entries path key value) entries

/-- Add the table of a section under a key.  A table that was only implied so far
moves to the end and gets a header; any other table is complete already. -/
def addTable (key : String) (s : Section) (entries : Entries) : Option Entries :=
  let build := fun inner =>
    (fill inner s.assignments).map fun inner => entries.erase key ++ [(key, .table .headed inner)]
  match entries.lookup key with
  | none => build []
  | some (.table .implied inner) => build inner
  | some _ => none

/-- Add the table of a section to the open array under a key. -/
def addRow (key : String) (s : Section) (entries : Entries) : Option Entries := do
  let rows ← match entries.lookup key with
    | none => some []
    | some (.array true rows) => some rows
    | some _ => none
  let inner ← fill [] s.assignments
  some (entries.set key (.array true (rows ++ [.table .headed inner])))

/-- Add a section to the table of a file. -/
def addSection (entries : Entries) (s : Section) : Option Entries :=
  match s.header with
  | .file => fill entries s.assignments
  | .table path key => descend .implied (fun _ => addTable key s) path .headed entries
  | .row path key => descend .implied (fun _ => addRow key s) path .headed entries

/-- The table that a file stands for; `none` when it is malformed. -/
def parse? (text : String) : Option Entries := do
  (← sections? text).foldlM addSection []

end FuzzCampaign.Toml

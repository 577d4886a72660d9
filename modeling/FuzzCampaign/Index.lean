import FuzzCampaign.Text.Blank
import FuzzCampaign.Text.Decimal
import FuzzCampaign.Text.Line

/-!
# Function indices

The instrumenting compiler leaves two tables, one line for each entry:

- the source index, `file:function hash`, says where a function is defined;
- the block index, `file:function:count`, says how many instrumented blocks a
  function has in a file.  Functions without blocks are left out of it.

Lines of any other shape are skipped and repeated entries are kept once.

Main results:

- `NameIndex.find?_eq_none_iff`: a name is absent when no entry mentions it.
- `NameIndex.ne_nil_of_find?`: a name that is present has an entry.
-/

namespace FuzzCampaign

/-- A table from names to lists of values, without repeated entries.  Entries
are in the order in which they were first met. -/
structure NameIndex (α : Type) where
  entries : List (String × α) := []
  deriving Repr, DecidableEq

namespace NameIndex
variable {α : Type}

/-- The index of a list of entries, repeated entries kept once. -/
def ofEntries [BEq α] (entries : List (String × α)) : NameIndex α := ⟨entries.eraseDups⟩

/-- The values entered for a name, in order. -/
def values (index : NameIndex α) (name : String) : List α :=
  index.entries.filterMap fun entry => if entry.1 = name then some entry.2 else none

/-- The values entered for a name; `none` when the name has no entry. -/
def find? (index : NameIndex α) (name : String) : Option (List α) :=
  match index.values name with
  | [] => none
  | v :: vs => some (v :: vs)

/-- Whether a name has an entry. -/
def contains (index : NameIndex α) (name : String) : Bool := (index.find? name).isSome

/-- The names that have an entry, in the order of their first entries. -/
def names (index : NameIndex α) : List String := (index.entries.map (·.1)).eraseDups

/-- How many names have an entry. -/
def size (index : NameIndex α) : Nat := index.names.length

/-- Whether there is no entry at all. -/
def isEmpty (index : NameIndex α) : Bool := index.entries.isEmpty

theorem mem_values {index : NameIndex α} {name : String} {value : α} :
    value ∈ index.values name ↔ (name, value) ∈ index.entries := by
  simp only [values, List.mem_filterMap]
  constructor
  · rintro ⟨⟨n, v⟩, hmem, h⟩
    split at h <;> simp_all
  · intro h
    exact ⟨(name, value), h, by simp⟩

theorem find?_eq_some_iff {index : NameIndex α} {name : String} {values : List α} :
    index.find? name = some values ↔ index.values name = values ∧ values ≠ [] := by
  unfold find?
  split <;> simp_all
  rintro rfl
  simp

/-- A name is absent exactly when no entry mentions it. -/
theorem find?_eq_none_iff {index : NameIndex α} {name : String} :
    index.find? name = none ↔ ∀ value, (name, value) ∉ index.entries := by
  have h : index.find? name = none ↔ index.values name = [] := by
    unfold find?
    split <;> simp_all
  rw [h, List.eq_nil_iff_forall_not_mem]
  exact forall_congr' fun _ => not_congr mem_values

/-- A name that is present has at least one entry. -/
theorem ne_nil_of_find? {index : NameIndex α} {name : String} {values : List α}
    (h : index.find? name = some values) : values ≠ [] :=
  (find?_eq_some_iff.1 h).2

end NameIndex

/-- A source location of a function: the file, and the hash that the compiler
gave the function there. -/
structure SourceLocation where
  file : String
  hash : String
  deriving Repr, DecidableEq

/-- Where functions are defined. -/
abbrev SourceIndex := NameIndex SourceLocation

namespace SourceIndex

/-- Read one line `file:function hash`.  Text after a second blank is ignored. -/
def entry? (line : List Char) : Option (String × SourceLocation) :=
  match Text.pieces ':' (Text.trim line) with
  | [file, rest] =>
    match Text.pieces ' ' rest with
    | function :: hash :: _ =>
      some (String.ofList function, ⟨String.ofList file, String.ofList hash⟩)
    | _ => none
  | _ => none

/-- Read a source index. -/
def parse (text : String) : SourceIndex :=
  NameIndex.ofEntries ((Text.lines text).filterMap entry?)

end SourceIndex

/-- Which functions are instrumented, and with how many blocks in which file. -/
abbrev BlockIndex := NameIndex (String × UInt32)

namespace BlockIndex

/-- Read one line `file:function:count`.  A count of zero makes no entry. -/
def entry? (line : List Char) : Option (String × String × UInt32) :=
  match Text.pieces ':' (Text.trim line) with
  | [file, function, count] =>
    match Text.word32? (Text.trim count) with
    | some blocks =>
      if blocks = 0 then none
      else some (String.ofList (Text.trim function), String.ofList (Text.trim file), blocks)
    | none => none
  | _ => none

/-- Read a block index. -/
def parse (text : String) : BlockIndex :=
  NameIndex.ofEntries ((Text.lines text).filterMap entry?)

end BlockIndex

end FuzzCampaign

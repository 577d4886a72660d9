import FuzzCampaign.Proofs.Observation
import FuzzCampaign.Proofs.Text.Cutting

/-!
# What a function index tells

Both indices are read line by line, and a line stands for one entry or for none.  An entry
belongs to the function that its line names, whatever the lines around it; looking a function
up gives the values of its lines, each once, in the order in which they were met.  Entries
are told apart together with their functions when the index is made, and by their values alone
when it is asked; both come to the same, since an entry is looked up under one name.

A function is present only if a line names it.  Therefore no entry is empty, and joining
texts joins what is found in them.

Main definitions:

- `SourceIndex.EntryLine` and `BlockIndex.EntryLine`: the lines that stand for an entry.
- `NameIndex.Met`: what the lines of a text tell about a name.
- `NameIndex.ReadsLines`: what is found in an index that was read from a text.

Main results:

- `NameIndex.find?_ofEntries`: what is found in an index of given entries.
- `SourceIndex.entry?_eq_some_iff` and `BlockIndex.entry?_eq_some_iff`: what a line is read
  into.
- `reads_indices`: what is found in the two indices.
-/

namespace FuzzCampaign

namespace NameIndex

variable {α : Type} {name : String}

/-! ## Entries and the lines that stand for them -/

/-- The values that a list of entries has for a name. -/
def mentioned (name : String) (entries : List (String × α)) : List α :=
  entries.filterMap fun entry => if entry.1 = name then some entry.2 else none

theorem mem_mentioned {entries : List (String × α)} {value : α} :
    value ∈ mentioned name entries ↔ (name, value) ∈ entries :=
  (mem_values : value ∈ (⟨entries⟩ : NameIndex α).values name ↔ _)

theorem mentioned_nil (name : String) : mentioned name ([] : List (String × α)) = [] := rfl

theorem mentioned_append (front back : List (String × α)) :
    mentioned name (front ++ back) = mentioned name front ++ mentioned name back :=
  List.filterMap_append

theorem mentioned_cons_self (value : α) (entries : List (String × α)) :
    mentioned name ((name, value) :: entries) = value :: mentioned name entries := by
  simp [mentioned]

theorem mentioned_cons_of_ne {other : String} (h : other ≠ name) (value : α)
    (entries : List (String × α)) :
    mentioned name ((other, value) :: entries) = mentioned name entries := by
  simp [mentioned, h]

/-- What the lines of a text tell about a name, one after another: a line stands for an
entry under the name and gives its value, or it tells nothing about the name. -/
inductive Met (EntryLine : List Char → String → α → Prop) (name : String) :
    List (List Char) → List α → Prop
  | nil : Met EntryLine name [] []
  | entry {line : List Char} {value : α} {lines : List (List Char)} {values : List α} :
      EntryLine line name value → Met EntryLine name lines values →
      Met EntryLine name (line :: lines) (value :: values)
  | other {line : List Char} {lines : List (List Char)} {values : List α} :
      (∀ value, ¬ EntryLine line name value) → Met EntryLine name lines values →
      Met EntryLine name (line :: lines) values

variable {read : List Char → Option (String × α)} {EntryLine : List Char → String → α → Prop}

theorem met_mentioned
    (hread : ∀ line name value, read line = some (name, value) ↔ EntryLine line name value)
    (name : String) (lines : List (List Char)) :
    Met EntryLine name lines (mentioned name (lines.filterMap read)) := by
  induction lines with
  | nil => exact .nil
  | cons line lines ih =>
    cases hline : read line with
    | none =>
      rw [List.filterMap_cons_none hline]
      refine .other (fun value hvalue => ?_) ih
      rw [(hread line name value).2 hvalue] at hline
      cases hline
    | some entry =>
      obtain ⟨other, value⟩ := entry
      rw [List.filterMap_cons_some hline]
      by_cases hname : other = name
      · subst hname
        rw [mentioned_cons_self]
        exact .entry ((hread line other value).1 hline) ih
      · rw [mentioned_cons_of_ne hname]
        refine .other (fun value' hvalue' => hname ?_) ih
        rw [(hread line name value').2 hvalue', Option.some.injEq, Prod.mk.injEq] at hline
        exact hline.1.symm

/-! ## Entries that are kept once -/

variable [BEq α]

/-- What is answered for the values that were met: each once, in the order in which they
were met, and nothing when there are none. -/
def listed (values : List α) : Option (List α) :=
  if values.isEmpty then none else some values.eraseDups

theorem getD_listed (values : List α) : (listed values).getD [] = values.eraseDups := by
  cases values with
  | nil => rfl
  | cons value values => rfl

variable [LawfulBEq α]

theorem eraseDups_eq_nil_iff {values : List α} : values.eraseDups = [] ↔ values = [] := by
  simp only [List.eq_nil_iff_forall_not_mem, List.mem_eraseDups]

/-- Answers that are put together are answered once more. -/
theorem listed_getD_append (front back : List α) :
    listed ((listed front).getD [] ++ (listed back).getD []) = listed (front ++ back) := by
  have hempty : (front.eraseDups ++ back.eraseDups).isEmpty = (front ++ back).isEmpty := by
    rw [Bool.eq_iff_iff]
    simp only [List.isEmpty_iff, List.append_eq_nil_iff, eraseDups_eq_nil_iff]
  rw [getD_listed, getD_listed, listed, listed, hempty, eraseDups_append_eraseDups]

/-- Keeping entries once is keeping the values of every name once. -/
theorem mentioned_eraseDups (entries : List (String × α)) :
    mentioned name entries.eraseDups = (mentioned name entries).eraseDups := by
  induction entries using List.reverseRecOn with
  | nil => rfl
  | append_singleton entries entry ih =>
    obtain ⟨other, value⟩ := entry
    rw [eraseDups_concat, mentioned_append, mentioned_append, ih]
    by_cases hname : other = name
    · subst hname
      rw [mentioned_cons_self, mentioned_nil, eraseDups_concat]
      by_cases hmem : (other, value) ∈ entries
      · rw [if_pos hmem, if_pos (mem_mentioned.2 hmem), mentioned_nil]
      · rw [if_neg hmem, if_neg (mt mem_mentioned.1 hmem), mentioned_cons_self, mentioned_nil]
    · have hnone : mentioned name [(other, value)] = [] := mentioned_cons_of_ne hname value []
      rw [hnone, List.append_nil]
      split
      · exact List.append_nil _
      · rw [hnone, List.append_nil]

/-- What is found under a name in an index of given entries. -/
theorem find?_ofEntries (entries : List (String × α)) :
    (ofEntries entries).find? name = listed (mentioned name entries) := by
  have hvalues : (ofEntries entries).values name = (mentioned name entries).eraseDups :=
    mentioned_eraseDups entries
  unfold find? listed
  rw [hvalues]
  split
  · rename_i hnil
    rw [if_pos (List.isEmpty_iff.2 (eraseDups_eq_nil_iff.1 hnil))]
  · rename_i value values heq
    have hne : (mentioned name entries).eraseDups ≠ [] := by simp [heq]
    rw [if_neg (mt List.isEmpty_iff.1 (mt eraseDups_eq_nil_iff.2 hne)), heq]

/-! ## Indices that are read line by line -/

/-- An index is read from a text line by line, one kind of lines standing for entries. -/
structure ReadsLines (parse : String → NameIndex α)
    (EntryLine : List Char → String → α → Prop) : Prop where
  /-- A line stands for one entry at most. -/
  unique : ∀ line name name' value value', EntryLine line name value →
    EntryLine line name' value' → name = name' ∧ value = value'
  /-- What is found under a name is what the lines of the text tell about it. -/
  found : ∀ text name, ∃ values, Met EntryLine name (Text.lines text) values ∧
    (parse text).find? name = listed values
  /-- A line that stands for no entry has no effect, wherever it is. -/
  idle : ∀ text text' line front back, (∀ name value, ¬ EntryLine line name value) →
    Text.lines text = front ++ line :: back → Text.lines text' = front ++ back →
    parse text = parse text'
  /-- What is found in two texts that are joined by a line feed. -/
  joined : ∀ text text' name, (parse (text ++ "\n" ++ text')).find? name =
    listed (((parse text).find? name).getD [] ++ ((parse text').find? name).getD [])

/-- An index is read line by line when its lines are read one by one, blanks at their ends
do not matter, and empty lines stand for nothing. -/
theorem readsLines_ofEntries
    (hread : ∀ line name value, read line = some (name, value) ↔ EntryLine line name value)
    (htrim : ∀ line, read (Text.trim line) = read line) (hempty : read [] = none) :
    ReadsLines (fun text => ofEntries ((Text.lines text).filterMap read)) EntryLine := by
  have hreturn : ∀ line, read (Text.dropReturn line) = read line := by
    intro line
    rw [← htrim, Text.trim_dropReturn, htrim]
  refine ⟨?_, ?_, ?_, ?_⟩
  · intro line name name' value value' h h'
    rw [← hread, (hread line name value).2 h, Option.some.injEq, Prod.mk.injEq] at h'
    exact h'
  · intro text name
    exact ⟨_, met_mentioned hread name _, find?_ofEntries _⟩
  · intro text text' line front back hidle htext htext'
    have hnone : read line = none := by
      rw [Option.eq_none_iff_forall_ne_some]
      rintro ⟨name, value⟩ hline
      exact hidle name value ((hread line name value).1 hline)
    simp only [htext, htext', List.filterMap_append, List.filterMap_cons_none hnone]
  · intro text text' name
    rw [find?_ofEntries, find?_ofEntries, find?_ofEntries, listed_getD_append,
      Text.filterMap_lines_append hreturn hempty, mentioned_append]

end NameIndex

/-! ## The lines of the two indices -/

namespace SourceIndex

/-- A line of the source index: without the blanks at its ends it has one colon.  The file
stands in front of the colon, the function behind it up to the first space, and the hash
behind that up to the next space or the end. -/
structure EntryLine (line : List Char) (name : String) (location : SourceLocation) : Prop where
  count_colon : (Text.trim line).count ':' = 1
  text_eq : ∃ rest, Text.trim line = location.file.toList ++ ':' ::
    (name.toList ++ ' ' :: (location.hash.toList ++ rest)) ∧ (rest = [] ∨ rest.head? = some ' ')
  name_space : ' ' ∉ name.toList
  hash_space : ' ' ∉ location.hash.toList

/-- A line stands for an entry when it has one colon, and a space behind that. -/
theorem exists_entryLine_iff {line : List Char} : (∃ name location, EntryLine line name location) ↔
    (Text.trim line).count ':' = 1 ∧
      ∃ file rest, Text.trim line = file ++ ':' :: rest ∧ ' ' ∈ rest := by
  constructor
  · rintro ⟨name, location, hcount, ⟨rest, htext, -⟩, -, -⟩
    exact ⟨hcount, _, _, htext, by simp⟩
  · rintro ⟨hcount, file, rest, htext, hspace⟩
    obtain ⟨name, back, rfl, hname⟩ := List.eq_append_cons_of_mem hspace
    obtain ⟨hash, more, hpieces⟩ := List.exists_cons_of_ne_nil (Text.pieces_ne_nil ' ' back)
    obtain ⟨-, hhash, rest, hback, hrest⟩ := Text.exists_pieces_eq_iff.1
      ⟨more, show Text.pieces ' ' (name ++ ' ' :: back) = name :: hash :: more by
        rw [Text.pieces_append, Text.pieces_of_not_mem hname, hpieces]; rfl⟩
    exact ⟨String.ofList name, ⟨String.ofList file, String.ofList hash⟩,
      ⟨hcount, ⟨rest, by simpa [htext] using hback, hrest⟩, by simpa using hname,
        by simpa using hhash⟩⟩

/-- A line is read into the entry that it stands for. -/
theorem entry?_eq_some_iff (line : List Char) (name : String) (location : SourceLocation) :
    entry? line = some (name, location) ↔ EntryLine line name location := by
  constructor
  · intro h
    unfold entry? at h
    split at h
    · rename_i file rest hcolon
      split at h
      · rename_i function hash more hspace
        rw [Option.some.injEq, Prod.mk.injEq] at h
        obtain ⟨rfl, rfl⟩ := h
        obtain ⟨hcount, htext⟩ := Text.pieces_eq_pair_iff.1 hcolon
        obtain ⟨hname, hhash, back, rfl, hback⟩ := Text.exists_pieces_eq_iff.1 ⟨more, hspace⟩
        exact ⟨hcount, ⟨back, by simpa using htext, hback⟩, by simpa using hname,
          by simpa using hhash⟩
      · cases h
    · cases h
  · rintro ⟨hcount, ⟨rest, htext, hrest⟩, hname, hhash⟩
    have hcolon := Text.pieces_eq_pair_iff.2 ⟨hcount, htext⟩
    obtain ⟨more, hspace⟩ := Text.exists_pieces_eq_iff.2 ⟨hname, hhash, rest, rfl, hrest⟩
    unfold entry?
    simp only [hcolon, hspace, String.ofList_toList]

end SourceIndex

namespace BlockIndex

/-- A line of the block index: without the blanks at its ends it has two colons, and three
fields between them, the file, the function and the number of blocks.  Blanks around the
fields do not count, and the number is a positive word of 32 bits. -/
structure EntryLine (line : List Char) (name : String) (blocks : String × UInt32) : Prop where
  count_colon : (Text.trim line).count ':' = 2
  text_eq : ∃ file function count,
    Text.trim line = file ++ ':' :: (function ++ ':' :: count) ∧
      blocks.1.toList = Text.trim file ∧ name.toList = Text.trim function ∧
      Text.word32? (Text.trim count) = some blocks.2
  pos : 0 < blocks.2

/-- A line is read into the entry that it stands for. -/
theorem entry?_eq_some_iff (line : List Char) (name : String) (blocks : String × UInt32) :
    entry? line = some (name, blocks) ↔ EntryLine line name blocks := by
  constructor
  · intro h
    unfold entry? at h
    split at h
    · rename_i file function count hcolon
      split at h
      · rename_i number hnumber
        split at h
        · cases h
        · rename_i hpos
          rw [Option.some.injEq, Prod.mk.injEq] at h
          obtain ⟨rfl, rfl⟩ := h
          obtain ⟨hcount, htext⟩ := Text.pieces_eq_triple_iff.1 hcolon
          exact ⟨hcount, ⟨file, function, count, htext, by simp, by simp, hnumber⟩,
            UInt32.pos_iff_ne_zero.2 hpos⟩
      · cases h
    · cases h
  · rintro ⟨hcount, ⟨file, function, count, htext, hfile, hname, hnumber⟩, hpos⟩
    have hcolon := Text.pieces_eq_triple_iff.2 ⟨hcount, htext⟩
    unfold entry?
    simp only [hcolon, hnumber, if_neg (UInt32.pos_iff_ne_zero.1 hpos), ← hfile, ← hname,
      String.ofList_toList]

end BlockIndex

/-! ## What is found -/

/-- Both indices are read line by line.  A line of the source index stands for an entry just
when it has one colon and a space behind that.  What is found in the block index is never
empty, and no number of blocks in it is zero. -/
theorem reads_indices :
    NameIndex.ReadsLines SourceIndex.parse SourceIndex.EntryLine ∧
    (∀ line, (∃ name location, SourceIndex.EntryLine line name location) ↔
      (Text.trim line).count ':' = 1 ∧
        ∃ file rest, Text.trim line = file ++ ':' :: rest ∧ ' ' ∈ rest) ∧
    NameIndex.ReadsLines BlockIndex.parse BlockIndex.EntryLine ∧
    ∀ text name blocks, (BlockIndex.parse text).find? name = some blocks →
      blocks ≠ [] ∧ ∀ entry ∈ blocks, 0 < entry.2 := by
  have htrim : ∀ line, Text.trim (Text.trim line) = Text.trim line := Text.strip_strip Text.isBlank
  have hsource : ∀ line, SourceIndex.entry? (Text.trim line) = SourceIndex.entry? line := by
    intro line
    unfold SourceIndex.entry?
    rw [htrim]
  have hblock : ∀ line, BlockIndex.entry? (Text.trim line) = BlockIndex.entry? line := by
    intro line
    unfold BlockIndex.entry?
    rw [htrim]
  refine ⟨NameIndex.readsLines_ofEntries SourceIndex.entry?_eq_some_iff hsource rfl,
    fun line => SourceIndex.exists_entryLine_iff,
    NameIndex.readsLines_ofEntries BlockIndex.entry?_eq_some_iff hblock rfl, ?_⟩
  intro text name blocks h
  refine ⟨NameIndex.ne_nil_of_find? h, ?_⟩
  intro entry hentry
  rw [← (NameIndex.find?_eq_some_iff.1 h).1, NameIndex.mem_values] at hentry
  obtain ⟨line, -, hline⟩ := List.mem_filterMap.1 (List.mem_eraseDups.1 hentry)
  exact ((BlockIndex.entry?_eq_some_iff line name entry).1 hline).pos

/-- Of the lines for a function two stand for the same entry, and two for none. -/
example : (BlockIndex.parse "png.c : f : +2\r\npng.c:f:0\nf\npng.c:f:2").find? "f" =
    some [("png.c", 2)] := by
  decide +kernel

end FuzzCampaign

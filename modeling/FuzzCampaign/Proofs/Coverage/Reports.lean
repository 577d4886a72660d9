import FuzzCampaign.Proofs.Observation
import FuzzCampaign.Proofs.Text.Cutting

/-!
# Records of coverage reports

A coverage report is a list of sections, and a function may have many of them.  The records
of a report are merged one after another: a function keeps the place of its first record,
and the record in this place gives way to one that covers strictly more.  Place and content
follow different rules, so a list of merged records is told by two facts: the names stand in
the order of their first mention, and each record is the one that counts among all records on
its function.  These two facts determine the list, and they do not depend on where the
records are cut into batches.

A report is read section by section.  Between two sections a reader holds the merged records
and those that wait for the path of their source, and nothing else; so a group of sections is
read into the merge of its records, whatever was read before.

Main definitions:

- `CoverageRecord.Counts`: the record that counts on its function.
- `CoverageRecord.Merged`: what a list of records is merged into.
- `CoverageRecord.Report`: what a report is written from.

Main results:

- `CoverageRecord.Merged.unique`: there is one way to merge records.
- `CoverageRecord.Merged.append`: merging in parts is merging at once.
- `CoverageRecord.merge_keeps_best`: what batches of records are merged into.
- `CoverageRecord.parseReport_sections`: what a written report is read into.
-/

namespace FuzzCampaign

namespace CoverageRecord

section Merging

variable {records other result : List CoverageRecord} {r a : CoverageRecord}

/-! ## The record that counts -/

/-- Of all records on its function this one covers the most blocks, and is the earliest
that does. -/
def Counts (records : List CoverageRecord) (r : CoverageRecord) : Prop :=
  ∃ front back, records = front ++ r :: back ∧
    (∀ q ∈ front, q.name = r.name → q.covered < r.covered) ∧
    ∀ q ∈ back, q.name = r.name → q.covered ≤ r.covered

/-- A record that counts is one of the records. -/
theorem Counts.mem (h : Counts records r) : r ∈ records := by
  obtain ⟨front, back, rfl, -, -⟩ := h
  exact List.mem_append_right _ List.mem_cons_self

/-- No record of the same name covers more than the one that counts. -/
theorem Counts.covered_le (h : Counts records r) (ha : a ∈ records) (hname : a.name = r.name) :
    a.covered ≤ r.covered := by
  obtain ⟨front, back, rfl, hfront, hback⟩ := h
  rcases List.mem_append.1 ha with ha | ha
  · exact UInt32.le_of_lt (hfront a ha hname)
  · rcases List.mem_cons.1 ha with rfl | ha
    · exact UInt32.le_refl _
    · exact hback a ha hname

/-- The record that counts among two lists of records counts in one of them, and the other
list has no better one. -/
theorem counts_append_iff : Counts (records ++ other) r ↔
    (Counts records r ∧ ∀ q ∈ other, q.name = r.name → q.covered ≤ r.covered) ∨
      (Counts other r ∧ ∀ q ∈ records, q.name = r.name → q.covered < r.covered) := by
  constructor
  · rintro ⟨front, back, hsplit, hfront, hback⟩
    rcases List.append_eq_append_iff.1 hsplit with ⟨start, rfl, rfl⟩ | ⟨rest, rfl, hrest⟩
    · refine Or.inr ⟨⟨start, back, rfl, ?_, hback⟩, ?_⟩
      · exact fun q hq => hfront q (List.mem_append_right _ hq)
      · exact fun q hq => hfront q (List.mem_append_left _ hq)
    · cases rest with
      | nil =>
        obtain rfl : r :: back = other := by simpa using hrest
        refine Or.inr ⟨⟨[], back, rfl, by simp, hback⟩, ?_⟩
        simpa using hfront
      | cons q rest =>
        obtain ⟨rfl, rfl⟩ : r = q ∧ back = rest ++ other := by simpa using hrest
        refine Or.inl ⟨⟨front, rest, rfl, hfront, ?_⟩, ?_⟩
        · exact fun q hq => hback q (List.mem_append_left _ hq)
        · exact fun q hq => hback q (List.mem_append_right _ hq)
  · rintro (⟨⟨front, back, rfl, hfront, hback⟩, hother⟩ |
      ⟨⟨front, back, rfl, hfront, hback⟩, hrecords⟩)
    · refine ⟨front, back ++ other, by simp, hfront, ?_⟩
      intro q hq
      rcases List.mem_append.1 hq with hq | hq
      · exact hback q hq
      · exact hother q hq
    · refine ⟨records ++ front, back, by simp, ?_, hback⟩
      intro q hq
      rcases List.mem_append.1 hq with hq | hq
      · exact hrecords q hq
      · exact hfront q hq

/-- Of a single record, that record counts. -/
theorem counts_singleton : Counts [a] r ↔ r = a := by
  constructor
  · exact fun h => List.mem_singleton.1 h.mem
  · rintro rfl
    exact ⟨[], [], rfl, by simp, by simp⟩

/-- A record that comes last counts when it covers more than every earlier one. -/
theorem counts_concat_self (h : ∀ q ∈ records, q.name = a.name → q.covered < a.covered) :
    Counts (records ++ [a]) a :=
  counts_append_iff.2 (Or.inr ⟨counts_singleton.2 rfl, h⟩)

/-- For every function that is recorded one record counts. -/
theorem exists_counts {name : String} (h : name ∈ records.map (·.name)) :
    ∃ r, Counts records r ∧ r.name = name := by
  induction records using List.reverseRecOn with
  | nil => exact absurd h List.not_mem_nil
  | append_singleton records a ih =>
    by_cases hold : name ∈ records.map (·.name)
    · obtain ⟨r, hr, rfl⟩ := ih hold
      by_cases hbetter : a.name = r.name ∧ r.covered < a.covered
      · refine ⟨a, counts_concat_self ?_, hbetter.1⟩
        intro q hq hname
        exact UInt32.lt_of_le_of_lt (hr.covered_le hq (hname.trans hbetter.1)) hbetter.2
      · refine ⟨r, counts_append_iff.2 (Or.inl ⟨hr, ?_⟩), rfl⟩
        intro q hq hname
        obtain rfl := List.mem_singleton.1 hq
        exact UInt32.not_lt.1 fun hlt => hbetter ⟨hname, hlt⟩
    · have hname : a.name = name := by
        rw [List.map_append, List.mem_append] at h
        simpa [eq_comm] using h.resolve_left hold
      refine ⟨a, counts_concat_self ?_, hname⟩
      intro q hq hsame
      exact absurd (List.mem_map.2 ⟨q, hq, hsame.trans hname⟩) hold

/-- For every name that occurs some record counts. -/
theorem exists_counts_of_mem (h : a ∈ records) : ∃ r, Counts records r ∧ r.name = a.name :=
  exists_counts (List.mem_map_of_mem h)

/-- Where every function is recorded once every record counts. -/
theorem counts_iff_mem (h : (records.map (·.name)).Nodup) : Counts records r ↔ r ∈ records := by
  refine ⟨Counts.mem, fun hr => ?_⟩
  obtain ⟨best, hbest, hname⟩ := exists_counts_of_mem hr
  rwa [← List.inj_on_of_nodup_map h hbest.mem hr hname]

/-! ## Merging one record -/

/-- An incoming record is added at the end when its function is not recorded, and else meets
the record on its function, which stays in its place unless it is beaten. -/
theorem mergeOne_cases (records : List CoverageRecord) (a : CoverageRecord) :
    (a.name ∉ records.map (·.name) ∧ mergeOne records a = records ++ [a]) ∨
      ∃ front known back, records = front ++ known :: back ∧ known.name = a.name ∧
        mergeOne records a = front ++ (if known.covered < a.covered then a else known) :: back := by
  induction records with
  | nil => exact Or.inl ⟨List.not_mem_nil, rfl⟩
  | cons first rest ih =>
    rw [mergeOne]
    split
    · rename_i hname
      exact Or.inr ⟨[], first, rest, rfl, hname, rfl⟩
    · rename_i hname
      rcases ih with ⟨hnew, hmerge⟩ | ⟨front, known, back, rfl, hknown, hmerge⟩
      · rw [hmerge, List.map_cons, List.mem_cons, not_or]
        exact Or.inl ⟨⟨Ne.symm hname, hnew⟩, rfl⟩
      · rw [hmerge]
        exact Or.inr ⟨first :: front, known, back, rfl, hknown, rfl⟩

/-- A record that does not cover more than the one on its function changes nothing. -/
theorem mergeOne_of_le (h : (records.map (·.name)).Nodup) (hr : r ∈ records)
    (hname : a.name = r.name) (hle : a.covered ≤ r.covered) : mergeOne records a = records := by
  rcases mergeOne_cases records a with ⟨hnew, -⟩ | ⟨front, known, back, hsplit, hknown, hmerge⟩
  · rw [hname] at hnew
    exact absurd (List.mem_map_of_mem hr) hnew
  · have hmem : known ∈ records := hsplit ▸ List.mem_append_right _ List.mem_cons_self
    obtain rfl := List.inj_on_of_nodup_map h hmem hr (hknown.trans hname)
    rw [hmerge, if_neg (UInt32.not_lt.2 hle), hsplit]

/-- Records were merged: the functions are recorded in the order of their first mention, each
by the record that counts. -/
structure Merged (records result : List CoverageRecord) : Prop where
  map_name : result.map (·.name) = (records.map (·.name)).eraseDups
  mem_iff : ∀ r, r ∈ result ↔ Counts records r

/-- A merged list has each name once. -/
theorem Merged.nodup (h : Merged records result) : (result.map (·.name)).Nodup := by
  rw [h.map_name]
  exact nodup_eraseDups _

/-- Of no records nothing is left. -/
theorem Merged.nil : Merged [] [] :=
  ⟨rfl, fun _ => ⟨fun hr => absurd hr List.not_mem_nil, Counts.mem⟩⟩

/-- Records on different functions are merged as they are. -/
theorem Merged.of_nodup (h : (records.map (·.name)).Nodup) : Merged records records :=
  ⟨(eraseDups_of_nodup h).symm, fun _ => (counts_iff_mem h).symm⟩

/-- There is one way to merge records. -/
theorem Merged.unique (h : Merged records result) (h' : Merged records other) :
    result = other := by
  have hlength : result.length = other.length := by
    simpa using congrArg List.length (h.map_name.trans h'.map_name.symm)
  refine List.ext_getElem hlength ?_
  intro i hi hi'
  have hmem : result[i] ∈ other := (h'.mem_iff _).2 ((h.mem_iff _).1 (List.getElem_mem hi))
  have hname : result[i].name = other[i].name := by
    have hnames := congrArg (·[i]?) (h.map_name.trans h'.map_name.symm)
    simpa [hi, hi'] using hnames
  exact List.inj_on_of_nodup_map h'.nodup hmem (List.getElem_mem hi') hname

/-- What the records on a function cover at most can be read off the merged ones. -/
theorem Merged.forall_iff (h : Merged records result) {P : UInt32 → Prop} {name : String}
    (hP : ∀ {m n}, m ≤ n → P n → P m) :
    (∀ q ∈ result, q.name = name → P q.covered) ↔ ∀ q ∈ records, q.name = name → P q.covered := by
  constructor
  · rintro hall q hq rfl
    obtain ⟨r, hr, hname⟩ := exists_counts_of_mem hq
    exact hP (hr.covered_le hq hname.symm) (hall r ((h.mem_iff r).2 hr) hname)
  · exact fun hall q hq => hall q ((h.mem_iff q).1 hq).mem

/-- Merging two parts that were merged before is merging all of their records. -/
theorem Merged.append {x y x' y' : List CoverageRecord} (hx : Merged x x') (hy : Merged y y')
    (h : Merged (x' ++ y') result) : Merged (x ++ y) result := by
  refine ⟨?_, ?_⟩
  · rw [h.map_name, List.map_append, hx.map_name, hy.map_name, eraseDups_append_eraseDups,
      List.map_append]
  · intro r
    rw [h.mem_iff, counts_append_iff, counts_append_iff, counts_iff_mem hx.nodup,
      counts_iff_mem hy.nodup, hx.mem_iff, hy.mem_iff,
      hx.forall_iff fun hmn hn => UInt32.lt_of_le_of_lt hmn hn,
      hy.forall_iff fun hmn hn => UInt32.le_trans hmn hn]

/-- Merging one record keeps every record that it does not beat, and takes it when it beats
the record on its function. -/
theorem mem_mergeOne (h : (records.map (·.name)).Nodup) : r ∈ mergeOne records a ↔
    (r ∈ records ∧ (a.name = r.name → a.covered ≤ r.covered)) ∨
      (r = a ∧ ∀ q ∈ records, q.name = a.name → q.covered < a.covered) := by
  rcases mergeOne_cases records a with ⟨hnew, hmerge⟩ | ⟨front, known, back, rfl, hknown, hmerge⟩
  · have hothers : ∀ q ∈ records, q.name ≠ a.name :=
      fun q hq heq => hnew (List.mem_map.2 ⟨q, hq, heq⟩)
    rw [hmerge, List.mem_append, List.mem_singleton]
    refine or_congr ?_ ?_
    · exact (and_iff_left_of_imp fun hr heq => absurd heq.symm (hothers r hr)).symm
    · exact (and_iff_left_of_imp fun _ q hq heq => absurd heq (hothers q hq)).symm
  · have hothers : ∀ q ∈ front ++ back, q.name ≠ a.name := by
      intro q hq heq
      have hperm : (front ++ known :: back).Perm (known :: (front ++ back)) := List.perm_middle
      have hnodup := (hperm.map (·.name)).nodup h
      exact (List.nodup_cons.1 hnodup).1 (List.mem_map.2 ⟨q, hq, heq.trans hknown.symm⟩)
    have hmem : ∀ b, r ∈ front ++ b :: back ↔ r = b ∨ r ∈ front ++ back := by
      intro b
      rw [List.mem_append, List.mem_cons, List.mem_append, or_left_comm]
    have hbeaten : (∀ q ∈ front ++ known :: back, q.name = a.name → q.covered < a.covered) ↔
        known.covered < a.covered := by
      grind
    rw [hmerge, hmem, hmem, hbeaten]
    by_cases hlt : known.covered < a.covered
    · grind
    · grind

/-- Merging one record into merged ones. -/
theorem Merged.mergeOne (h : (records.map (·.name)).Nodup) (a : CoverageRecord) :
    Merged (records ++ [a]) (mergeOne records a) := by
  refine ⟨?_, ?_⟩
  · rw [map_name_mergeOne, List.map_append, List.map_singleton, eraseDups_concat,
      eraseDups_of_nodup h]
    split
    · rw [List.append_nil]
    · rfl
  · intro r
    rw [mem_mergeOne h, counts_append_iff, counts_iff_mem h, counts_singleton]
    simp only [List.forall_mem_singleton]
    refine or_congr_right (and_congr_right ?_)
    rintro rfl
    rfl

/-- Merging records one after another. -/
theorem Merged.merge (h : Merged records result) (incoming : List CoverageRecord) :
    Merged (records ++ incoming) (merge result incoming) := by
  induction incoming using List.reverseRecOn with
  | nil => rwa [List.append_nil]
  | append_singleton incoming a ih =>
    rw [merge_append, ← List.append_assoc]
    exact ih.append (.of_nodup (List.nodup_singleton _)) (.mergeOne ih.nodup a)

/-- Merging leaves each name with the record that counts. -/
theorem merged_merge (records : List CoverageRecord) : Merged records (merge [] records) :=
  Merged.nil.merge records

/-- Merging batches one after another is merging all of their records. -/
theorem merged_batches (batches : List (List CoverageRecord)) :
    Merged batches.flatten (batches.foldl merge []) := by
  induction batches using List.reverseRecOn with
  | nil => exact Merged.nil
  | append_singleton batches batch ih =>
    rw [List.flatten_concat, List.foldl_concat]
    exact ih.merge batch

/-- Merging the parts of a list first changes nothing. -/
theorem merge_merge_append (x y : List CoverageRecord) :
    merge [] (merge [] x ++ merge [] y) = merge [] (x ++ y) :=
  ((merged_merge x).append (merged_merge y) (merged_merge _)).unique (merged_merge (x ++ y))

/-- Merging what was merged changes nothing. -/
theorem merge_merge (x : List CoverageRecord) : merge [] (merge [] x) = merge [] x := by
  simpa using merge_merge_append x []

/-- Records that were merged before change nothing when they are merged again. -/
theorem merge_of_merged (h : Merged records result) (hother : ∀ r ∈ other, r ∈ records) :
    merge result other = result := by
  induction other with
  | nil => rfl
  | cons a other ih =>
    obtain ⟨ha, hother⟩ := List.forall_mem_cons.1 hother
    obtain ⟨r, hr, hname⟩ := exists_counts_of_mem ha
    have hsame : mergeOne result a = result :=
      mergeOne_of_le h.nodup ((h.mem_iff r).2 hr) hname.symm (hr.covered_le ha hname.symm)
    rw [merge, List.foldl_cons, hsame]
    exact ih hother

/-- However records are merged in batches, every function is recorded once, in the order of
the first mentions, and by the earliest of the records that cover most of it.  So merging is
associative, and merging again what was merged before changes nothing. -/
theorem merge_keeps_best (batches : List (List CoverageRecord)) :
    (((batches.foldl merge []).map (·.name)).Nodup ∧
      (batches.foldl merge []).map (·.name) = (batches.flatten.map (·.name)).eraseDups ∧
      ∀ r, r ∈ batches.foldl merge [] ↔ Counts batches.flatten r) ∧
    (∀ x y, merge [] (x ++ y) = merge [] (merge [] x ++ merge [] y)) ∧
    (∀ x y z, merge [] (merge [] (x ++ y) ++ z) = merge [] (x ++ merge [] (y ++ z))) ∧
    ∀ again, (∀ r ∈ again, r ∈ batches.flatten) →
      merge (batches.foldl merge []) again = batches.foldl merge [] := by
  have hmerged := merged_batches batches
  refine ⟨⟨hmerged.nodup, hmerged.map_name, hmerged.mem_iff⟩, ?_, ?_, ?_⟩
  · exact fun x y => (merge_merge_append x y).symm
  · intro x y z
    calc merge [] (merge [] (x ++ y) ++ z)
        = merge [] (merge [] (x ++ y) ++ merge [] z) := by
          rw [← merge_merge_append, merge_merge]
      _ = merge [] (merge [] x ++ merge [] (y ++ z)) := by
          rw [merge_merge_append, merge_merge_append, List.append_assoc]
      _ = merge [] (x ++ merge [] (y ++ z)) := by
          rw [← merge_merge_append x, merge_merge]
  · exact fun again hagain => merge_of_merged hmerged hagain

/-- A later record on a function that covers as much does not displace the earlier one, and
merging the beaten record once more changes nothing. -/
theorem merge_keeps_best_tie :
    let weak : CoverageRecord := { name := "parse", totalBlocks := 9, covered := 3 }
    let first : CoverageRecord := { name := "parse", path := "a.c", totalBlocks := 9, covered := 5 }
    let second := { first with path := "b.c" }
    let other : CoverageRecord := { name := "crc", totalBlocks := 4, covered := 1 }
    let batches := [[weak, other], [first], [], [second]]
    (∀ r ∈ [other, weak], r ∈ batches.flatten) ∧
      (batches.foldl merge []).map (·.name) = ["parse", "crc"] ∧
      first ∈ batches.foldl merge [] ∧ second ∉ batches.foldl merge [] ∧
      merge (batches.foldl merge []) [other, weak] = batches.foldl merge [] := by
  intro weak first second other batches
  obtain ⟨⟨hnodup, hnames, hmem⟩, -, -, hagain⟩ := merge_keeps_best batches
  have hknown : ∀ r ∈ [other, weak], r ∈ batches.flatten := by decide
  have hfirst : first ∈ batches.foldl merge [] :=
    (hmem first).2 ⟨[weak, other], [second], by decide, by decide, by decide⟩
  refine ⟨hknown, hnames.trans (by decide), hfirst, fun hsecond => ?_, hagain _ hknown⟩
  exact absurd (List.inj_on_of_nodup_map hnodup hfirst hsecond rfl) (by decide)

end Merging

/-! ## Sections of a report -/

/-- A line between the head of a section and the blank line that ends it. -/
structure IsInner (line : List Char) : Prop where
  not_blank : Text.isBlankLine line = false
  not_function : ¬ "Function".toList <+: line
  not_file : ¬ "File ".toList <+: line

/-- The total and the covered blocks that a line tells, if it tells them legibly. -/
def share? (line : List Char) : Option (UInt32 × UInt32) :=
  if "Taken at least once".toList <+: line then taken? line else none

/-- A section: a head with a title in quotes, inner lines, and a blank line. -/
structure ReportBlock where
  title : String
  inner : List (List Char)
  gap : List Char
  quote_not_mem : '\x27' ∉ title.toList
  isInner : ∀ line ∈ inner, IsInner line
  isBlank_gap : Text.isBlankLine gap = true

instance : DecidablePred IsInner := fun line =>
  decidable_of_iff (Text.isBlankLine line = false ∧ ¬ "Function".toList <+: line ∧
    ¬ "File ".toList <+: line)
    ⟨fun h => ⟨h.1, h.2.1, h.2.2⟩, fun h => ⟨h.not_blank, h.not_function, h.not_file⟩⟩

namespace ReportBlock

/-- The lines of a section whose head begins with a word. -/
def lines (word : String) (b : ReportBlock) : List (List Char) :=
  (word.toList ++ '\x27' :: (b.title.toList ++ ['\x27'])) :: (b.inner ++ [b.gap])

/-- The share that the last legible line of a section tells. -/
def share (b : ReportBlock) : UInt32 × UInt32 := (b.inner.filterMap share?).getLast?.getD (0, 0)

/-- The record of a function section whose source is not known yet. -/
def record (b : ReportBlock) : CoverageRecord where
  name := b.title
  totalBlocks := b.share.1
  covered := b.share.2

end ReportBlock

/-- A record with the path of its source. -/
def filed (path : String) (record : CoverageRecord) : CoverageRecord :=
  { record with
    file := String.ofList
      ((Text.pieces '/' path.toList).getLast (Text.pieces_ne_nil '/' path.toList))
    path := path }

/-- Function sections and the file section that names their source. -/
structure ReportGroup where
  functions : List ReportBlock
  file : ReportBlock

namespace ReportGroup

/-- The lines of a group. -/
def lines (g : ReportGroup) : List (List Char) :=
  g.functions.flatMap (·.lines "Function ") ++ g.file.lines "File "

/-- The records of the function sections of a group. -/
def records (g : ReportGroup) : List CoverageRecord :=
  g.functions.map fun b => filed g.file.title b.record

end ReportGroup

/-- A report: groups of sections, and function sections whose source is not named. -/
structure Report where
  groups : List ReportGroup
  unfiled : List ReportBlock

namespace Report

/-- The lines of a report. -/
def lines (report : Report) : List (List Char) :=
  report.groups.flatMap (·.lines) ++ report.unfiled.flatMap (·.lines "Function ")

/-- The records of all groups. -/
def records (report : Report) : List CoverageRecord := report.groups.flatMap (·.records)

end Report

/-! ## Reading sections -/

/-- The file name of a path is the last piece between slashes. -/
theorem fileOfPath_eq_getLast (path : List Char) :
    fileOfPath path = (Text.pieces '/' path).getLast (Text.pieces_ne_nil '/' path) := by
  have hname : path.rtakeWhile (· != '/') = fileOfPath path := rfl
  have hfile : '/' ∉ fileOfPath path := by
    intro hmem
    rw [← hname] at hmem
    have hother := List.mem_rtakeWhile_imp hmem
    exact absurd hother (by decide)
  have hpath : path.rdropWhile (· != '/') ++ fileOfPath path = path :=
    List.rdropWhile_append_rtakeWhile
  rcases List.eq_nil_or_concat (path.rdropWhile (· != '/')) with hnil | ⟨front, c, hdir⟩
  · rw [hnil, List.nil_append] at hpath
    rw [hpath] at hfile
    simp only [Text.pieces_of_not_mem hfile, List.getLast_singleton, hpath]
  · obtain rfl : c = '/' := by
      have hlast := List.rdropWhile_last_not (· != '/') path (by simp [hdir])
      simpa [hdir] using hlast
    have hsplit : path = front ++ '/' :: fileOfPath path := by
      conv_lhs => rw [← hpath, hdir]
      simp
    have hpieces : Text.pieces '/' path = Text.pieces '/' front ++ [fileOfPath path] := by
      conv_lhs => rw [hsplit]
      rw [Text.pieces_append, Text.pieces_of_not_mem hfile]
    simp only [hpieces, List.getLast_append_singleton]

/-- The title of a section is what its head has in quotes. -/
theorem quoted?_head {word title : List Char} (hword : '\x27' ∉ word) (htitle : '\x27' ∉ title) :
    quoted? (word ++ '\x27' :: (title ++ ['\x27'])) = some title := by
  rw [quoted?, Text.pieces_append, Text.pieces_append, Text.pieces_of_not_mem hword,
    Text.pieces_of_not_mem htitle]
  rfl

/-- The title line of a function is read back. -/
theorem ofLine_function (b : ReportBlock) :
    ReportLine.ofLine ("Function ".toList ++ '\x27' :: (b.title.toList ++ ['\x27'])) =
      .function (some b.title) := by
  have hword : "Function".toList <+: "Function ".toList := by decide
  have hstarts := hword.trans
    (List.prefix_append _ ('\x27' :: (b.title.toList ++ ['\x27'])))
  rw [ReportLine.ofLine, if_pos (List.isPrefixOf_iff_prefix.2 hstarts),
    quoted?_head (by decide) b.quote_not_mem, Option.map_some, String.ofList_toList]

/-- The title line of a file is read back. -/
theorem ofLine_file (b : ReportBlock) :
    ReportLine.ofLine ("File ".toList ++ '\x27' :: (b.title.toList ++ ['\x27'])) =
      .file (some b.title.toList) := by
  have hfile : "File ".toList <+: "File ".toList ++ '\x27' :: (b.title.toList ++ ['\x27']) :=
    List.prefix_append _ _
  have hfunction : ¬ "Function".toList <+:
      "File ".toList ++ '\x27' :: (b.title.toList ++ ['\x27']) := by
    intro hstarts
    exact absurd (List.prefix_of_prefix_length_le hfile hstarts (by decide)) (by decide)
  rw [ReportLine.ofLine, if_neg (mt List.isPrefixOf_iff_prefix.1 hfunction),
    if_pos (List.isPrefixOf_iff_prefix.2 hfile), quoted?_head (by decide) b.quote_not_mem]

/-- A blank line does not start with a word. -/
theorem not_isPrefixOf_of_isBlankLine {word line : List Char}
    (hword : ∃ c ∈ word, Text.isBlank c = false) (h : Text.isBlankLine line = true) :
    ¬ word.isPrefixOf line = true := by
  obtain ⟨c, hc, hblank⟩ := hword
  obtain ⟨front, back, hline, hfront, hback⟩ := Text.exists_sides Text.isBlank line
  rw [← Text.trim_eq_strip, List.isEmpty_iff.1 h, List.append_nil] at hline
  intro hstarts
  have hmem : c ∈ front ++ back := hline ▸ (List.isPrefixOf_iff_prefix.1 hstarts).subset hc
  rw [(List.mem_append.1 hmem).elim (hfront c) (hback c)] at hblank
  exact absurd hblank (by decide)

/-- A blank line is read as the end of a block. -/
theorem ofLine_of_isBlankLine {line : List Char} (h : Text.isBlankLine line = true) :
    ReportLine.ofLine line = .blank := by
  rw [ReportLine.ofLine, if_neg (not_isPrefixOf_of_isBlankLine ⟨'F', by decide, by decide⟩ h),
    if_neg (not_isPrefixOf_of_isBlankLine ⟨'F', by decide, by decide⟩ h),
    if_neg (not_isPrefixOf_of_isBlankLine ⟨'T', by decide, by decide⟩ h), if_pos h]

/-- A line inside a block tells a share or nothing. -/
theorem ofLine_of_isInner {line : List Char} (h : IsInner line) :
    ReportLine.ofLine line =
      if "Taken at least once".toList <+: line then .taken (taken? line) else .other := by
  rw [ReportLine.ofLine, if_neg (mt List.isPrefixOf_iff_prefix.1 h.not_function),
    if_neg (mt List.isPrefixOf_iff_prefix.1 h.not_file), h.not_blank]
  simp only [List.isPrefixOf_iff_prefix, Bool.false_eq_true, if_false]

namespace ReportReader

/-- Read lines one after another. -/
def readAll (r : ReportReader) (lines : List (List Char)) : ReportReader :=
  (lines.map ReportLine.ofLine).foldl read r

@[simp] theorem readAll_nil (r : ReportReader) : r.readAll [] = r := rfl

@[simp] theorem readAll_cons (r : ReportReader) (line : List Char) (lines : List (List Char)) :
    r.readAll (line :: lines) = (r.read (.ofLine line)).readAll lines := rfl

/-- Lines are read one after the other. -/
theorem readAll_append (r : ReportReader) (front back : List (List Char)) :
    r.readAll (front ++ back) = (r.readAll front).readAll back := by
  simp [readAll]

/-- Between two sections: what is merged, and what waits for its file. -/
def between (records pending : List CoverageRecord) : ReportReader := { records, pending }

/-- Within the section of a function, with the share that was told last. -/
def within (records pending : List CoverageRecord) (name : String) (share : UInt32 × UInt32) :
    ReportReader where
  records := records
  pending := pending
  current := some { name, totalBlocks := share.1, covered := share.2 }
  part := .function

section

variable (records pending : List CoverageRecord)

/-- An inner line of a function section tells a share or nothing. -/
theorem read_inner_function (name : String) (share : UInt32 × UInt32) {line : List Char}
    (h : IsInner line) : (within records pending name share).read (.ofLine line) =
      within records pending name ((share? line).getD share) := by
  rw [ofLine_of_isInner h, share?]
  split
  · cases htaken : taken? line with
    | none => rfl
    | some other => rfl
  · rfl

/-- Inside the block of a function the last share that is told counts. -/
theorem readAll_inner_function (name : String) (share : UInt32 × UInt32)
    {lines : List (List Char)} (h : ∀ line ∈ lines, IsInner line) :
    (within records pending name share).readAll lines =
      within records pending name ((lines.filterMap share?).getLast?.getD share) := by
  induction lines using List.reverseRecOn with
  | nil => rfl
  | append_singleton lines line ih =>
    obtain ⟨hlines, hline⟩ := List.forall_mem_append.1 h
    rw [readAll_append, ih hlines, readAll_cons, readAll_nil,
      read_inner_function records pending name _ (hline line List.mem_cons_self),
      List.filterMap_append]
    cases hshare : share? line with
    | none => simp [hshare]
    | some other => simp [hshare]

/-- An inner line of a file section tells nothing. -/
theorem read_inner_file {r : ReportReader} (hr : r.part = .file) {line : List Char}
    (h : IsInner line) : r.read (.ofLine line) = r := by
  rw [ofLine_of_isInner h]
  split
  · cases htaken : taken? line with
    | none => rfl
    | some share => simp [read, hr]
  · rfl

/-- The lines inside the block of a file change nothing. -/
theorem readAll_inner_file {r : ReportReader} (hr : r.part = .file) {lines : List (List Char)}
    (h : ∀ line ∈ lines, IsInner line) : r.readAll lines = r := by
  induction lines with
  | nil => rfl
  | cons line lines ih =>
    obtain ⟨hline, hlines⟩ := List.forall_mem_cons.1 h
    rw [readAll_cons, read_inner_file hr hline, ih hlines]

/-- A function section is read into one more record that waits. -/
theorem readAll_function (b : ReportBlock) :
    (between records pending).readAll (b.lines "Function ") =
      between records (pending ++ [b.record]) := by
  have hhead : (between records pending).read (.function (some b.title)) =
      within records pending b.title (0, 0) := rfl
  rw [ReportBlock.lines, readAll_cons, ofLine_function, readAll_append, hhead,
    readAll_inner_function records pending b.title _ b.isInner, readAll_cons, readAll_nil,
    ofLine_of_isBlankLine b.isBlank_gap]
  rfl

/-- A file section is read into the path of the records that wait, and releases them. -/
theorem readAll_file (b : ReportBlock) :
    (between records pending).readAll (b.lines "File ") =
      between (merge records (pending.map (filed b.title))) [] := by
  have hhead : (between records pending).read (.file (some b.title.toList)) =
      { between records (pending.map (filed b.title)) with part := .file } := by
    simp only [read, setFile, fileOfPath_eq_getLast, String.ofList_toList]
    rfl
  rw [ReportBlock.lines, readAll_cons, ofLine_file, readAll_append, hhead,
    readAll_inner_file rfl b.isInner, readAll_cons, readAll_nil,
    ofLine_of_isBlankLine b.isBlank_gap]
  rfl

/-- The blocks of functions leave their records pending. -/
theorem readAll_functions (blocks : List ReportBlock) :
    (between records pending).readAll (blocks.flatMap (·.lines "Function ")) =
      between records (pending ++ blocks.map (·.record)) := by
  induction blocks generalizing pending with
  | nil => simp
  | cons b blocks ih =>
    rw [List.flatMap_cons, readAll_append, readAll_function, ih, List.append_assoc]
    rfl

/-- A group is read into its records. -/
theorem readAll_group (g : ReportGroup) :
    (between records []).readAll g.lines = between (merge records g.records) [] := by
  rw [ReportGroup.lines, readAll_append, readAll_functions, readAll_file, List.nil_append,
    List.map_map]
  rfl

/-- Each group merges its records into those of the groups before it. -/
theorem readAll_groups (groups : List ReportGroup) :
    (between records []).readAll (groups.flatMap (·.lines)) =
      between (merge records (groups.flatMap (·.records))) [] := by
  induction groups generalizing records with
  | nil => rfl
  | cons g groups ih =>
    rw [List.flatMap_cons, readAll_append, readAll_group, ih, List.flatMap_cons, merge_append]

end

/-- A report is read into the records of its groups; the sections that no file section
follows wait in vain. -/
theorem readAll_report (report : Report) :
    ReportReader.readAll {} report.lines =
      between (merge [] report.records) (report.unfiled.map (·.record)) := by
  have hstart : ({} : ReportReader) = between [] [] := rfl
  rw [Report.lines, readAll_append, hstart, readAll_groups, readAll_functions]
  rfl

/-- The end of the text keeps the names apart. -/
theorem nodup_close {r : ReportReader} (h : (r.records.map (·.name)).Nodup) :
    (r.close.records.map (·.name)).Nodup := by
  rw [close]
  split
  · exact h
  · exact ((Merged.of_nodup h).merge r.pending).nodup
  · exact h

/-- Records are merged only, so that no function is recorded twice. -/
theorem nodup_read {r : ReportReader} (h : (r.records.map (·.name)).Nodup) (line : ReportLine) :
    ((r.read line).records.map (·.name)).Nodup := by
  cases line with
  | function name => exact h
  | file path => cases path <;> exact h
  | taken blocks =>
    cases blocks with
    | none => exact h
    | some blocks =>
      rw [read]
      split <;> exact h
  | blank => exact nodup_close h
  | other => exact h

/-- Closing twice is closing once. -/
theorem close_close (r : ReportReader) : r.close.close = r.close := by
  obtain ⟨records, pending, current, part⟩ := r
  cases part <;> rfl

end ReportReader

/-- Whatever a text holds, no function is recorded twice. -/
theorem nodup_name_parseReport (text : String) : ((parseReport text).map (·.name)).Nodup := by
  have hread : ∀ lines : List ReportLine,
      (((lines.foldl ReportReader.read {}).records).map (·.name)).Nodup := by
    intro lines
    induction lines using List.reverseRecOn with
    | nil => exact List.nodup_nil
    | append_singleton lines line ih =>
      rw [List.foldl_concat]
      exact ReportReader.nodup_read ih line
  exact ReportReader.nodup_close (hread _)

/-- The records of a text that was written from a report. -/
theorem parseReport_eq_merge (report : Report) {text : String}
    (h : Text.Written report.lines text.toList) : parseReport text = merge [] report.records := by
  have hread : parseReport text = (ReportReader.readAll {} report.lines).close.records := by
    rcases h.lines_eq with hlines | hlines
    · rw [hlines]
      rfl
    · rw [hlines, ReportReader.readAll_append, ReportReader.readAll_cons, ReportReader.readAll_nil,
        ofLine_of_isBlankLine rfl]
      exact (congrArg ReportReader.records (ReportReader.close_close _)).symm
  rw [hread, ReportReader.readAll_report]
  rfl

/-- Reading a report gives one record for each function of its groups, in the order of the
first mentions: of the function sections on it the earliest of those that cover most, with
the share that the last legible line of the section tells, and with the path of the file
section of its group.  Sections that no file section follows give nothing. -/
theorem parseReport_sections (report : Report) {text : String}
    (h : Text.Written report.lines text.toList) :
    ((parseReport text).map (·.name)).Nodup ∧
    (parseReport text).map (·.name) =
      (report.groups.flatMap fun g => g.functions.map (·.title)).eraseDups ∧
    ∀ r, r ∈ parseReport text ↔ Counts report.records r := by
  have hmerged := merged_merge report.records
  have hnames : report.records.map (·.name) =
      report.groups.flatMap fun g => g.functions.map (·.title) := by
    rw [Report.records, List.map_flatMap]
    simp only [ReportGroup.records, List.map_map]
    rfl
  rw [parseReport_eq_merge report h, ← hnames]
  exact ⟨hmerged.nodup, hmerged.map_name, hmerged.mem_iff⟩

/-- Two functions of one source, of which the first is reported on again under another
source, and a section that no file section follows. -/
def twoSources : Report where
  groups :=
    [⟨[⟨"parse", ["Taken at least once:none".toList], [], by decide, by decide, by decide⟩,
       ⟨"crc", ["Taken at least once:50.00% of 4".toList, "No calls".toList], [], by decide,
        by decide, by decide⟩],
      ⟨"src/zip.c", [], [' '], by decide, by decide, by decide⟩⟩,
     ⟨[⟨"parse", [], [], by decide, by decide, by decide⟩],
      ⟨"lib.c", [], [], by decide, by decide, by decide⟩⟩]
  unfiled := [⟨"lost", [], [], by decide, by decide, by decide⟩]

/-- The report as a text. -/
def twoSourcesText : String :=
  "Function 'parse'\nTaken at least once:none\n\nFunction 'crc'\n" ++
    "Taken at least once:50.00% of 4\nNo calls\n\nFile 'src/zip.c'\n \n" ++
    "Function 'parse'\n\nFile 'lib.c'\n\nFunction 'lost'\n\n"

/-- The text of the report is written in its lines. -/
theorem written_twoSources : Text.Written twoSources.lines twoSourcesText.toList := by
  have htext : twoSourcesText.toList = twoSources.lines.flatMap (· ++ ['\n']) := by
    unfold twoSourcesText
    simp only [String.toList_append]
    decide +kernel
  rw [htext]
  exact Text.written_flatMap (by decide +kernel) (by decide +kernel)

/-- Its records, of which the last one is merged into the first. -/
theorem records_twoSources : ∃ covered, twoSources.records =
    [{ name := "parse", file := "zip.c", path := "src/zip.c" },
     { name := "crc", file := "zip.c", path := "src/zip.c", totalBlocks := 4, covered },
     { name := "parse", file := "lib.c", path := "lib.c" }] :=
  ⟨_, rfl⟩

/-- Of two sections on a function that cover as much the earlier one is kept, with its path;
the last section leaves no record. -/
theorem parseReport_sections_twoSources :
    Text.Written twoSources.lines twoSourcesText.toList ∧
      (parseReport twoSourcesText).map (·.name) = ["parse", "crc"] ∧
      { name := "parse", file := "zip.c", path := "src/zip.c" } ∈ parseReport twoSourcesText ∧
      ∃ r ∈ parseReport twoSourcesText, r.name = "crc" ∧ r.file = "zip.c" ∧ r.totalBlocks = 4 := by
  obtain ⟨-, hnames, hmem⟩ := parseReport_sections twoSources written_twoSources
  obtain ⟨covered, hrecords⟩ := records_twoSources
  rw [hrecords] at hmem
  refine ⟨written_twoSources, hnames.trans (by decide), ?_, ?_⟩
  · rw [hmem]
    exact ⟨[], _, rfl, by simp, by simp⟩
  · exact ⟨_, (hmem _).2 ⟨[_], [_], rfl, by simp, by simp⟩, rfl, rfl, rfl⟩

end CoverageRecord

end FuzzCampaign

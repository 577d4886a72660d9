import FuzzCampaign.Proofs.Index
import FuzzCampaign.Proofs.Partition.Coverage
import Mathlib.Data.Prod.Lex

/-!
# Task files lose nothing

A task is written without quoting: a line is a file, a colon and a function.  It can be read
back all the same, since a task obliges only what the source index knows, and the index was
read from lines that were cut at their one colon.  So neither a file nor a function of the
index has a colon or a line feed in it, whatever the functions of the call graph are called.

Main definitions:

- `Obligation.key`: what the lines of a task file are ordered by.
- `Obligation.ofLine?`: read a line of a task file.
- `Task.Legible`: a task that can be read back from its text.

Main results:

- `SourceIndex.isPlain_of_mem_values`: what the index knows does not disturb a line.
- `CallGraph.split_legible`: every task of a plan can be read back.
-/

namespace FuzzCampaign

namespace Obligation

/-! ## The order of obligations -/

/-- Obligations are ordered by file, and those in one file by function. -/
def key (o : Obligation) : String ×ₗ String := toLex (o.sourceFile, o.function)

theorem key_injective : Function.Injective key := by
  rintro ⟨file, function⟩ ⟨file', function'⟩ h
  simpa [key] using h

theorem precedes_eq_true_iff {a b : Obligation} : a.precedes b = true ↔ a.key ≤ b.key := by
  rw [key, key, Prod.Lex.toLex_le_toLex]
  simp [precedes]

/-- Arranged obligations are in strictly ascending order. -/
theorem pairwise_arrange (obligations : List Obligation) :
    (arrange obligations).Pairwise fun a b => a.key < b.key := by
  have hsorted : (arrange obligations).Pairwise fun a b => a.precedes b = true := by
    refine List.pairwise_mergeSort (fun a b c => ?_) (fun a b => ?_) obligations.eraseDups
    · simpa only [precedes_eq_true_iff] using le_trans
    · simpa only [Bool.or_eq_true, precedes_eq_true_iff] using le_total a.key b.key
  refine hsorted.imp₂ ?_ (nodup_arrange obligations)
  intro a b hle hne
  exact lt_of_le_of_ne (precedes_eq_true_iff.1 hle) (key_injective.ne hne)

/-! ## Lines of a task file -/

/-- Read a line of a task file: the file stands in front of the first colon, and the
function behind it. -/
def ofLine? (line : List Char) : Option Obligation :=
  (Text.cutAt [':'] line).map fun parts => ⟨String.ofList parts.1, String.ofList parts.2⟩

/-- Neither the file nor the function of an obligation ends a field or a line. -/
structure IsPlain (o : Obligation) : Prop where
  file_colon : ':' ∉ o.sourceFile.toList
  function_colon : ':' ∉ o.function.toList
  file_feed : '\n' ∉ o.sourceFile.toList
  function_feed : '\n' ∉ o.function.toList

theorem toList_render (o : Obligation) :
    o.render.toList = o.sourceFile.toList ++ ':' :: o.function.toList := by
  simp [render]

/-- The line of an obligation gives it back. -/
theorem IsPlain.ofLine?_render {o : Obligation} (h : o.IsPlain) :
    ofLine? o.render.toList = some o := by
  rw [ofLine?, toList_render, Text.cutAt_singleton _ _ h.file_colon, Option.map_some,
    String.ofList_toList, String.ofList_toList]

theorem IsPlain.feed_not_mem {o : Obligation} (h : o.IsPlain) : '\n' ∉ o.render.toList := by
  rw [toList_render, List.mem_append, List.mem_cons]
  rintro (hfile | hcolon | hfunction)
  · exact h.file_feed hfile
  · exact absurd hcolon (by decide)
  · exact h.function_feed hfunction

end Obligation

namespace Task

/-- A task can be read back from its text.  The text has one line for each obligation, and
each line is ended by a line feed; no line occurs twice, and the lines that are cut at their
first colon are the obligations in ascending order. -/
structure Legible (task : Task) : Prop where
  lines : ∃ lines : List (List Char), task.render.toList = lines.flatMap (· ++ ['\n']) ∧
    (∀ line ∈ lines, '\n' ∉ line) ∧ lines.Nodup ∧
    lines.map Obligation.ofLine? = task.obligations.map some
  ascending : task.obligations.Pairwise fun a b => a.key < b.key

theorem toList_render (task : Task) : task.render.toList =
    (task.obligations.map (·.render.toList)).flatMap (· ++ ['\n']) := by
  rw [Task.render, List.flatMap_map]
  induction task.obligations with
  | nil => rfl
  | cons o rest ih =>
    rw [List.map_cons, String.join_cons, String.toList_append, ih, List.flatMap_cons,
      String.toList_append]
    rfl

/-- Plain obligations in ascending order can be read back. -/
theorem legible_of_isPlain {task : Task} (h : ∀ o ∈ task.obligations, o.IsPlain)
    (hascending : task.obligations.Pairwise fun a b => a.key < b.key) : task.Legible := by
  have hread : (task.obligations.map (·.render.toList)).map Obligation.ofLine? =
      task.obligations.map some := by
    rw [List.map_map]
    exact List.map_congr_left fun o ho => (h o ho).ofLine?_render
  refine ⟨⟨_, toList_render task, ?_, ?_, hread⟩, hascending⟩
  · rw [List.forall_mem_map]
    exact fun o ho => (h o ho).feed_not_mem
  · have hdistinct : task.obligations.Nodup :=
      hascending.imp fun hlt => ne_of_apply_ne Obligation.key hlt.ne
    have hnodup := List.Nodup.map (Option.some_injective _) hdistinct
    rw [← hread] at hnodup
    exact hnodup.of_map _

end Task

/-- What an index that was read from a text knows does not disturb a line. -/
theorem SourceIndex.isPlain_of_mem_values {text name : String} {location : SourceLocation}
    (h : location ∈ (SourceIndex.parse text).values name) :
    (⟨location.file, name⟩ : Obligation).IsPlain := by
  rw [NameIndex.mem_values] at h
  obtain ⟨line, hmem, hline⟩ := List.mem_filterMap.1 (List.mem_eraseDups.1 h)
  obtain ⟨hcount, ⟨rest, htext, -⟩, -, -⟩ := (entry?_eq_some_iff line name location).1 hline
  have hfeed : '\n' ∉ Text.trim line := fun hin =>
    Text.not_mem_of_mem_lines hmem ((Text.isInfix_strip Text.isBlank line).subset hin)
  rw [htext, List.mem_append, List.mem_cons, List.mem_append, not_or, not_or, not_or] at hfeed
  rw [htext, List.count_append, List.count_cons_self, List.count_append] at hcount
  have hfile : ':' ∉ location.file.toList := List.count_eq_zero.1 (by omega)
  have hname : ':' ∉ name.toList := List.count_eq_zero.1 (by omega)
  exact ⟨hfile, hname, hfeed.1, hfeed.2.2.1⟩

namespace CallGraph

variable {g : CallGraph} {strategy : Strategy} {k : Nat} {cap : ScoreCap}

/-- Every task of a plan obliges functions of a graph. -/
theorem exists_obligations_of_split {sources : SourceIndex} {plan : PartitionPlan}
    (h : (g.split strategy k sources cap).1 = .ok plan) {task : Task} (htask : task ∈ plan.tasks) :
    ∃ (g' : CallGraph) (nodes : List Nat), task.obligations = g'.obligations sources nodes := by
  cases strategy with
  | naive =>
    rw [split, splitNaive] at h
    split at h
    · cases h
    · cases h
      obtain ⟨nodes, -, rfl⟩ := List.mem_map.1 htask
      exact ⟨g, nodes, rfl⟩
  | tree =>
    rw [split, splitTree] at h
    split at h
    · cases h
    · dsimp only at h
      split at h
      · cases h
      · cases h
        obtain ⟨bin, -, rfl⟩ := List.mem_map.1 htask
        exact ⟨_, _, rfl⟩

/-- Whatever the functions of a graph are called, every task that it is cut into can be read
back from its text, if the source index was read from a text. -/
theorem split_legible {text : String} {plan : PartitionPlan}
    (h : (g.split strategy k (SourceIndex.parse text) cap).1 = .ok plan) :
    ∀ task ∈ plan.tasks, task.Legible := by
  intro task htask
  obtain ⟨g', nodes, hobligations⟩ := exists_obligations_of_split h htask
  refine Task.legible_of_isPlain ?_ ?_
  · intro o ho
    rw [hobligations, mem_obligations] at ho
    obtain ⟨node, -, ho⟩ := ho
    obtain ⟨name, -, location, hlocation, rfl⟩ := mem_obligationsOf.1 ho
    exact SourceIndex.isPlain_of_mem_values hlocation
  · rw [hobligations]
    exact Obligation.pairwise_arrange _

/-- The entry is defined in two files.  The function that it calls has a colon in its name,
so that no line of the index can tell where it is defined. -/
theorem split_legible_call :
    let text := "b.c:main 1\na.c:main 2\r\nc.c:parse:int 3\n"
    ∃ plan,
      ((ofCall "main" "parse:int").split .naive 1 (SourceIndex.parse text) .none).1 = .ok plan ∧
        plan.tasks.map Task.render = ["a.c:main\nb.c:main\n"] ∧
          ∀ task ∈ plan.tasks, task.Legible := by
  intro text
  have h : ((ofCall "main" "parse:int").split .naive 1 (SourceIndex.parse text) .none).1 =
      .ok ⟨[⟨[0, 1], [⟨"a.c", "main"⟩, ⟨"b.c", "main"⟩], 2⟩], 1, none⟩ := by
    cbv
  exact ⟨_, h, by decide, split_legible h⟩

end CallGraph

end FuzzCampaign

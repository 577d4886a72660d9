import FuzzCampaign.Text.Blank
import FuzzCampaign.Text.Line
import Mathlib.Data.List.DropRight
import Mathlib.Data.List.Infix

/-!
# Cutting and joining

Readers cut texts into lines, lines at patterns, and pieces off their ends.  What was
put together from parts is cut into these parts again, provided that the parts do not
contain what the cut is made at.

Main definitions:

- `strip`: remove the characters of a class from both ends.
- `Written`: a text was written line by line.

Main results:

- `strip_append`: what was put around a text is stripped off.
- `cutAt_eq_none_iff`: a text is not cut if and only if it does not contain the pattern.
- `cutAt_append`: a text is cut at the first occurrence of a pattern.
- `lines_flatMap`: the lines that were joined are the lines of the text.
- `pieces_eq_pair_iff`, `pieces_eq_triple_iff`: a text is cut at each separator.
- `filterMap_lines_append`: what is read off the lines of joined texts.
- `Written.lines_eq`: the lines that a text was written from are its lines, whichever way
  they were ended.
-/

namespace FuzzCampaign.Text

variable {p : Char → Bool}

/-! ## Both ends -/

/-- Remove the characters of a class from both ends. -/
def strip (p : Char → Bool) (text : List Char) : List Char := trimEndWhile p (text.dropWhile p)

theorem trim_eq_strip (text : List Char) : trim text = strip isBlank text := rfl

theorem isPrefix_trimEndWhile (p : Char → Bool) (text : List Char) :
    trimEndWhile p text <+: text :=
  List.rdropWhile_prefix p text

theorem trimEndWhile_append (text : List Char) {back : List Char} (h : ∀ c ∈ back, p c = true) :
    trimEndWhile p (text ++ back) = trimEndWhile p text := by
  rw [trimEndWhile, List.reverse_append, List.dropWhile_append_of_pos, trimEndWhile]
  exact fun c hc => h c (List.mem_reverse.1 hc)

theorem isInfix_strip (p : Char → Bool) (text : List Char) : strip p text <:+: text :=
  (isPrefix_trimEndWhile p _).isInfix.trans (List.dropWhile_suffix p).isInfix

/-- What was stripped has nothing left to strip. -/
theorem strip_strip (p : Char → Bool) (text : List Char) :
    strip p (strip p text) = strip p text := by
  have hstart : (strip p text).dropWhile p = strip p text := by
    have hstarts : strip p text <+: text.dropWhile p := isPrefix_trimEndWhile p _
    rw [List.dropWhile_eq_self_iff]
    intro hlength
    rw [hstarts.getElem hlength]
    exact List.dropWhile_eq_self_iff.1 (List.dropWhile_idempotent p text) _
  conv_lhs => rw [strip, hstart]
  exact List.rdropWhile_idempotent p _

/-- What was put around a text is stripped off. -/
theorem strip_append (front text back : List Char) (hfront : ∀ c ∈ front, p c = true)
    (hback : ∀ c ∈ back, p c = true) : strip p (front ++ text ++ back) = strip p text := by
  rw [strip, List.append_assoc, List.dropWhile_append_of_pos hfront, List.dropWhile_append]
  split
  · rename_i hempty
    have hnil : text.dropWhile p = [] := List.isEmpty_iff.1 hempty
    have hall : back.dropWhile p = [] := List.dropWhile_eq_nil_iff.2 hback
    rw [hall, strip, hnil]
  · exact trimEndWhile_append _ hback

/-- Nothing but characters of the class is stripped off. -/
theorem exists_sides (p : Char → Bool) (text : List Char) : ∃ front back,
    text = front ++ strip p text ++ back ∧ (∀ c ∈ front, p c = true) ∧ ∀ c ∈ back, p c = true := by
  refine ⟨text.takeWhile p, (text.dropWhile p).rtakeWhile p, ?_, ?_, ?_⟩
  · have hback : strip p text ++ (text.dropWhile p).rtakeWhile p = text.dropWhile p :=
      List.rdropWhile_append_rtakeWhile
    rw [List.append_assoc, hback, List.takeWhile_append_dropWhile]
  · exact fun c hc => List.mem_takeWhile_imp hc
  · exact fun c hc => List.mem_rtakeWhile_imp hc

/-- A text without characters of the class has nothing to strip. -/
theorem strip_of_forall_not {text : List Char} (h : ∀ c ∈ text, p c = false) :
    strip p text = text := by
  have hstart : text.dropWhile p = text := by
    rw [List.dropWhile_eq_self_iff]
    intro hlength
    simp [h _ (List.getElem_mem hlength)]
  have hend : text.rdropWhile p = text := by
    rw [List.rdropWhile_eq_self_iff]
    intro hne
    simp [h _ (List.getLast_mem hne)]
  rw [strip, hstart]
  exact hend

/-! ## Cuts at a pattern -/

/-- A text is not cut if and only if it does not contain the pattern. -/
theorem cutAt_eq_none_iff {pattern text : List Char} :
    cutAt pattern text = none ↔ ¬ pattern <:+: text := by
  induction text with
  | nil =>
    rw [cutAt]
    cases pattern with
    | nil => simp
    | cons c pattern => simp
  | cons c text ih =>
    rw [cutAt, List.infix_cons_iff, not_or, ← ih]
    split
    · rename_i hstarts
      simp [List.isPrefixOf_iff_prefix.1 hstarts]
    · rename_i hstarts
      rw [List.isPrefixOf_iff_prefix] at hstarts
      simp [hstarts]

/-- A text is cut at the first occurrence of a pattern: where no other begins earlier. -/
theorem cutAt_append {pattern front : List Char} (back : List Char) (hpattern : pattern ≠ [])
    (h : ¬ pattern <:+: front ++ pattern.dropLast) :
    cutAt pattern (front ++ pattern ++ back) = some (front, back) := by
  induction front with
  | nil =>
    obtain ⟨c, pattern, rfl⟩ := List.exists_cons_of_ne_nil hpattern
    rw [List.nil_append, List.cons_append, cutAt, if_pos]
    · simp
    · rw [← List.cons_append]
      exact List.isPrefixOf_iff_prefix.2 (List.prefix_append _ _)
  | cons c front ih =>
    rw [List.cons_append, List.infix_cons_iff, not_or] at h
    rw [List.cons_append, List.cons_append, cutAt, if_neg, ih h.2]
    · rfl
    · intro hstarts
      refine h.1 (List.prefix_of_prefix_length_le (List.isPrefixOf_iff_prefix.1 hstarts) ?_ ?_)
      · rw [List.append_assoc, List.cons_prefix_cons]
        refine ⟨rfl, (List.prefix_append_right_inj front).2 ?_⟩
        exact (List.dropLast_prefix pattern).trans (List.prefix_append _ _)
      · rw [List.length_cons, List.length_append, List.length_dropLast]
        omega

/-- A text is cut at the first occurrence of a character. -/
theorem cutAt_singleton {c : Char} (front back : List Char) (h : c ∉ front) :
    cutAt [c] (front ++ c :: back) = some (front, back) := by
  have hfront : ¬ [c] <:+: front ++ [c].dropLast := by
    simpa [List.singleton_infix_iff] using h
  simpa using cutAt_append back (by simp) hfront

/-- What stands in front of the first occurrence does not contain the pattern. -/
theorem not_infix_of_cutAt {pattern text front back : List Char} (hpattern : pattern ≠ [])
    (h : cutAt pattern text = some (front, back)) : ¬ pattern <:+: front := by
  induction text generalizing front with
  | nil => simp [cutAt, hpattern] at h
  | cons c text ih =>
    rw [cutAt] at h
    split at h
    · rw [Option.some.injEq, Prod.mk.injEq] at h
      rw [← h.1]
      simpa using hpattern
    · rename_i hstarts
      obtain ⟨⟨first, second⟩, hparts, heq⟩ := Option.map_eq_some_iff.1 h
      rw [Prod.mk.injEq] at heq
      obtain ⟨rfl, rfl⟩ := heq
      rw [List.infix_cons_iff, not_or]
      refine ⟨?_, ih hparts⟩
      intro hfirst
      refine hstarts (List.isPrefixOf_iff_prefix.2 (hfirst.trans ?_))
      rw [List.cons_prefix_cons, cutAt_eq_some hparts, List.append_assoc]
      exact ⟨rfl, List.prefix_append _ _⟩

/-- A pair of characters stands in one of two joined texts, or where they are joined. -/
theorem pair_infix_append_iff {a b : Char} {front back : List Char} :
    [a, b] <:+: front ++ back ↔
      [a, b] <:+: front ∨ [a, b] <:+: back ∨ front.getLast? = some a ∧ back.head? = some b := by
  have hlast : [a] <:+ front ↔ front.getLast? = some a := by
    rw [List.getLast?_eq_some_iff]
    exact exists_congr fun start => eq_comm
  have hhead : [b] <+: back ↔ back.head? = some b := by
    cases back <;> simp [eq_comm]
  rw [List.infix_append_iff, ← hlast, ← hhead]
  refine or_congr_right' fun hfront => or_congr_right' fun hback => ?_
  constructor
  · rintro ⟨start, rest, hsplit, hstart, hrest⟩
    rcases start with _ | ⟨c, _ | ⟨d, start⟩⟩
    · obtain rfl : [a, b] = rest := hsplit
      exact absurd hrest.isInfix hback
    · obtain ⟨rfl, rfl⟩ : a = c ∧ [b] = rest := by simpa using hsplit
      exact ⟨hstart, hrest⟩
    · obtain ⟨rfl, rfl, rfl, rfl⟩ : a = c ∧ b = d ∧ start = [] ∧ rest = [] := by
        simpa using hsplit
      exact absurd hstart.isInfix hfront
  · exact fun ⟨hstart, hrest⟩ => ⟨[a], [b], rfl, hstart, hrest⟩

/-! ## Lines -/

theorem isPrefix_dropReturn (line : List Char) : dropReturn line <+: line := by
  rw [dropReturn]
  split
  · exact List.dropLast_prefix line
  · exact List.prefix_refl line

theorem exists_prefix_of_mem_closeLines {pieces : List (List Char)} {line : List Char}
    (h : line ∈ closeLines pieces) : ∃ piece ∈ pieces, line <+: piece := by
  induction pieces with
  | nil => exact absurd h List.not_mem_nil
  | cons piece rest ih =>
    cases rest with
    | nil =>
      rw [closeLines] at h
      split at h
      · exact absurd h List.not_mem_nil
      · exact ⟨line, h, List.prefix_refl line⟩
    | cons next rest =>
      rw [closeLines] at h
      rcases List.mem_cons.1 h with rfl | h
      · exact ⟨piece, List.mem_cons_self, isPrefix_dropReturn piece⟩
      · obtain ⟨other, hother, hstarts⟩ := ih h
        exact ⟨other, List.mem_cons_of_mem _ hother, hstarts⟩

/-- A line has no line feed in it. -/
theorem not_mem_of_mem_lines {text : String} {line : List Char} (h : line ∈ lines text) :
    '\n' ∉ line := by
  obtain ⟨piece, hpiece, hstarts⟩ := exists_prefix_of_mem_closeLines h
  exact fun hmem => not_mem_of_mem_pieces hpiece (hstarts.subset hmem)

theorem closeLines_cons {line : List Char} {rest : List (List Char)} (h : rest ≠ []) :
    closeLines (line :: rest) = dropReturn line :: closeLines rest := by
  obtain ⟨next, rest, rfl⟩ := List.exists_cons_of_ne_nil h
  rfl

/-- A line that is ended by a line feed is the first line of the text. -/
theorem closeLines_pieces_feed {line : List Char} (text : List Char) (h : '\n' ∉ line) :
    closeLines (pieces '\n' (line ++ '\n' :: text)) =
      dropReturn line :: closeLines (pieces '\n' text) := by
  rw [pieces_append, pieces_of_not_mem h, List.singleton_append,
    closeLines_cons (pieces_ne_nil _ _)]

/-- The lines that were joined are the lines of the text, unless one of them has a line
feed in it or a carriage return at its end. -/
theorem lines_flatMap {text : String} {lines : List (List Char)}
    (htext : text.toList = lines.flatMap (· ++ ['\n']))
    (hfeed : ∀ line ∈ lines, '\n' ∉ line) (hreturn : ∀ line ∈ lines, line.getLast? ≠ some '\r') :
    Text.lines text = lines := by
  rw [Text.lines, htext]
  clear htext
  induction lines with
  | nil => rfl
  | cons line lines ih =>
    have hline : dropReturn line = line := by
      rw [dropReturn, if_neg (hreturn line List.mem_cons_self)]
    rw [List.flatMap_cons, List.append_assoc, List.singleton_append,
      closeLines_pieces_feed _ (hfeed line List.mem_cons_self), hline,
      ih (fun other hother => hfeed other (List.mem_cons_of_mem _ hother))
        (fun other hother => hreturn other (List.mem_cons_of_mem _ hother))]

/-! ## Texts that are written line by line -/

/-- A text is written line by line.  Each line is ended by a line feed, or by a carriage
return and a line feed; after the last one nothing need follow. -/
inductive Written : List (List Char) → List Char → Prop
  | nil : Written [] []
  | last {line : List Char} : '\n' ∉ line → Written [line] line
  | feed {line : List Char} {lines : List (List Char)} {text : List Char} :
      '\n' ∉ line → line.getLast? ≠ some '\r' → Written lines text →
      Written (line :: lines) (line ++ '\n' :: text)
  | returnFeed {line : List Char} {lines : List (List Char)} {text : List Char} :
      '\n' ∉ line → Written lines text → Written (line :: lines) (line ++ '\r' :: '\n' :: text)

/-- Lines that are each followed by a line feed. -/
theorem written_flatMap {lines : List (List Char)} (hfeed : ∀ line ∈ lines, '\n' ∉ line)
    (hreturn : ∀ line ∈ lines, line.getLast? ≠ some '\r') :
    Written lines (lines.flatMap (· ++ ['\n'])) := by
  induction lines with
  | nil => exact .nil
  | cons line lines ih =>
    obtain ⟨hfeed, hfeeds⟩ := List.forall_mem_cons.1 hfeed
    obtain ⟨hreturn, hreturns⟩ := List.forall_mem_cons.1 hreturn
    rw [List.flatMap_cons, List.append_assoc]
    exact .feed hfeed hreturn (ih hfeeds hreturns)

/-- The lines that a text was written from are its lines; only an empty line at the very
end leaves no trace. -/
theorem Written.lines_eq {lines : List (List Char)} {text : String}
    (h : Written lines text.toList) :
    lines = Text.lines text ∨ lines = Text.lines text ++ [[]] := by
  rw [Text.lines]
  generalize text.toList = text at h
  induction h with
  | nil => exact Or.inl rfl
  | @last line hfeed =>
    rw [pieces_of_not_mem hfeed]
    cases line with
    | nil => exact Or.inr rfl
    | cons c line => exact Or.inl rfl
  | @feed line lines text hfeed hreturn _ ih =>
    have hline : dropReturn line = line := by rw [dropReturn, if_neg hreturn]
    rw [closeLines_pieces_feed text hfeed, hline]
    exact ih.imp (congrArg _) (congrArg _)
  | @returnFeed line lines text hfeed _ ih =>
    have hline : dropReturn (line ++ ['\r']) = line := by simp [dropReturn]
    have htext : line ++ '\r' :: '\n' :: text = (line ++ ['\r']) ++ '\n' :: text := by simp
    rw [htext, closeLines_pieces_feed text (by simpa using hfeed), hline]
    exact ih.imp (congrArg _) (congrArg _)

/-! ## Pieces -/

variable {separator : Char} {text first second third : List Char}

/-- There is one piece more than there are separators. -/
theorem length_pieces (separator : Char) (text : List Char) :
    (pieces separator text).length = text.count separator + 1 := by
  induction text with
  | nil => rfl
  | cons c rest ih =>
    rw [pieces, List.count_cons]
    split
    · rename_i hc
      simp [hc, ih]
    · rename_i hc
      split
      · rename_i hnil
        exact absurd hnil (pieces_ne_nil separator rest)
      · rename_i piece others hpieces
        rw [hpieces] at ih
        simpa [hc] using ih

/-- The first piece ends with the text or in front of the first separator. -/
theorem pieces_eq_cons_iff {others : List (List Char)} :
    pieces separator text = first :: others ↔ separator ∉ first ∧
      (text = first ∧ others = [] ∨
        ∃ rest, text = first ++ separator :: rest ∧ pieces separator rest = others) := by
  constructor
  · intro h
    by_cases hmem : separator ∈ text
    · obtain ⟨front, back, rfl, hfront⟩ := List.eq_append_cons_of_mem hmem
      rw [pieces_append, pieces_of_not_mem hfront, List.singleton_append, List.cons.injEq] at h
      obtain ⟨rfl, hback⟩ := h
      exact ⟨hfront, Or.inr ⟨back, rfl, hback⟩⟩
    · rw [pieces_of_not_mem hmem, List.cons.injEq] at h
      obtain ⟨rfl, hothers⟩ := h
      exact ⟨hmem, Or.inl ⟨rfl, hothers.symm⟩⟩
  · rintro ⟨hfirst, ⟨rfl, rfl⟩ | ⟨rest, rfl, rfl⟩⟩
    · exact pieces_of_not_mem hfirst
    · rw [pieces_append, pieces_of_not_mem hfirst, List.singleton_append]

/-- The first of several pieces ends in front of the first separator. -/
theorem pieces_eq_cons_cons_iff {others : List (List Char)} :
    pieces separator text = first :: second :: others ↔ separator ∉ first ∧
      ∃ rest, text = first ++ separator :: rest ∧ pieces separator rest = second :: others := by
  rw [pieces_eq_cons_iff]
  simp only [reduceCtorEq, and_false, false_or]

theorem pieces_eq_singleton_iff :
    pieces separator text = [first] ↔ text = first ∧ separator ∉ first := by
  rw [pieces_eq_cons_iff]
  constructor
  · rintro ⟨hfirst, ⟨htext, -⟩ | ⟨rest, -, hrest⟩⟩
    · exact ⟨htext, hfirst⟩
    · exact absurd hrest (pieces_ne_nil separator rest)
  · rintro ⟨htext, hfirst⟩
    exact ⟨hfirst, Or.inl ⟨htext, rfl⟩⟩

/-- A text has two pieces when one separator stands between them. -/
theorem pieces_eq_pair_iff : pieces separator text = [first, second] ↔
    text.count separator = 1 ∧ text = first ++ separator :: second := by
  constructor
  · intro h
    have hlength := length_pieces separator text
    rw [h] at hlength
    obtain ⟨-, rest, htext, hrest⟩ := pieces_eq_cons_cons_iff.1 h
    obtain ⟨rfl, -⟩ := pieces_eq_singleton_iff.1 hrest
    exact ⟨Nat.succ_injective hlength.symm, htext⟩
  · rintro ⟨hcount, rfl⟩
    rw [List.count_append, List.count_cons_self] at hcount
    have hfirst : separator ∉ first := List.count_eq_zero.1 (by omega)
    have hsecond : separator ∉ second := List.count_eq_zero.1 (by omega)
    rw [pieces_append, pieces_of_not_mem hfirst, pieces_of_not_mem hsecond]
    rfl

/-- A text has three pieces when two separators stand between them. -/
theorem pieces_eq_triple_iff : pieces separator text = [first, second, third] ↔
    text.count separator = 2 ∧ text = first ++ separator :: (second ++ separator :: third) := by
  constructor
  · intro h
    have hlength := length_pieces separator text
    rw [h] at hlength
    obtain ⟨-, rest, htext, hrest⟩ := pieces_eq_cons_cons_iff.1 h
    obtain ⟨-, rfl⟩ := pieces_eq_pair_iff.1 hrest
    exact ⟨Nat.succ_injective hlength.symm, htext⟩
  · rintro ⟨hcount, rfl⟩
    rw [List.count_append, List.count_cons_self, List.count_append, List.count_cons_self] at hcount
    have hfirst : separator ∉ first := List.count_eq_zero.1 (by omega)
    have hrest : (second ++ separator :: third).count separator = 1 := by
      rw [List.count_append, List.count_cons_self]
      omega
    rw [pieces_append, pieces_of_not_mem hfirst, pieces_eq_pair_iff.2 ⟨hrest, rfl⟩]
    rfl

/-- The first two pieces of a text, of which the second one ends with the text or in front
of a second separator. -/
theorem exists_pieces_eq_iff : (∃ others, pieces separator text = first :: second :: others) ↔
    separator ∉ first ∧ separator ∉ second ∧ ∃ rest,
      text = first ++ separator :: (second ++ rest) ∧
        (rest = [] ∨ rest.head? = some separator) := by
  constructor
  · rintro ⟨others, h⟩
    obtain ⟨hfirst, back, rfl, hback⟩ := pieces_eq_cons_cons_iff.1 h
    obtain ⟨hsecond, ⟨rfl, -⟩ | ⟨rest, rfl, -⟩⟩ := pieces_eq_cons_iff.1 hback
    · exact ⟨hfirst, hsecond, [], by simp⟩
    · exact ⟨hfirst, hsecond, separator :: rest, by simp⟩
  · rintro ⟨hfirst, hsecond, rest, rfl, hrest⟩
    rw [pieces_append, pieces_of_not_mem hfirst]
    rcases hrest with rfl | hhead
    · exact ⟨[], by rw [List.append_nil, pieces_of_not_mem hsecond]; rfl⟩
    · obtain ⟨rest, rfl⟩ := List.head?_eq_some_iff.1 hhead
      exact ⟨_, by rw [pieces_append, pieces_of_not_mem hsecond]; rfl⟩

/-! ## Lines of joined texts -/

/-- The carriage return in front of a line feed is a blank. -/
theorem trim_dropReturn (line : List Char) : trim (dropReturn line) = trim line := by
  rw [dropReturn]
  split
  · rename_i hlast
    obtain ⟨front, rfl⟩ := List.getLast?_eq_some_iff.1 hlast
    have hblank : ∀ c ∈ ['\r'], isBlank c = true := List.forall_mem_singleton.2 (by decide)
    have hstrip := strip_append (p := isBlank) [] front ['\r'] (by simp) hblank
    rw [List.dropLast_concat, trim_eq_strip, trim_eq_strip, ← hstrip, List.nil_append]
  · rfl

/-- What is read off the lines of a text is read off the pieces between its line feeds, as
long as carriage returns do not matter and nothing is read off an empty line. -/
theorem filterMap_closeLines {β : Type} {read : List Char → Option β}
    (hreturn : ∀ line, read (dropReturn line) = read line) (hempty : read [] = none)
    (pieces : List (List Char)) : (closeLines pieces).filterMap read = pieces.filterMap read := by
  induction pieces with
  | nil => rfl
  | cons piece rest ih =>
    cases rest with
    | nil => cases piece <;> simp [closeLines, hempty]
    | cons next rest =>
      rw [closeLines, List.filterMap_cons, hreturn, ih, ← List.filterMap_cons]

theorem filterMap_lines_append {β : Type} {read : List Char → Option β}
    (hreturn : ∀ line, read (dropReturn line) = read line) (hempty : read [] = none)
    (front back : String) : (lines (front ++ "\n" ++ back)).filterMap read =
      (lines front).filterMap read ++ (lines back).filterMap read := by
  have hjoined : (front ++ "\n" ++ back).toList = front.toList ++ '\n' :: back.toList := by
    simp
  rw [lines, lines, lines, hjoined, filterMap_closeLines hreturn hempty,
    filterMap_closeLines hreturn hempty, filterMap_closeLines hreturn hempty, pieces_append,
    List.filterMap_append]

end FuzzCampaign.Text

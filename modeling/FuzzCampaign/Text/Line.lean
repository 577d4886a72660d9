/-!
# Lines and pieces

Texts are cut into lines, and lines into pieces at a separator.  A line ends at
a line feed, together with one carriage return directly in front of it; other
carriage returns belong to their line, and no empty line follows the last line
feed.

Main results:

- `pieces_ne_nil`: there is always a first piece.
- `pieces_append`: a separator between two texts separates their pieces.
- `cutAt_eq_some`: a cut loses exactly the pattern it was made at.
-/

namespace FuzzCampaign.Text

/-- Cut a text at every separator.  Pieces may be empty. -/
def pieces (separator : Char) : List Char → List (List Char)
  | [] => [[]]
  | c :: rest =>
    if c = separator then [] :: pieces separator rest
    else
      match pieces separator rest with
      | [] => [[c]]
      | piece :: others => (c :: piece) :: others

theorem pieces_ne_nil (separator : Char) (text : List Char) : pieces separator text ≠ [] := by
  cases text with
  | nil => simp [pieces]
  | cons c rest =>
    rw [pieces]
    split
    · simp
    · split <;> simp

/-- A text without the separator is one piece. -/
theorem pieces_of_not_mem {separator : Char} {text : List Char} (h : separator ∉ text) :
    pieces separator text = [text] := by
  induction text with
  | nil => rfl
  | cons c rest ih =>
    simp only [List.mem_cons, not_or] at h
    simp [pieces, Ne.symm h.1, ih h.2]

/-- A separator between two texts separates their pieces. -/
theorem pieces_append (separator : Char) (front back : List Char) :
    pieces separator (front ++ separator :: back) =
      pieces separator front ++ pieces separator back := by
  induction front with
  | nil => simp [pieces]
  | cons c rest ih =>
    by_cases hc : c = separator
    · simp [pieces, hc, ih]
    · cases hp : pieces separator rest with
      | nil => exact absurd hp (pieces_ne_nil _ _)
      | cons piece others => simp [pieces, hc, ih, hp]

/-- No piece contains the separator. -/
theorem not_mem_of_mem_pieces {separator : Char} {text piece : List Char}
    (h : piece ∈ pieces separator text) : separator ∉ piece := by
  induction text generalizing piece with
  | nil => simp_all [pieces]
  | cons c rest ih =>
    rw [pieces] at h
    split at h
    · rcases List.mem_cons.1 h with rfl | h
      · simp
      · exact ih h
    · rename_i hc
      split at h
      · simp_all [Ne.symm hc]
      · rename_i first others hp
        rcases List.mem_cons.1 h with rfl | h
        · have := ih (by rw [hp]; exact List.mem_cons_self)
          simp [Ne.symm hc, this]
        · exact ih (by rw [hp]; exact List.mem_cons_of_mem _ h)

/-- Remove one carriage return from the end. -/
def dropReturn (line : List Char) : List Char :=
  if line.getLast? = some '\r' then line.dropLast else line

/-- Turn the pieces between line feeds into lines: all but the last ended with
a line feed, and an empty last piece is no line. -/
def closeLines : List (List Char) → List (List Char)
  | [] => []
  | [last] => if last.isEmpty then [] else [last]
  | line :: next :: rest => dropReturn line :: closeLines (next :: rest)

def lines (text : String) : List (List Char) := closeLines (pieces '\n' text.toList)

/-- Cut a text at the first occurrence of a pattern, which belongs to neither
part; `none` when the pattern does not occur. -/
def cutAt (pattern : List Char) : List Char → Option (List Char × List Char)
  | [] => if pattern.isEmpty then some ([], []) else none
  | c :: rest =>
    if pattern.isPrefixOf (c :: rest) then some ([], (c :: rest).drop pattern.length)
    else (cutAt pattern rest).map fun parts => (c :: parts.1, parts.2)

/-- A cut loses exactly the pattern it was made at. -/
theorem cutAt_eq_some {pattern text front back : List Char}
    (h : cutAt pattern text = some (front, back)) : text = front ++ pattern ++ back := by
  induction text generalizing front with
  | nil =>
    rw [cutAt] at h
    split at h <;> simp_all
  | cons c rest ih =>
    rw [cutAt] at h
    split at h
    · rename_i hp
      obtain ⟨tail, ht⟩ := List.isPrefixOf_iff_prefix.1 hp
      simp only [Option.some.injEq, Prod.mk.injEq] at h
      rw [← h.1, ← h.2, ← ht]
      simp
    · obtain ⟨parts, hparts, heq⟩ := Option.map_eq_some_iff.1 h
      cases heq
      simp [ih hparts]

end FuzzCampaign.Text

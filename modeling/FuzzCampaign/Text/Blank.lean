/-!
# Classes of characters

A class of characters is given by a table of ranges of code points.

The parsers of the campaign strip blanks around lines and fields.  A character
is blank when it has the Unicode property `White_Space`.

Main results:

- `CodeRange.covers_eq_true_iff`: a table covers the characters of its ranges.
- `trim_eq_self`: trimming changes nothing when both ends are printed.
- `isBlank_of_isWhitespace`: every ASCII blank is blank.
-/

namespace FuzzCampaign.Text

/-! ## Ranges of code points -/

/-- A range of code points, from the first to the last. -/
abbrev CodeRange := Nat × Nat

namespace CodeRange

/-- Whether a character lies in one of the ranges of a table. -/
def covers (table : List CodeRange) (c : Char) : Bool :=
  table.any fun range => decide (range.1 ≤ c.toNat) && decide (c.toNat ≤ range.2)

/-- Whether the ranges of a table are in ascending order and apart from each other. -/
def isAscending : List CodeRange → Bool
  | [] => true
  | [range] => decide (range.1 ≤ range.2)
  | range :: next :: rest =>
    decide (range.1 ≤ range.2) && decide (range.2 < next.1) && isAscending (next :: rest)

/-- How many code points the ranges of a table have. -/
def size (table : List CodeRange) : Nat :=
  table.foldl (fun sum range => sum + (range.2 + 1 - range.1)) 0

/-- A table covers the characters of its ranges. -/
theorem covers_eq_true_iff {table : List CodeRange} {c : Char} :
    covers table c = true ↔ ∃ range ∈ table, range.1 ≤ c.toNat ∧ c.toNat ≤ range.2 := by
  simp [covers]

/-- A table covers every character of a range in it. -/
theorem covers_of_mem {table : List CodeRange} {c : Char} {r : CodeRange} (h : r ∈ table)
    (hc : r.1 ≤ c.toNat ∧ c.toNat ≤ r.2) : covers table c = true :=
  covers_eq_true_iff.2 ⟨r, h, hc⟩

end CodeRange

/-! ## Blank characters -/

/-- The `White_Space` characters. -/
def blankRanges : List CodeRange :=
  [(0x09, 0x0d), (0x20, 0x20), (0x85, 0x85), (0xa0, 0xa0), (0x1680, 0x1680),
   (0x2000, 0x200a), (0x2028, 0x2029), (0x202f, 0x202f), (0x205f, 0x205f),
   (0x3000, 0x3000)]

/-- A character of the Unicode property `White_Space`. -/
def isBlank (c : Char) : Bool := CodeRange.covers blankRanges c

/-- Every blank of the standard library is one here. -/
theorem isBlank_of_isWhitespace (c : Char) (h : c.isWhitespace = true) : isBlank c = true := by
  simp only [Char.isWhitespace, Bool.or_eq_true, decide_eq_true_eq] at h
  rcases h with ((rfl | rfl) | rfl) | rfl <;> rfl

/-- Remove the blanks in front. -/
def trimStart (text : List Char) : List Char := text.dropWhile isBlank

/-- Remove the characters of a class from the end. -/
def trimEndWhile (p : Char → Bool) (text : List Char) : List Char :=
  (text.reverse.dropWhile p).reverse

/-- Remove the blanks at both ends. -/
def trim (text : List Char) : List Char := trimEndWhile isBlank (trimStart text)

def isBlankLine (text : List Char) : Bool := (trim text).isEmpty

@[simp] theorem trim_nil : trim [] = [] := rfl

theorem trimEndWhile_append_of_not {p : Char → Bool} (text : List Char) {c : Char}
    (h : p c = false) : trimEndWhile p (text ++ [c]) = text ++ [c] := by
  simp [trimEndWhile, h]

/-- A text that begins and ends with printed characters is already trimmed. -/
theorem trim_eq_self {text : List Char} {first last : Char} {middle : List Char}
    (hfirst : isBlank first = false) (hlast : isBlank last = false)
    (h : text = first :: middle ++ [last]) : trim text = text := by
  subst h
  have hs : trimStart (first :: middle ++ [last]) = first :: middle ++ [last] := by
    simp [trimStart, hfirst]
  rw [trim, hs]
  exact trimEndWhile_append_of_not (first :: middle) hlast

end FuzzCampaign.Text

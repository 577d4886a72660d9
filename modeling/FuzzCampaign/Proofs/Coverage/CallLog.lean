import FuzzCampaign.Proofs.Observation
import FuzzCampaign.Proofs.Text.Cutting

/-!
# Call logs are read back

A call is logged as `Function: file:caller->callee`.  The line is cut at blanks, its second
word at the arrow, and what stands in front of the arrow at the colons.  The three cuts do
not get into each other's way: no field has a blank or an arrow in it, an arrow cannot begin
in one part and end in the next, and a colon belongs to the callee when it stands behind the
arrow.  So a line gives back the call that it was written for, and lines of different calls
are different; suppressing identical lines is then the same as suppressing identical calls.

Main definitions:

- `CallFact.LoggedCall`: a call as the log tells it.
- `CallFact.IsMute`: a line that tells no call.
- `CallFact.LogLine`: a line of a log.

Main results:

- `CallFact.LoggedCall.ofLine?_line`: a line gives back its call.
- `CallFact.LoggedCall.line_injective`: different calls have different lines.
- `CallFact.parseLog_lines`: what a log is read into.
-/

namespace FuzzCampaign

namespace CallFact

/-- What stands between the caller and the callee. -/
def arrow : List Char := ['-', '>']

/-! ## Two sides of an arrow -/

/-- A token with one arrow is cut there. -/
theorem arrowSides?_append {front back : List Char} (hfront : ¬ arrow <:+: front)
    (hback : ¬ arrow <:+: back) : arrowSides? (front ++ arrow ++ back) = some (front, back) := by
  have hcut : ¬ arrow <:+: front ++ arrow.dropLast := by
    rw [arrow, Text.pair_infix_append_iff]
    rintro (h | h | ⟨-, h⟩)
    · exact hfront h
    · exact absurd h (by decide)
    · exact absurd h (by decide)
  have hrest : Text.cutAt arrow back = none := Text.cutAt_eq_none_iff.2 hback
  have hfirst : Text.cutAt arrow (front ++ arrow ++ back) = some (front, back) :=
    Text.cutAt_append back (by decide) hcut
  rw [arrow] at hrest hfirst
  simp only [arrowSides?, arrow, hfirst, hrest]

/-- A token has two sides when it has one arrow, which stands between them. -/
theorem arrowSides?_eq_some_iff {token front back : List Char} :
    arrowSides? token = some (front, back) ↔
      token = front ++ arrow ++ back ∧ ¬ arrow <:+: front ∧ ¬ arrow <:+: back := by
  refine ⟨fun h => ?_, fun ⟨htoken, hfront, hback⟩ => htoken ▸ arrowSides?_append hfront hback⟩
  rw [arrowSides?] at h
  split at h
  · rename_i first rest hfirst
    split at h
    · exact absurd h (by simp)
    · rename_i hrest
      rw [Option.some.injEq, Prod.mk.injEq] at h
      obtain ⟨rfl, rfl⟩ := h
      exact ⟨Text.cutAt_eq_some hfirst, Text.not_infix_of_cutAt (by decide) hfirst,
        Text.cutAt_eq_none_iff.1 hrest⟩
  · exact absurd h (by simp)

/-- Blanks at the ends of a text bring no arrow with them. -/
theorem arrow_infix_of_sides {front text back : List Char}
    (hfront : ∀ c ∈ front, Text.isBlank c = true) (hback : ∀ c ∈ back, Text.isBlank c = true)
    (h : arrow <:+: front ++ text ++ back) : arrow <:+: text := by
  have hdash : ∀ side : List Char, (∀ c ∈ side, Text.isBlank c = true) → '-' ∉ side :=
    fun side hside hmem => absurd (hside _ hmem) (by decide)
  have hhead : ∀ side : List Char, (∀ c ∈ side, Text.isBlank c = true) → '>' ∉ side :=
    fun side hside hmem => absurd (hside _ hmem) (by decide)
  rw [arrow, Text.pair_infix_append_iff, Text.pair_infix_append_iff] at h
  rcases h with (h | h | ⟨h, -⟩) | h | ⟨-, h⟩
  · exact absurd (h.subset (by simp)) (hdash front hfront)
  · exact h
  · exact absurd (List.mem_of_getLast? h) (hdash front hfront)
  · exact absurd (h.subset (by simp)) (hdash back hback)
  · exact absurd (List.mem_of_head? h) (hhead back hback)

/-! ## Lines that tell no call -/

/-- A line tells no call: its trimmed text has no second word, or an arrow does not cut the
second word into exactly two parts. -/
def IsMute (line : List Char) : Prop :=
  ∀ word, (Text.pieces ' ' (Text.trim line))[1]? = some word →
    ¬ ∃ front back, word = front ++ arrow ++ back ∧ ¬ arrow <:+: front ∧ ¬ arrow <:+: back

theorem isMute_iff {line : List Char} : IsMute line ↔
    ∀ word ∈ (Text.pieces ' ' (Text.trim line))[1]?, arrowSides? word = none := by
  refine forall_congr' fun word => imp_congr Iff.rfl ?_
  rw [Option.eq_none_iff_forall_ne_some, Prod.forall, not_exists]
  simp only [not_exists, ne_eq, arrowSides?_eq_some_iff]

instance : DecidablePred IsMute := fun _ => decidable_of_iff _ isMute_iff.symm

theorem IsMute.ofLine?_trim {line : List Char} (h : IsMute line) :
    ofLine? (Text.trim line) = none := by
  rw [ofLine?]
  split
  · rename_i first token rest hpieces
    have htoken : arrowSides? (Text.trim token) = none := by
      rw [Option.eq_none_iff_forall_ne_some]
      rintro ⟨front, back⟩ hsides
      obtain ⟨htrim, hfront, hback⟩ := arrowSides?_eq_some_iff.1 hsides
      obtain ⟨start, rest, htoken, hstart, hrest⟩ := Text.exists_sides Text.isBlank token
      rw [← Text.trim_eq_strip, htrim] at htoken
      refine h token (by rw [hpieces]; rfl)
        ⟨start ++ front, back ++ rest, by simpa using htoken, fun hinfix => ?_, fun hinfix => ?_⟩
      · have hside : arrow <:+: start ++ front ++ [] := by rwa [List.append_nil]
        exact hfront (arrow_infix_of_sides hstart (by simp) hside)
      · have hside : arrow <:+: [] ++ back ++ rest := hinfix
        exact hback (arrow_infix_of_sides (by simp) hrest hside)
    rw [htoken]
  · rfl

/-! ## Lines of calls -/

/-- A word has no blanks in it. -/
def IsPrinted (word : String) : Prop := ∀ c ∈ word.toList, Text.isBlank c = false

instance : DecidablePred IsPrinted := fun word => List.decidableBAll _ word.toList

/-- A call as the log tells it, with a file that it was seen in. -/
structure LoggedCall where
  file : String
  caller : String
  callee : String
  isPrinted : ∀ word ∈ [file, caller, callee], IsPrinted word
  not_arrow : ∀ word ∈ [file, caller, callee], ¬ arrow <:+: word.toList
  not_colon : ∀ word ∈ [file, caller], ':' ∉ word.toList
  ne_empty : ∀ word ∈ [caller, callee], word ≠ ""
  deriving DecidableEq

namespace LoggedCall

/-- What the log tells. -/
def fact (c : LoggedCall) : CallFact := ⟨c.caller, c.callee⟩

/-- The second word of the line of a call. -/
def token (c : LoggedCall) : List Char :=
  c.file.toList ++ ':' :: c.caller.toList ++ arrow ++ c.callee.toList

/-- The line of a call. -/
def line (c : LoggedCall) : List Char := "Function:".toList ++ ' ' :: c.token

variable (c : LoggedCall)

theorem line_eq : c.line = "Function:".toList ++ ' ' :: c.token := rfl

theorem isPrinted_token : ∀ x ∈ c.token, Text.isBlank x = false := by
  intro x hx
  simp only [token, arrow, List.mem_append, List.mem_cons, List.not_mem_nil, or_false] at hx
  rcases hx with ((hx | rfl | hx) | rfl | rfl) | hx
  · exact c.isPrinted c.file (by simp) x hx
  · rfl
  · exact c.isPrinted c.caller (by simp) x hx
  · rfl
  · rfl
  · exact c.isPrinted c.callee (by simp) x hx

/-- The token is cut at its arrow. -/
theorem arrowSides?_token :
    arrowSides? c.token = some (c.file.toList ++ ':' :: c.caller.toList, c.callee.toList) := by
  refine arrowSides?_append ?_ (c.not_arrow c.callee (by simp))
  rw [arrow, Text.pair_infix_append_iff, ← List.singleton_append (x := ':'),
    Text.pair_infix_append_iff]
  rintro (h | (h | h | ⟨h, -⟩) | ⟨-, h⟩)
  · exact c.not_arrow c.file (by simp) h
  · exact absurd h (by decide)
  · exact c.not_arrow c.caller (by simp) h
  · exact absurd h (by decide)
  · exact absurd h (by simp)

/-- What stands in front of the arrow is cut at its colon. -/
theorem pieces_source : Text.pieces ':' (c.file.toList ++ ':' :: c.caller.toList) =
    [c.file.toList, c.caller.toList] := by
  rw [Text.pieces_append, Text.pieces_of_not_mem (c.not_colon c.file (by simp)),
    Text.pieces_of_not_mem (c.not_colon c.caller (by simp))]
  rfl

/-- A printed text has no blanks at its ends. -/
theorem trim_of_isPrinted {text : List Char} (h : ∀ x ∈ text, Text.isBlank x = false) :
    Text.trim text = text :=
  Text.strip_of_forall_not h

theorem trim_line : Text.trim c.line = c.line := by
  have hne : c.token ≠ [] := by simp [token]
  obtain ⟨start, last, htoken⟩ := (List.eq_nil_or_concat c.token).resolve_left hne
  have hlast : Text.isBlank last = false := c.isPrinted_token last (by simp [htoken])
  obtain ⟨rest, hword⟩ : ∃ rest, "Function:".toList = 'F' :: rest := ⟨_, rfl⟩
  have hline : c.line = 'F' :: (rest ++ ' ' :: start) ++ [last] := by
    rw [line_eq, hword, htoken, List.concat_eq_append]
    simp
  exact Text.trim_eq_self rfl hlast hline

/-- A line gives back its call. -/
theorem ofLine?_line : ofLine? c.line = some c.fact := by
  have hspace : ' ' ∉ c.token := by
    intro hmem
    exact absurd (c.isPrinted_token ' ' hmem) (by decide)
  have hpieces : Text.pieces ' ' c.line = ["Function:".toList, c.token] := by
    rw [line_eq, Text.pieces_append, Text.pieces_of_not_mem (by decide),
      Text.pieces_of_not_mem hspace]
    rfl
  have hprinted := c.isPrinted_token
  rw [token, List.append_assoc] at hprinted
  obtain ⟨hsource, htarget⟩ := List.forall_mem_append.1 hprinted
  have hnamed : (c.caller.toList.isEmpty || c.callee.toList.isEmpty) = false := by
    have hcaller := c.ne_empty c.caller (by simp)
    have hcallee := c.ne_empty c.callee (by simp)
    simp [hcaller, hcallee]
  simp only [ofLine?, hpieces, trim_of_isPrinted c.isPrinted_token, c.arrowSides?_token,
    trim_of_isPrinted hsource, c.pieces_source,
    trim_of_isPrinted (List.forall_mem_append.1 htarget).2, hnamed, Bool.false_eq_true,
    if_false, String.ofList_toList]
  rfl

/-- Different calls have different lines. -/
theorem line_injective {c d : LoggedCall} (h : c.line = d.line) : c = d := by
  have htoken : c.token = d.token := by
    rw [line_eq, line_eq, List.append_cancel_left_eq, List.cons.injEq] at h
    exact h.2
  have hsides := congrArg arrowSides? htoken
  rw [c.arrowSides?_token, d.arrowSides?_token, Option.some.injEq, Prod.mk.injEq] at hsides
  have hpieces := congrArg (Text.pieces ':') hsides.1
  rw [c.pieces_source, d.pieces_source, List.cons.injEq, List.cons.injEq] at hpieces
  have hfile : c.file = d.file := String.toList_inj.1 hpieces.1
  have hcaller : c.caller = d.caller := String.toList_inj.1 hpieces.2.1
  have hcallee : c.callee = d.callee := String.toList_inj.1 hsides.2
  cases c
  cases d
  simp_all

end LoggedCall

/-! ## Logs -/

/-- A line of a log. -/
inductive LogLine where
  /-- The line of a call. -/
  | call (c : LoggedCall)
  /-- A line that tells no call. -/
  | mute (line : List Char) (h : IsMute line)

namespace LogLine

/-- The text of a line. -/
def text : LogLine → List Char
  | call c => c.line
  | mute line _ => line

/-- The call that a line tells. -/
def call? : LogLine → Option LoggedCall
  | call c => some c
  | mute _ _ => none

/-- The line of a call is in a log just where the call is. -/
theorem line_mem_iff (log : List LogLine) (c : LoggedCall) :
    c.line ∈ log.map (fun entry => Text.trim entry.text) ↔ c ∈ log.filterMap call? := by
  rw [List.mem_map, List.mem_filterMap]
  refine exists_congr fun entry => and_congr_right fun _ => ?_
  cases entry with
  | call d =>
    rw [text, d.trim_line, call?, Option.some.injEq]
    exact ⟨LoggedCall.line_injective, congrArg _⟩
  | mute line h =>
    refine iff_of_false ?_ (by simp [call?])
    intro hline
    have hnone := h.ofLine?_trim
    rw [text] at hline
    rw [hline, c.ofLine?_line] at hnone
    exact absurd hnone (by simp)

/-- Identical lines are left out just where calls are repeated. -/
theorem filterMap_eraseDups (log : List LogLine) :
    (log.map fun entry => Text.trim entry.text).eraseDups.filterMap ofLine? =
      (log.filterMap call?).eraseDups.map (·.fact) := by
  induction log using List.reverseRecOn with
  | nil => rfl
  | append_singleton log entry ih =>
    rw [List.map_append, List.map_singleton, eraseDups_concat, List.filterMap_append, ih,
      List.filterMap_append]
    cases entry with
    | call c =>
      have hcall : [LogLine.call c].filterMap call? = [c] := rfl
      have hmem := line_mem_iff log c
      rw [text, c.trim_line, hcall, eraseDups_concat, List.map_append]
      by_cases hknown : c ∈ log.filterMap call?
      · rw [if_pos hknown, if_pos (hmem.2 hknown)]
        rfl
      · rw [if_neg hknown, if_neg (mt hmem.1 hknown), List.filterMap_cons, c.ofLine?_line]
        rfl
    | mute line h =>
      have hcall : [LogLine.mute line h].filterMap call? = [] := rfl
      rw [text, hcall, List.append_nil, List.append_right_eq_self]
      split
      · rfl
      · rw [List.filterMap_cons, h.ofLine?_trim]
        rfl

end LogLine

/-- A log of calls is read into these calls, each that was seen in one file once, in the
order of their first mention, whatever other lines stand between them. -/
theorem parseLog_lines (log : List LogLine) {text : String}
    (h : Text.Written (log.map (·.text)) text.toList) :
    parseLog text = (log.filterMap LogLine.call?).eraseDups.map (·.fact) := by
  rw [← LogLine.filterMap_eraseDups, parseLog]
  have htrim : (log.map fun entry => Text.trim entry.text) =
      (log.map (·.text)).map Text.trim := by
    rw [List.map_map]
    rfl
  rcases h.lines_eq with hlines | hlines
  · rw [htrim, hlines]
  · have hnone : ofLine? [] = none := rfl
    rw [htrim, hlines, List.map_append, List.map_singleton, Text.trim_nil, eraseDups_concat,
      List.filterMap_append]
    split
    · simp
    · simp [hnone]

/-- A call that is seen twice in one file and once in another, one whose names have parts of
an arrow, one whose callee has a colon, and lines with no word and with two arrows. -/
def crowded : List LogLine :=
  [.call ⟨"a.c", "f-", ">g", by decide, by decide, by decide, by decide⟩,
   .mute " ".toList (by decide), .mute "F a:f->g->h".toList (by decide),
   .call ⟨"a.c", "f-", ">g", by decide, by decide, by decide, by decide⟩,
   .call ⟨"", "f", "x:y", by decide, by decide, by decide, by decide⟩,
   .call ⟨"b.c", "f-", ">g", by decide, by decide, by decide, by decide⟩]

/-- Whichever way the lines are ended, each call of a file is read once. -/
theorem parseLog_lines_crowded :
    let text := "Function: a.c:f-->>g\r\n \nF a:f->g->h\nFunction: a.c:f-->>g\n" ++
      "Function: :f->x:y\nFunction: b.c:f-->>g"
    Text.Written (crowded.map (·.text)) text.toList ∧
      parseLog text = [⟨"f-", ">g"⟩, ⟨"f", "x:y"⟩, ⟨"f-", ">g"⟩] := by
  intro text
  have hwritten : Text.Written (crowded.map (·.text)) text.toList := by
    have hlines : crowded.map (·.text) = ["Function: a.c:f-->>g".toList, " ".toList,
        "F a:f->g->h".toList, "Function: a.c:f-->>g".toList, "Function: :f->x:y".toList,
        "Function: b.c:f-->>g".toList] := by decide
    have htext : text.toList = "Function: a.c:f-->>g".toList ++ '\r' :: '\n' ::
        (" ".toList ++ '\n' :: ("F a:f->g->h".toList ++ '\n' ::
        ("Function: a.c:f-->>g".toList ++ '\n' :: ("Function: :f->x:y".toList ++ '\n' ::
        "Function: b.c:f-->>g".toList)))) := by
      simp only [text, String.toList_append]
      decide +kernel
    rw [hlines, htext]
    exact .returnFeed (by decide) <| .feed (by decide) (by decide) <|
      .feed (by decide) (by decide) <| .feed (by decide) (by decide) <|
      .feed (by decide) (by decide) <| .last (by decide)
  exact ⟨hwritten, (parseLog_lines crowded hwritten).trans (by decide)⟩

end CallFact

end FuzzCampaign

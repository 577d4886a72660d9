import FuzzCampaign.CallGraph.Dot
import FuzzCampaign.Proofs.Text.Cutting

/-!
# Lines that are read back

A description is read line by line, and a node or a label is what is left of its line
after many cuts: at brackets, arrows, commas and equality signs, of blanks, semicolons
and quotes at the ends.  What is left contains nothing that those cuts were made at, as
far as it matters, and so it is left again when it is written between quotes on a line of
its own.

Main definitions:

- `Identifier`: what is read as a node.
- `Title`: what is read as the name of a function.

Main results:

- `readable_of_mem_labels`: what is read is an identifier with a title.
- `statement?_nodeLine`, `statement?_edgeLine`: what is written is read back.
-/

namespace FuzzCampaign.DotText

/-- The pattern between the two ends of an edge. -/
def arrow : List Char := ['-', '>']

/-- What is read as a node: it ends with no quotes, is on one line, and is not followed by
attributes or by another node. -/
structure Identifier (id : List Char) : Prop where
  ne_nil : id ≠ []
  feed : '\n' ∉ id
  bracket : '[' ∉ id
  no_arrow : ¬ arrow <:+: id
  unquote_eq : unquote id = id

/-- What is read as the name of a function: it ends with no blanks, is on one line, and
has no quotes or braces in it. -/
structure Title (name : List Char) : Prop where
  ne_nil : name ≠ []
  feed : '\n' ∉ name
  quote : '"' ∉ name
  opening : '\x7b' ∉ name
  closing : '\x7d' ∉ name
  trim_eq : Text.trim name = name

/-! ## What is read -/

/-- Taking off the quotation marks, as a strip of both ends. -/
theorem unquote_eq_strip (text : List Char) : unquote text = Text.strip (· == '"') text := rfl

/-- Without its quotation marks a text is part of what it was. -/
theorem isInfix_unquote (text : List Char) : unquote text <:+: text :=
  Text.isInfix_strip _ text

/-- A trimmed text is part of what it was. -/
theorem isInfix_trim (text : List Char) : Text.trim text <:+: text :=
  Text.isInfix_strip _ text

/-- The body of a line is part of the line. -/
theorem isInfix_body (line : List Char) : body line <:+: line :=
  (isInfix_trim _).trans ((Text.isPrefix_trimEndWhile _ _).isInfix.trans (isInfix_trim line))

/-- The parts of an attribute list have no characters of their own. -/
theorem subset_of_mem_attributeParts {quoted : Bool} {text part : List Char}
    (h : part ∈ attributeParts quoted text) : part ⊆ text := by
  induction text generalizing quoted part with
  | nil => simp_all [attributeParts]
  | cons c text ih =>
    rw [attributeParts] at h
    split at h
    · rcases List.mem_cons.1 h with rfl | h
      · exact List.nil_subset _
      · exact List.subset_cons_of_subset c (ih h)
    · split at h
      · rw [List.mem_singleton.1 h]
        exact List.cons_subset_cons c (List.nil_subset _)
      · rename_i first others heq
        have hparts : ∀ part ∈ first :: others, part ⊆ text := by
          rw [← heq]
          exact fun part hpart => ih hpart
        rcases List.mem_cons.1 h with rfl | h
        · exact List.cons_subset_cons c (hparts first List.mem_cons_self)
        · exact List.subset_cons_of_subset c (hparts part (List.mem_cons_of_mem _ h))

/-- A label is made of the characters of the attributes. -/
theorem subset_of_label? {attributes : List Char} {label : String}
    (h : label? attributes = some label) : label.toList ⊆ attributes := by
  obtain ⟨value, hvalue, rfl⟩ := Option.map_eq_some_iff.1 h
  obtain ⟨part, hpart, hread⟩ := List.mem_filterMap.1 (List.mem_of_getLast? hvalue)
  rw [String.toList_ofList]
  have hsub : value ⊆ part := by
    split at hread
    · rename_i name read hattribute
      obtain ⟨sides, hsides, heq⟩ := Option.map_eq_some_iff.1 hattribute
      split at hread
      · rw [Option.some.injEq] at hread
        rw [Prod.mk.injEq] at heq
        rw [← hread, ← heq.2, Text.cutAt_eq_some hsides]
        have hinside := (isInfix_unquote _).trans (isInfix_trim sides.2)
        exact List.Subset.trans hinside.subset (List.subset_append_right _ _)
      · exact absurd hread (by simp)
    · exact absurd hread (by simp)
  exact List.Subset.trans hsub (subset_of_mem_attributeParts hpart)

/-- What a line that labels a node consists of. -/
theorem statement?_eq_node {line : List Char} {id label : String}
    (h : statement? line = some (.node id (some label))) :
    ∃ head attributes, Text.cutAt ['['] (body line) = some (head, attributes) ∧
      Text.cutAt arrow (Text.trim head) = none ∧ unquote (Text.trim head) ≠ [] ∧
      id = String.ofList (unquote (Text.trim head)) ∧
      label? (Text.trimEndWhile (· == ']') attributes) = some label := by
  simp only [statement?, headAndAttributes] at h
  split at h
  · exact absurd h (by simp)
  · cases hcut : Text.cutAt ['['] (body line) with
    | none =>
      simp only [hcut] at h
      split at h
      · split at h <;> exact absurd h (by simp)
      · split at h <;> exact absurd h (by simp)
    | some parts =>
      obtain ⟨head, attributes⟩ := parts
      simp only [hcut] at h
      split at h
      · split at h <;> exact absurd h (by simp)
      · rename_i hnone
        split at h
        · exact absurd h (by simp)
        · rename_i hne
          simp only [Option.bind_some, Option.some.injEq, DotStatement.node.injEq] at h
          refine ⟨head, attributes, rfl, hnone, ?_, h.1.symm, h.2⟩
          simpa using hne

/-- The node of a line is an identifier. -/
theorem identifier_of_statement? {line : List Char} (hfeed : '\n' ∉ line) {id label : String}
    (h : statement? line = some (.node id (some label))) :
    Identifier id.toList ∧ '\n' ∉ label.toList := by
  obtain ⟨head, attributes, hcut, harrow, hne, rfl, hlabel⟩ := statement?_eq_node h
  rw [String.toList_ofList]
  have hbody := Text.cutAt_eq_some hcut
  have hhead : unquote (Text.trim head) <:+: head := (isInfix_unquote _).trans (isInfix_trim head)
  have hline : body line ⊆ line := (isInfix_body line).subset
  rw [hbody] at hline
  refine ⟨⟨hne, ?_, ?_, ?_, Text.strip_strip _ _⟩, ?_⟩
  · exact fun hmem => hfeed (hline (by simp [hhead.subset hmem]))
  · intro hmem
    have hfront := Text.not_infix_of_cutAt (by simp) hcut
    rw [List.singleton_infix_iff] at hfront
    exact hfront (hhead.subset hmem)
  · exact fun hinside => Text.cutAt_eq_none_iff.1 harrow (hinside.trans (isInfix_unquote _))
  · intro hmem
    have hmore := (Text.isPrefix_trimEndWhile _ _).subset (subset_of_label? hlabel hmem)
    exact hfeed (hline (by simp [hmore]))

/-- What is left of a label is a title. -/
theorem title_of_cleanLabel? {label name : String} (hfeed : '\n' ∉ label.toList)
    (h : cleanLabel? label = some name) : Title name.toList := by
  simp only [cleanLabel?] at h
  split at h
  · exact absurd h (by simp)
  · rename_i hne
    rw [Option.some.injEq] at h
    rw [← h, String.toList_ofList]
    have hmem : ∀ c ∈ Text.trim (label.toList.filter fun c =>
        c != '\x7b' && c != '\x7d' && c != '"'),
        c ∈ label.toList ∧ c ≠ '\x7b' ∧ c ≠ '\x7d' ∧ c ≠ '"' := by
      intro c hc
      simpa [and_assoc] using List.mem_filter.1 ((isInfix_trim _).subset hc)
    refine ⟨by simpa using hne, ?_, ?_, ?_, ?_, Text.strip_strip _ _⟩
    · exact fun hc => hfeed (hmem _ hc).1
    · exact fun hc => (hmem _ hc).2.2.2 rfl
    · exact fun hc => (hmem _ hc).2.1 rfl
    · exact fun hc => (hmem _ hc).2.2.1 rfl

/-- The labels are those of the node statements whose label can be cleaned. -/
theorem mem_labels {statements : List DotStatement} {id name : String} :
    (id, name) ∈ labels statements ↔
      ∃ label, .node id (some label) ∈ statements ∧ cleanLabel? label = some name := by
  rw [labels, List.mem_filterMap]
  constructor
  · rintro ⟨statement, hmem, hread⟩
    split at hread
    · rename_i node label
      obtain ⟨_, hclean, heq⟩ := Option.map_eq_some_iff.1 hread
      rw [Prod.mk.injEq] at heq
      obtain ⟨rfl, rfl⟩ := heq
      exact ⟨label, hmem, hclean⟩
    · exact absurd hread (by simp)
  · rintro ⟨label, hmem, hclean⟩
    exact ⟨_, hmem, by simp [hclean]⟩

/-- What is read from a text is an identifier with a title. -/
theorem readable_of_mem_labels {text id name : String} (h : (id, name) ∈ labels (parse text)) :
    Identifier id.toList ∧ Title name.toList := by
  obtain ⟨label, hmem, hclean⟩ := mem_labels.1 h
  obtain ⟨line, hline, hread⟩ := List.mem_filterMap.1 hmem
  obtain ⟨hid, hfeed⟩ := identifier_of_statement? (Text.not_mem_of_mem_lines hline) hread
  exact ⟨hid, title_of_cleanLabel? hfeed hclean⟩

/-! ## What is written -/

/-- A text between quotes, by characters. -/
def inQuotes (text : List Char) : List Char := '"' :: text ++ ['"']

/-- A text between braces, by characters. -/
def inBraces (text : List Char) : List Char := '\x7b' :: text ++ ['\x7d']

/-- A quoted text has no blank at its ends. -/
theorem trim_inQuotes (text : List Char) : Text.trim (inQuotes text) = inQuotes text :=
  Text.trim_eq_self (by decide) (by decide) rfl

/-- The marks that were put on are taken off. -/
theorem unquote_inQuotes {text : List Char} (h : unquote text = text) :
    unquote (inQuotes text) = text := by
  have hstrip := Text.strip_append (p := (· == '"')) ['"'] text ['"'] (by simp) (by simp)
  rw [← unquote_eq_strip, ← unquote_eq_strip, h] at hstrip
  exact hstrip

/-- A line that begins with a tab and a quote and ends with a semicolon loses the tab and
the semicolon. -/
theorem body_line (middle : List Char) (last : Char) (hblank : Text.isBlank last = false)
    (hlast : last ≠ ';') :
    body ('\t' :: ('"' :: middle ++ [last]) ++ [';']) = '"' :: middle ++ [last] := by
  have htab : Text.trim ('\t' :: ('"' :: middle ++ [last]) ++ [';']) =
      '"' :: middle ++ [last] ++ [';'] := by
    have hstrip := Text.strip_append (p := Text.isBlank) ['\t']
      ('"' :: middle ++ [last] ++ [';']) [] (List.forall_mem_singleton.2 (by decide)) (by simp)
    rw [← Text.trim_eq_strip, ← Text.trim_eq_strip] at hstrip
    have hself : Text.trim ('"' :: middle ++ [last] ++ [';']) = '"' :: middle ++ [last] ++ [';'] :=
      Text.trim_eq_self (by decide) (by decide) rfl
    rw [hself] at hstrip
    simpa using hstrip
  have hsemicolon : Text.trimEndWhile (· == ';') ('"' :: middle ++ [last] ++ [';']) =
      '"' :: middle ++ [last] := by
    rw [Text.trimEndWhile_append _ (by simp)]
    exact Text.trimEndWhile_append_of_not _ (by simpa using hlast)
  rw [body, htab, hsemicolon]
  exact Text.trim_eq_self (by decide) hblank rfl

/-! ### Attributes -/

/-- What has neither commas nor quotes belongs to the part that follows. -/
theorem attributeParts_append (front : List Char) (hcomma : ',' ∉ front) (hquote : '"' ∉ front)
    {back first : List Char} {others : List (List Char)}
    (h : attributeParts false back = first :: others) :
    attributeParts false (front ++ back) = (front ++ first) :: others := by
  induction front with
  | nil => exact h
  | cons c front ih =>
    simp only [List.mem_cons, not_or] at hcomma hquote
    rw [List.cons_append, attributeParts, if_neg (fun hc => hcomma.1 hc.1.symm),
      if_neg (Ne.symm hquote.1), ih hcomma.2 hquote.2]
    rfl

/-- Commas between quotes do not cut. -/
theorem attributeParts_inside {text : List Char} (h : '"' ∉ text) :
    attributeParts true (text ++ ['"']) = [text ++ ['"']] := by
  induction text with
  | nil => rfl
  | cons c text ih =>
    simp only [List.mem_cons, not_or] at h
    rw [List.cons_append, attributeParts, if_neg (by simp), if_neg (Ne.symm h.1), ih h.2]

/-- A quoted text without a mark inside is one part, whatever else it holds. -/
theorem attributeParts_inQuotes {text : List Char} (h : '"' ∉ text) :
    attributeParts false (inQuotes text) = [inQuotes text] := by
  rw [inQuotes, List.cons_append, attributeParts, if_neg (by decide), if_pos rfl, Bool.not_false,
    attributeParts_inside h]

/-- The attributes of a written node, by characters. -/
def nodeAttributes (label : List Char) : List Char :=
  "shape=record,".toList ++ ("label=".toList ++ inQuotes label)

-- unfolding by `rw` would evaluate the literals
/-- The attributes of a written node, piece by piece. -/
theorem nodeAttributes_eq (label : List Char) :
    nodeAttributes label = "shape=record,".toList ++ ("label=".toList ++ inQuotes label) := rfl

/-- The label of a written node is read. -/
theorem label?_nodeAttributes {label : List Char} (hquote : '"' ∉ label)
    (hunquote : unquote label = label) :
    label? (nodeAttributes label) = some (String.ofList label) := by
  have hlabel : attributeParts false ("label=".toList ++ inQuotes label) =
      ["label=".toList ++ inQuotes label] :=
    attributeParts_append "label=".toList (by decide) (by decide) (attributeParts_inQuotes hquote)
  have hcomma : attributeParts false (',' :: ("label=".toList ++ inQuotes label)) =
      [[], "label=".toList ++ inQuotes label] := by
    rw [attributeParts, if_pos ⟨rfl, rfl⟩, hlabel]
  have hparts : attributeParts false (nodeAttributes label) =
      ["shape=record".toList, "label=".toList ++ inQuotes label] :=
    attributeParts_append "shape=record".toList (by decide) (by decide) hcomma
  have hshape : attribute? "shape=record".toList = some ("shape".toList, "record".toList) := by
    decide
  have hvalue : attribute? ("label=".toList ++ inQuotes label) = some ("label".toList, label) := by
    have hcut : Text.cutAt ['='] ("label=".toList ++ inQuotes label) =
        some ("label".toList, inQuotes label) :=
      Text.cutAt_singleton "label".toList _ (by decide)
    rw [attribute?, hcut, Option.map_some, trim_inQuotes, unquote_inQuotes hunquote]
    rfl
  simp only [label?, hparts, List.filterMap_cons, hshape, hvalue]
  rfl

/-- A title between braces is cleaned to the title. -/
theorem Title.cleanLabel?_inBraces {name : List Char} (h : Title name) :
    cleanLabel? (String.ofList (inBraces name)) = some (String.ofList name) := by
  have hfilter : (inBraces name).filter (fun c =>
      c != '\x7b' && c != '\x7d' && c != '"') = name := by
    have hname : name.filter (fun c => c != '\x7b' && c != '\x7d' && c != '"') = name := by
      rw [List.filter_eq_self]
      intro c hc
      have hopening : c ≠ '\x7b' := fun heq => h.opening (heq ▸ hc)
      have hclosing : c ≠ '\x7d' := fun heq => h.closing (heq ▸ hc)
      have hquote : c ≠ '"' := fun heq => h.quote (heq ▸ hc)
      simp [hopening, hclosing, hquote]
    simp [inBraces, hname]
  have hne : name.isEmpty = false := by simpa using h.ne_nil
  rw [cleanLabel?, String.toList_ofList, hfilter, h.trim_eq]
  simp only [hne, Bool.false_eq_true, if_false]

/-- A title in braces holds no quotation mark. -/
theorem Title.not_mem_inBraces {name : List Char} (h : Title name) : '"' ∉ inBraces name := by
  simpa [inBraces] using h.quote

/-- A text in braces has no quotation marks at its ends. -/
theorem unquote_inBraces (name : List Char) : unquote (inBraces name) = inBraces name :=
  Text.trimEndWhile_append_of_not ('\x7b' :: name) (by decide)

/-! ### Statements -/

/-- The line of a node, by characters. -/
def nodeLine (id name : List Char) : List Char :=
  '\t' :: (inQuotes id ++ ' ' :: '[' :: (nodeAttributes (inBraces name) ++ [']'])) ++ [';']

/-- The line of an edge, by characters. -/
def edgeLine (caller callee : List Char) : List Char :=
  '\t' :: (inQuotes caller ++ ' ' :: (arrow ++ ' ' :: inQuotes callee)) ++ [';']

/-- A written node ends in a semicolon. -/
theorem getLast?_nodeLine (id name : List Char) : (nodeLine id name).getLast? = some ';' := by
  rw [nodeLine, List.getLast?_concat]

/-- A written edge ends in a semicolon. -/
theorem getLast?_edgeLine (caller callee : List Char) :
    (edgeLine caller callee).getLast? = some ';' := by
  rw [edgeLine, List.getLast?_concat]

/-- A written node is one line. -/
theorem feed_not_mem_nodeLine {id name : List Char} (hid : Identifier id) (hname : Title name) :
    '\n' ∉ nodeLine id name := by
  have hshape : '\n' ∉ "shape=record,".toList := by decide
  have hlabel : '\n' ∉ "label=".toList := by decide
  have hvalue : '\n' ∉ inQuotes (inBraces name) := by simp [inQuotes, inBraces, hname.feed]
  have hattributes : '\n' ∉ nodeAttributes (inBraces name) := by
    rw [nodeAttributes_eq, List.mem_append, List.mem_append, not_or, not_or]
    exact ⟨hshape, hlabel, hvalue⟩
  simp [nodeLine, inQuotes, hid.feed, hattributes]

/-- A written edge is one line. -/
theorem feed_not_mem_edgeLine {caller callee : List Char} (hcaller : Identifier caller)
    (hcallee : Identifier callee) : '\n' ∉ edgeLine caller callee := by
  simp [edgeLine, arrow, inQuotes, hcaller.feed, hcallee.feed]

/-- A quoted identifier opens no attribute list. -/
theorem Identifier.not_mem_inQuotes {id : List Char} (h : Identifier id) : '[' ∉ inQuotes id := by
  simpa [inQuotes] using h.bracket

/-- No arrow comes about at the end of an identifier. -/
theorem Identifier.not_arrow_infix {id : List Char} (h : Identifier id) :
    ¬ arrow <:+: inQuotes id ++ [' ', '-'] := by
  have hopen : ¬ arrow <:+: '"' :: id := by
    rw [List.infix_cons_iff, not_or]
    exact ⟨by simp [arrow], h.no_arrow⟩
  have hconcat : ∀ {text : List Char} {c : Char}, c ≠ '>' → ¬ arrow <:+: text →
      ¬ arrow <:+: text ++ [c] := by
    intro text c hc htext
    rw [List.infix_concat_iff, not_or]
    refine ⟨?_, htext⟩
    rw [List.suffix_concat_iff]
    rintro (hnil | ⟨front, heq, -⟩)
    · exact absurd hnil (by simp [arrow])
    · have hlast := congrArg List.getLast? heq
      rw [List.getLast?_concat] at hlast
      exact hc (Option.some.inj hlast).symm
  have hsplit : inQuotes id ++ [' ', '-'] = '"' :: id ++ ['"'] ++ [' '] ++ ['-'] := by
    simp [inQuotes]
  rw [hsplit]
  exact hconcat (by decide) (hconcat (by decide) (hconcat (by decide) hopen))

/-- The blank behind a quoted text is trimmed off. -/
theorem trim_inQuotes_append (text : List Char) :
    Text.trim (inQuotes text ++ [' ']) = inQuotes text := by
  have hstrip := Text.strip_append (p := Text.isBlank) [] (inQuotes text) [' '] (by simp)
    (List.forall_mem_singleton.2 (by decide))
  rw [← Text.trim_eq_strip, ← Text.trim_eq_strip, trim_inQuotes] at hstrip
  exact hstrip

/-- The line of a node is read as this node. -/
theorem statement?_nodeLine {id name : List Char} (hid : Identifier id) (hname : Title name) :
    statement? (nodeLine id name) =
      some (.node (String.ofList id) (some (String.ofList (inBraces name)))) := by
  have hbody : body (nodeLine id name) =
      inQuotes id ++ [' '] ++ '[' :: (nodeAttributes (inBraces name) ++ [']']) := by
    have hline := body_line (id ++ '"' :: ' ' :: '[' :: nodeAttributes (inBraces name)) ']'
      (by decide) (by decide)
    simpa [nodeLine, inQuotes] using hline
  have hskip : isSkipped (inQuotes id ++ [' '] ++ '[' ::
      (nodeAttributes (inBraces name) ++ [']'])) = false := rfl
  have hcut : headAndAttributes (inQuotes id ++ [' '] ++ '[' ::
      (nodeAttributes (inBraces name) ++ [']'])) =
      (inQuotes id, some (nodeAttributes (inBraces name))) := by
    have hfront : '[' ∉ inQuotes id ++ [' '] := by simpa using hid.not_mem_inQuotes
    have hback : Text.trimEndWhile (· == ']') (nodeAttributes (inBraces name) ++ [']']) =
        nodeAttributes (inBraces name) := by
      rw [Text.trimEndWhile_append _ (by simp)]
      exact Text.trimEndWhile_append_of_not
        ("shape=record,".toList ++ ("label=".toList ++ '"' :: inBraces name)) (by decide)
    rw [headAndAttributes, Text.cutAt_singleton _ _ hfront]
    simp only [trim_inQuotes_append, hback]
  have harrow : Text.cutAt ['-', '>'] (inQuotes id) = none := by
    rw [Text.cutAt_eq_none_iff]
    exact fun hinside => hid.not_arrow_infix (hinside.trans (List.prefix_append _ _).isInfix)
  have hne : id.isEmpty = false := by simpa using hid.ne_nil
  have hlabel := label?_nodeAttributes hname.not_mem_inBraces (unquote_inBraces name)
  simp only [statement?, hbody, hskip, hcut, harrow, unquote_inQuotes hid.unquote_eq, hne, hlabel,
    Bool.false_eq_true, if_false, Option.bind_some]

/-- The line of an edge is read as this edge. -/
theorem statement?_edgeLine {caller callee : List Char} (hcaller : Identifier caller)
    (hcallee : Identifier callee) :
    statement? (edgeLine caller callee) =
      some (.edge (String.ofList caller) (String.ofList callee)) := by
  have hbody : body (edgeLine caller callee) =
      inQuotes caller ++ [' '] ++ arrow ++ ' ' :: inQuotes callee := by
    have hline := body_line (caller ++ '"' :: ' ' :: '-' :: '>' :: ' ' :: '"' :: callee) '"'
      (by decide) (by decide)
    simpa [edgeLine, inQuotes, arrow] using hline
  have hskip : isSkipped (inQuotes caller ++ [' '] ++ arrow ++ ' ' :: inQuotes callee) = false :=
    rfl
  have hhead : headAndAttributes (inQuotes caller ++ [' '] ++ arrow ++ ' ' :: inQuotes callee) =
      (inQuotes caller ++ [' '] ++ arrow ++ ' ' :: inQuotes callee, none) := by
    have hnone : Text.cutAt ['['] (inQuotes caller ++ [' '] ++ arrow ++ ' ' :: inQuotes callee) =
        none := by
      rw [Text.cutAt_eq_none_iff, List.singleton_infix_iff]
      simp [hcaller.not_mem_inQuotes, hcallee.not_mem_inQuotes, arrow]
    rw [headAndAttributes, hnone]
  have hcut : Text.cutAt ['-', '>'] (inQuotes caller ++ [' '] ++ arrow ++ ' ' :: inQuotes callee) =
      some (inQuotes caller ++ [' '], ' ' :: inQuotes callee) := by
    refine Text.cutAt_append _ (by simp) ?_
    simpa [arrow] using hcaller.not_arrow_infix
  have hback : Text.trim (' ' :: inQuotes callee) = inQuotes callee := by
    have hstrip := Text.strip_append (p := Text.isBlank) [' '] (inQuotes callee) []
      (List.forall_mem_singleton.2 (by decide)) (by simp)
    rw [← Text.trim_eq_strip, ← Text.trim_eq_strip, trim_inQuotes, List.append_nil] at hstrip
    exact hstrip
  have hfirst : caller.isEmpty = false := by simpa using hcaller.ne_nil
  have hsecond : callee.isEmpty = false := by simpa using hcallee.ne_nil
  simp only [statement?, hbody, hskip, hhead, hcut, trim_inQuotes_append, hback,
    unquote_inQuotes hcaller.unquote_eq, unquote_inQuotes hcallee.unquote_eq, hfirst, hsecond,
    Bool.false_eq_true, if_false, Bool.or_self]

end FuzzCampaign.DotText

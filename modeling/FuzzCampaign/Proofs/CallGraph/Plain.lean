import FuzzCampaign.Proofs.CallGraph.Identities
import Mathlib.Data.Finmap
import Mathlib.Data.Finset.Card

/-!
# Plain graphs

A plain graph is what a call graph stands for: a finite map from names to functions, a
finite set of calls between names, and the name of the entry.  It has no numbers, no
free lists and no tables, and its operations are those of maps and sets.  A call graph
represents a plain graph when both have the same functions and calls, numbers being read
as the names of the functions that have them, and every operation on the one is the
operation of the same name on the other.

Main definitions:

- `PlainGraph` and its operations.
- `CallGraph.reading`: a call, by the names of its ends.
- `CallGraph.Represents`: a call graph has the functions and calls of a plain graph.

Main results:

- `CallGraph.Represents.insert`, `.remove`, `.addCall`, `.modifyVertex`, `.modifyCall`:
  what is represented after each operation.
-/

namespace FuzzCampaign

/-- A call between two names. -/
structure NamedCall where
  caller : String
  callee : String
  call : Call
  deriving DecidableEq

/-- A call between two names, in the form in which calls between numbers are read. -/
def NamedCall.reading (c : NamedCall) : Option String × Option String × Call :=
  (some c.caller, some c.callee, c.call)

theorem NamedCall.reading_injective : Function.Injective NamedCall.reading := by
  rintro ⟨⟩ ⟨⟩ heq
  simpa [NamedCall.reading] using heq

/-- A call graph without numbers. -/
structure PlainGraph where
  entry : String
  functions : Finmap fun _ : String => Vertex
  calls : Finset NamedCall

namespace PlainGraph

variable {m : PlainGraph}

/-- The entry function alone. -/
def ofEntry (entry : Vertex) : PlainGraph where
  entry := entry.name
  functions := Finmap.singleton entry.name entry
  calls := ∅

/-- Enter a function under its name, unless the name is known. -/
def insert (m : PlainGraph) (v : Vertex) : PlainGraph :=
  if v.name ∈ m.functions then m else { m with functions := m.functions.insert v.name v }

/-- Strike out a function and the calls that it makes or receives; the entry stays. -/
def remove (m : PlainGraph) (name : String) : PlainGraph :=
  if name = m.entry then m
  else
    { m with
      functions := m.functions.erase name
      calls := m.calls.filter fun c => c.caller ≠ name ∧ c.callee ≠ name }

/-- One function calls another. -/
def HasCall (m : PlainGraph) (caller callee : String) : Prop :=
  ∃ c ∈ m.calls, c.caller = caller ∧ c.callee = callee

instance (m : PlainGraph) (caller callee : String) : Decidable (m.HasCall caller callee) :=
  inferInstanceAs (Decidable (∃ c ∈ m.calls, c.caller = caller ∧ c.callee = callee))

/-- Enter a call between two known names, unless there is one. -/
def addCall (m : PlainGraph) (caller callee : String) (call : Call) : PlainGraph :=
  if m.HasCall caller callee ∨ caller ∉ m.functions ∨ callee ∉ m.functions then m
  else { m with calls := Insert.insert ⟨caller, callee, call⟩ m.calls }

/-- Change the function of a name. -/
def modifyVertex (m : PlainGraph) (name : String) (f : Vertex → Vertex) : PlainGraph :=
  (m.functions.lookup name).elim m fun v => { m with functions := m.functions.insert name (f v) }

/-- Change the attributes of a call in one place. -/
def reviseCall (caller callee : String) (f : Call → Call) (c : NamedCall) : NamedCall :=
  if c.caller = caller ∧ c.callee = callee then { c with call := f c.call } else c

/-- Change the attributes of the call from one function to another. -/
def modifyCall (m : PlainGraph) (caller callee : String) (f : Call → Call) : PlainGraph :=
  { m with calls := m.calls.image (reviseCall caller callee f) }

end PlainGraph

namespace CallGraph

variable {g : CallGraph} {m : PlainGraph}

/-- A call, its ends read as the names of the functions that have these numbers. -/
def reading (g : CallGraph) (arc : Arc) : Option String × Option String × Call :=
  (g.name? arc.caller, g.name? arc.callee, arc.call)

/-- The names of the ends of the call with a number. -/
def callNames? (g : CallGraph) (index : Nat) : Option (String × String) :=
  (g.arcs.find? (·.index == index)).bind fun arc =>
    (g.name? arc.caller).bind fun caller => (g.name? arc.callee).map fun callee => (caller, callee)

/-- A call graph has the functions and calls of a plain graph, and finds them. -/
structure Represents (g : CallGraph) (m : PlainGraph) : Prop where
  wellFormed : g.WellFormed
  indexed : g.Indexed
  identified : g.Identified
  entry : g.name? g.entry = some m.entry
  functions : ∀ name v,
    m.functions.lookup name = some v ↔ v.name = name ∧ ∃ node, g.vertex? node = some v
  calls : ∀ c, c ∈ m.calls ↔ ∃ arc ∈ g.arcs, g.reading arc = c.reading

/-! ## Reading numbers as names -/

theorem name?_eq_some_iff {node : Nat} {name : String} :
    g.name? node = some name ↔ ∃ v, g.vertex? node = some v ∧ v.name = name :=
  Option.map_eq_some_iff

/-- The functions of a plain graph are known by their names. -/
theorem Represents.mem_functions (h : Represents g m) {name : String} :
    name ∈ m.functions ↔ ∃ node, g.name? node = some name := by
  rw [Finmap.mem_iff]
  constructor
  · rintro ⟨v, hv⟩
    obtain ⟨rfl, node, hnode⟩ := (h.functions _ _).1 hv
    exact ⟨node, name?_eq_some_iff.2 ⟨v, hnode, rfl⟩⟩
  · rintro ⟨node, hnode⟩
    obtain ⟨v, hv, rfl⟩ := name?_eq_some_iff.1 hnode
    exact ⟨v, (h.functions _ _).2 ⟨rfl, node, hv⟩⟩

theorem Represents.mem_functions_iff (h : Represents g m) {name : String} :
    name ∈ m.functions ↔ ∃ node, g.node? name = some node := by
  rw [h.mem_functions]
  exact exists_congr fun node => (h.indexed name node).symm

/-- The function of a name is the one that has its number. -/
theorem Represents.lookup_eq (h : Represents g m) {node : Nat} {name : String}
    (hname : g.name? node = some name) : m.functions.lookup name = g.vertex? node := by
  obtain ⟨v, hv, rfl⟩ := name?_eq_some_iff.1 hname
  rw [hv]
  exact (h.functions _ _).2 ⟨rfl, node, hv⟩

/-- Every call of a well-formed graph is a call between two names. -/
theorem WellFormed.exists_reading (h : g.WellFormed) {arc : Arc} (harc : arc ∈ g.arcs) :
    ∃ c : NamedCall, g.reading arc = c.reading := by
  obtain ⟨v, hv⟩ := hasNode_iff.1 (h.caller_mem arc harc)
  obtain ⟨w, hw⟩ := hasNode_iff.1 (h.callee_mem arc harc)
  refine ⟨⟨v.name, w.name, arc.call⟩, ?_⟩
  rw [reading, name?, name?, hv, hw]
  rfl

theorem reading_eq_iff {arc : Arc} {c : NamedCall} :
    g.reading arc = c.reading ↔
      g.name? arc.caller = some c.caller ∧ g.name? arc.callee = some c.callee ∧
        arc.call = c.call := by
  rw [reading, NamedCall.reading, Prod.mk.injEq, Prod.mk.injEq]

/-- There is a call between two names if and only if there is one between the functions
that have them. -/
theorem Represents.hasCall_iff (h : Represents g m) {a b : Nat} {x y : String}
    (ha : g.name? a = some x) (hb : g.name? b = some y) :
    m.HasCall x y ↔ g.hasCall a b = true := by
  rw [CallGraph.hasCall_iff]
  constructor
  · rintro ⟨c, hc, rfl, rfl⟩
    obtain ⟨arc, harc, hread⟩ := (h.calls c).1 hc
    obtain ⟨hcaller, hcallee, -⟩ := reading_eq_iff.1 hread
    exact ⟨arc, harc, h.indexed.name_unique hcaller ha, h.indexed.name_unique hcallee hb⟩
  · rintro ⟨arc, harc, rfl, rfl⟩
    exact ⟨⟨x, y, arc.call⟩, (h.calls _).2 ⟨arc, harc, reading_eq_iff.2 ⟨ha, hb, rfl⟩⟩, rfl, rfl⟩

/-- Two calls that are read alike at their ends are one. -/
theorem Represents.arc_unique (h : Represents g m) {arc other : Arc} (harc : arc ∈ g.arcs)
    (hother : other ∈ g.arcs) (hcaller : g.name? arc.caller = g.name? other.caller)
    (hcallee : g.name? arc.callee = g.name? other.callee) : arc = other := by
  obtain ⟨c, hc⟩ := h.wellFormed.exists_reading hother
  obtain ⟨hx, hy, -⟩ := reading_eq_iff.1 hc
  refine List.inj_on_of_nodup_map h.wellFormed.nodup_ends harc hother (Prod.ext ?_ ?_)
  · exact h.indexed.name_unique (hcaller.trans hx) hx
  · exact h.indexed.name_unique (hcallee.trans hy) hy

/-! ## What is represented after each operation -/

variable {g' : CallGraph}

/-- Calls between functions that keep their names are read as before. -/
theorem reading_congr {arc : Arc} (hcaller : g'.name? arc.caller = g.name? arc.caller)
    (hcallee : g'.name? arc.callee = g.name? arc.callee) : g'.reading arc = g.reading arc := by
  rw [reading, reading, hcaller, hcallee]

/-- The same calls between functions of the same names represent the same. -/
theorem Represents.calls_congr (h : Represents g m) (harcs : g'.arcs = g.arcs)
    (hname : ∀ node, g.hasNode node = true → g'.name? node = g.name? node) (c : NamedCall) :
    c ∈ m.calls ↔ ∃ arc ∈ g'.arcs, g'.reading arc = c.reading := by
  rw [h.calls, harcs]
  refine exists_congr fun arc => and_congr_right fun harc => ?_
  rw [reading_congr (hname _ (h.wellFormed.caller_mem arc harc))
    (hname _ (h.wellFormed.callee_mem arc harc))]

theorem represents_ofEntry (entry : Vertex) :
    Represents (ofEntry entry) (PlainGraph.ofEntry entry) := by
  refine ⟨wellFormed_ofEntry entry, indexed_ofEntry entry, identified_ofEntry entry, rfl, ?_, ?_⟩
  · intro name v
    have hvertex : ∀ node, (ofEntry entry).vertex? node = some v ↔ node = 0 ∧ entry = v := by
      intro node
      cases node with
      | zero => simp [ofEntry, vertex?]
      | succ node => simp [ofEntry, vertex?]
    simp only [hvertex]
    by_cases hname : name = entry.name
    · subst hname
      rw [PlainGraph.ofEntry, Finmap.lookup_singleton_eq, Option.some.injEq]
      constructor
      · rintro rfl
        exact ⟨rfl, 0, rfl, rfl⟩
      · rintro ⟨-, -, -, heq⟩
        exact heq
    · have hnone : (PlainGraph.ofEntry entry).functions.lookup name = none := by
        rw [Finmap.lookup_eq_none]
        exact fun hmem => hname ((Finmap.mem_singleton _ _ _).1 hmem)
      rw [hnone]
      constructor
      · intro hv
        exact absurd hv (by simp)
      · rintro ⟨rfl, -, -, rfl⟩
        exact absurd rfl hname
  · intro c
    simp [PlainGraph.ofEntry, ofEntry]

/-- A new function that is inserted is there beside the others. -/
theorem WellFormed.exists_vertex?_insert (h : g.WellFormed) {v w : Vertex}
    (hnew : g.node? v.name = none) :
    (∃ node, (g.insert v).2.vertex? node = some w) ↔
      (∃ node, g.vertex? node = some w) ∨ w = v := by
  have hplaced := h.placed_insert hnew
  constructor
  · rintro ⟨node, hnode⟩
    exact (h.eq_of_vertex?_insert hnode).imp_left fun hold => ⟨node, hold⟩
  · rintro (⟨node, hnode⟩ | rfl)
    · exact ⟨node, by rw [hplaced.vertex?_of_hasNode (hasNode_iff.2 ⟨w, hnode⟩), hnode]⟩
    · exact ⟨_, by rw [hplaced.vertex?_eq, if_pos rfl]⟩

/-- Inserting a function whose identity nobody else has enters it. -/
theorem Represents.insert (h : Represents g m) {v : Vertex}
    (hfresh : ∀ node w, g.vertex? node = some w → w.id = v.id → w.name = v.name) :
    Represents (g.insert v).2 (m.insert v) := by
  have hw := h.wellFormed
  cases hfind : g.byName[v.name]? with
  | some known =>
    have hmem : v.name ∈ m.functions := h.mem_functions_iff.2 ⟨known, hfind⟩
    simpa [CallGraph.insert, hfind, PlainGraph.insert, hmem] using h
  | none =>
    have hplaced := hw.placed_insert hfind
    have hnew : v.name ∉ m.functions := by
      rw [h.mem_functions]
      rintro ⟨node, hnode⟩
      exact h.indexed.name?_ne hfind node hnode
    have hname : ∀ node, g.hasNode node = true → (g.insert v).2.name? node = g.name? node := by
      intro node hnode
      rw [name?, hplaced.vertex?_of_hasNode hnode, name?]
    rw [PlainGraph.insert, if_neg hnew]
    refine ⟨hw.insert v, h.indexed.insert hw v, h.identified.insert hw h.indexed hfresh, ?_, ?_,
      h.calls_congr hplaced.arcs_eq hname⟩
    · rw [hplaced.entry_eq, hname _ hw.entry_mem, h.entry]
    · intro name w
      rw [hw.exists_vertex?_insert hfind]
      by_cases heq : name = v.name
      · subst heq
        rw [Finmap.lookup_insert, Option.some.injEq]
        constructor
        · rintro rfl
          exact ⟨rfl, Or.inr rfl⟩
        · rintro ⟨heq, ⟨node, hnode⟩ | hsame⟩
          · exact absurd (name?_eq_some_iff.2 ⟨w, hnode, heq⟩) (h.indexed.name?_ne hfind node)
          · exact hsame.symm
      · rw [Finmap.lookup_insert_of_ne _ heq, h.functions]
        refine and_congr_right fun hwname => (or_iff_left ?_).symm
        rintro rfl
        exact heq hwname.symm

/-- The others are there after a function was removed. -/
theorem exists_vertex?_remove {node : Nat} (hne : node ≠ g.entry) {w : Vertex} :
    (∃ other, (g.remove node).2.vertex? other = some w) ↔
      ∃ other, other ≠ node ∧ g.vertex? other = some w := by
  refine exists_congr fun other => ?_
  rw [vertex?_remove hne]
  split <;> simp_all

theorem name?_remove {node other : Nat} (hne : node ≠ g.entry) (hother : other ≠ node) :
    (g.remove node).2.name? other = g.name? other := by
  rw [name?, vertex?_remove hne, if_neg hother, name?]

/-- A call has a function at an end if and only if it has its name there. -/
theorem Indexed.not_touches_iff (h : g.Indexed) {node : Nat} {name : String}
    (hname : g.name? node = some name) {arc : Arc} {c : NamedCall}
    (hread : g.reading arc = c.reading) :
    arc.touches node = false ↔ c.caller ≠ name ∧ c.callee ≠ name := by
  obtain ⟨hcaller, hcallee, -⟩ := reading_eq_iff.1 hread
  have hend : ∀ {a : Nat} {x : String}, g.name? a = some x → (a = node ↔ x = name) := by
    intro a x ha
    exact ⟨fun heq => Option.some.inj (ha.symm.trans (heq ▸ hname)),
      fun heq => h.name_unique (heq ▸ ha) hname⟩
  rw [Bool.eq_false_iff, ne_eq, Arc.touches_iff, not_or, hend hcaller, hend hcallee]

/-- The calls that stay when a function is removed are read as before. -/
theorem reading_remove {node : Nat} (hne : node ≠ g.entry) {arc : Arc}
    (harc : arc.touches node = false) : (g.remove node).2.reading arc = g.reading arc := by
  rw [Bool.eq_false_iff, ne_eq, Arc.touches_iff, not_or] at harc
  exact reading_congr (name?_remove hne harc.1) (name?_remove hne harc.2)

/-- Removing a number strikes out the function that has it, if it is not the entry. -/
theorem Represents.remove (h : Represents g m) (node : Nat) :
    Represents (g.remove node).2 ((g.name? node).elim m m.remove) := by
  cases hv : g.vertex? node with
  | none =>
    have hname : g.name? node = none := by rw [name?, hv, Option.map_none]
    rwa [remove_of_vacant hv, hname]
  | some v =>
    have hname : g.name? node = some v.name := name?_eq_some_iff.2 ⟨v, hv, rfl⟩
    rw [hname, Option.elim_some]
    by_cases hne : node = g.entry
    · have hentry : v.name = m.entry := by
        rw [hne, h.entry, Option.some.injEq] at hname
        exact hname.symm
      rwa [hne, remove_entry, PlainGraph.remove, if_pos hentry]
    · have hentry : v.name ≠ m.entry := fun heq =>
        hne (h.indexed.name_unique (heq ▸ hname) h.entry)
      rw [PlainGraph.remove, if_neg hentry]
      refine ⟨h.wellFormed.remove node, h.indexed.remove node, h.identified.remove node, ?_, ?_, ?_⟩
      · rw [entry_remove, name?_remove hne (Ne.symm hne), h.entry]
      · intro name w
        rw [exists_vertex?_remove hne]
        by_cases heq : name = v.name
        · subst heq
          rw [Finmap.lookup_erase]
          constructor
          · intro hw
            exact absurd hw (by simp)
          · rintro ⟨hwname, other, hother, hw⟩
            exact absurd (h.indexed.name_unique (name?_eq_some_iff.2 ⟨w, hw, hwname⟩) hname) hother
        · rw [Finmap.lookup_erase_ne heq, h.functions]
          refine and_congr_right fun hwname => exists_congr fun other => ?_
          rw [iff_and_self]
          rintro hw rfl
          rw [hv, Option.some.injEq] at hw
          exact heq (hwname.symm.trans (congrArg Vertex.name hw).symm)
      · intro c
        rw [Finset.mem_filter, h.calls, arcs_remove hne (hasNode_iff.2 ⟨v, hv⟩)]
        simp only [List.mem_filter, Bool.not_eq_true']
        constructor
        · rintro ⟨⟨arc, harc, hc⟩, hboth⟩
          have htouch := (h.indexed.not_touches_iff hname hc).2 hboth
          exact ⟨arc, ⟨harc, htouch⟩, (reading_remove hne htouch).trans hc⟩
        · rintro ⟨arc, ⟨harc, htouch⟩, hc⟩
          have hold := (reading_remove hne htouch).symm.trans hc
          exact ⟨⟨arc, harc, hold⟩, (h.indexed.not_touches_iff hname hold).1 htouch⟩

/-- A call that is added takes some number, and nothing else changes. -/
theorem exists_arcs_pushArc (g : CallGraph) (caller callee : Nat) (call : Call) :
    ∃ index, (g.pushArc caller callee call).arcs = ⟨index, caller, callee, call⟩ :: g.arcs ∧
      ∀ node, (g.pushArc caller callee call).name? node = g.name? node := by
  unfold pushArc
  split
  · exact ⟨_, rfl, fun _ => rfl⟩
  · exact ⟨_, rfl, fun _ => rfl⟩

/-- Adding a call between two numbers enters one between the functions that have them. -/
theorem Represents.addCall (h : Represents g m) (caller callee : Nat) (call : Call) :
    Represents (g.addCall caller callee call).2
      ((g.name? caller).elim m fun x => (g.name? callee).elim m fun y => m.addCall x y call) := by
  have hvacant : ∀ node, g.name? node = none → g.hasNode node = false := by
    intro node hnode
    rwa [name?, Option.map_eq_none_iff, ← Option.not_isSome_iff_eq_none, Bool.not_eq_true] at hnode
  cases hx : g.name? caller with
  | none => simpa [CallGraph.addCall, hvacant caller hx] using h
  | some x =>
    cases hy : g.name? callee with
    | none => simpa [CallGraph.addCall, hvacant callee hy] using h
    | some y =>
      rw [Option.elim_some, Option.elim_some, PlainGraph.addCall]
      have hcall := h.hasCall_iff hx hy
      have hxmem : x ∈ m.functions := h.mem_functions.2 ⟨caller, hx⟩
      have hymem : y ∈ m.functions := h.mem_functions.2 ⟨callee, hy⟩
      by_cases hknown : m.HasCall x y
      · simpa [hknown, CallGraph.addCall, hcall.1 hknown] using h
      · have hnew : g.hasCall caller callee = false := by
          rwa [hcall, Bool.not_eq_true] at hknown
        obtain ⟨v, hv, -⟩ := name?_eq_some_iff.1 hx
        obtain ⟨w, hw, -⟩ := name?_eq_some_iff.1 hy
        have hpush : (g.addCall caller callee call).2 = g.pushArc caller callee call := by
          simp [CallGraph.addCall, hnew, hasNode_iff.2 ⟨v, hv⟩, hasNode_iff.2 ⟨w, hw⟩]
        obtain ⟨index, harcs, hname⟩ := g.exists_arcs_pushArc caller callee call
        rw [if_neg (by simp [hknown, hxmem, hymem])]
        refine ⟨h.wellFormed.addCall caller callee call,
          h.indexed.congr (addCall_cases _ caller callee call).2
            (name?_addCall _ caller callee · call),
          h.identified.addCall caller callee call, ?_, ?_, ?_⟩
        · rw [entry_addCall, name?_addCall, h.entry]
        · intro name u
          rw [h.functions]
          simp only [vertex?_addCall]
        · intro c
          rw [hpush, harcs, Finset.mem_insert, h.calls, List.exists_mem_cons_iff]
          have hread : ∀ arc, (g.pushArc caller callee call).reading arc = g.reading arc :=
            fun arc => reading_congr (hname _) (hname _)
          simp only [hread]
          refine or_congr ?_ Iff.rfl
          rw [reading_eq_iff, hx, hy]
          cases c
          simp [eq_comm]

/-- Changing a function under its number changes it under its name. -/
theorem Represents.modifyVertex (h : Represents g m) (node : Nat) {f : Vertex → Vertex}
    (hid : ∀ v, (f v).id = v.id) (hname : ∀ v, (f v).name = v.name) :
    Represents (g.modifyVertex node f)
      ((g.name? node).elim m fun name => m.modifyVertex name f) := by
  have hvertex := fun other => g.vertex?_modifyVertex node other f
  have hnames := fun other => g.name?_modifyVertex node other hname
  have hids := fun other => g.id?_modifyVertex node other hid
  have hw := h.wellFormed.of_sameShape (g.sameShape_modifyVertex node f)
  have hi : (g.modifyVertex node f).Indexed := h.indexed.congr rfl hnames
  have hd : (g.modifyVertex node f).Identified := h.identified.congr rfl hids
  have hentry : (g.modifyVertex node f).name? (g.modifyVertex node f).entry = some m.entry :=
    (hnames _).trans h.entry
  have hcalls : ∀ c, c ∈ m.calls ↔
      ∃ arc ∈ (g.modifyVertex node f).arcs, (g.modifyVertex node f).reading arc = c.reading :=
    h.calls_congr rfl fun other _ => hnames other
  cases hv : g.vertex? node with
  | none =>
    have hnone : g.name? node = none := by rw [name?, hv, Option.map_none]
    rw [hnone, Option.elim_none]
    refine ⟨hw, hi, hd, hentry, ?_, hcalls⟩
    intro name w
    rw [h.functions]
    refine and_congr_right fun _ => exists_congr fun other => ?_
    rw [hvertex]
    split
    · rename_i heq
      rw [← heq, hv, Option.map_none]
    · rfl
  | some v =>
    have hsome : g.name? node = some v.name := name?_eq_some_iff.2 ⟨v, hv, rfl⟩
    have hlookup : m.functions.lookup v.name = some v := (h.functions _ _).2 ⟨rfl, node, hv⟩
    rw [hsome, Option.elim_some, PlainGraph.modifyVertex, hlookup, Option.elim_some]
    refine ⟨hw, hi, hd, hentry, ?_, hcalls⟩
    intro name w
    by_cases heq : name = v.name
    · subst heq
      rw [Finmap.lookup_insert, Option.some.injEq]
      constructor
      · rintro rfl
        exact ⟨hname v, node, by rw [hvertex, if_pos rfl, hv, Option.map_some]⟩
      · rintro ⟨hwname, other, hw⟩
        have hother : node = other := by
          refine h.indexed.name_unique hsome ?_
          rw [← hnames]
          exact name?_eq_some_iff.2 ⟨w, hw, hwname⟩
        rw [hvertex, if_pos hother, ← hother, hv, Option.map_some, Option.some.injEq] at hw
        exact hw
    · rw [Finmap.lookup_insert_of_ne _ heq, h.functions]
      refine and_congr_right fun hwname => exists_congr fun other => ?_
      rw [hvertex]
      split
      · rename_i hother
        rw [← hother, hv, Option.map_some, Option.some.injEq, Option.some.injEq]
        constructor
        · rintro rfl
          exact absurd hwname.symm heq
        · rintro rfl
          exact absurd (hwname.symm.trans (hname v)) heq
      · rfl

theorem callNames?_eq_some_iff {index : Nat} {x y : String} :
    g.callNames? index = some (x, y) ↔
      ∃ arc, g.arcs.find? (·.index == index) = some arc ∧
        g.name? arc.caller = some x ∧ g.name? arc.callee = some y := by
  simp [callNames?, Option.bind_eq_some_iff]

/-- Two calls have one number if and only if they have the same names at their ends. -/
theorem Represents.index_eq_iff (h : Represents g m) {arc other : Arc} (harc : arc ∈ g.arcs)
    (hother : other ∈ g.arcs) {c d : NamedCall} (hc : g.reading arc = c.reading)
    (hd : g.reading other = d.reading) :
    arc.index = other.index ↔ c.caller = d.caller ∧ c.callee = d.callee := by
  obtain ⟨hcaller, hcallee, -⟩ := reading_eq_iff.1 hc
  obtain ⟨hx, hy, -⟩ := reading_eq_iff.1 hd
  constructor
  · intro heq
    obtain rfl : arc = other := List.inj_on_of_nodup_map h.wellFormed.nodup_indices harc hother heq
    rw [hx, Option.some.injEq] at hcaller
    rw [hy, Option.some.injEq] at hcallee
    exact ⟨hcaller.symm, hcallee.symm⟩
  · rintro ⟨hcx, hcy⟩
    refine congrArg Arc.index (h.arc_unique harc hother ?_ ?_)
    · rw [hcaller, hx, hcx]
    · rw [hcallee, hy, hcy]

/-- Changing a call under its number changes the call between the functions at its ends. -/
theorem Represents.modifyCall (h : Represents g m) (index : Nat) (f : Call → Call) :
    Represents (g.modifyCall index f)
      ((g.callNames? index).elim m fun names => m.modifyCall names.1 names.2 f) := by
  have hw := h.wellFormed.of_sameShape (g.sameShape_modifyCall index f)
  have hi : (g.modifyCall index f).Indexed := h.indexed.congr rfl fun _ => rfl
  have hd : (g.modifyCall index f).Identified := h.identified.congr rfl fun _ => rfl
  cases hfind : g.arcs.find? (·.index == index) with
  | none =>
    have hnone : g.callNames? index = none := by rw [callNames?, hfind, Option.bind_none]
    have harcs : (g.modifyCall index f).arcs = g.arcs := by
      refine (List.map_congr_left fun arc harc => ?_).trans (List.map_id' g.arcs)
      rw [if_neg]
      simpa using List.find?_eq_none.1 hfind arc harc
    rw [hnone, Option.elim_none]
    exact ⟨hw, hi, hd, h.entry, h.functions, h.calls_congr harcs fun _ _ => rfl⟩
  | some changed =>
    have hchanged : changed ∈ g.arcs := List.mem_of_find?_eq_some hfind
    have hindex : changed.index = index := by simpa using List.find?_some hfind
    obtain ⟨d, hd'⟩ := h.wellFormed.exists_reading hchanged
    obtain ⟨hx, hy, -⟩ := reading_eq_iff.1 hd'
    have hnames : g.callNames? index = some (d.caller, d.callee) :=
      callNames?_eq_some_iff.2 ⟨changed, hfind, hx, hy⟩
    rw [hnames, Option.elim_some]
    refine ⟨hw, hi, hd, h.entry, h.functions, ?_⟩
    intro c
    have hread : ∀ arc ∈ g.arcs, ∀ e : NamedCall, g.reading arc = e.reading →
        (g.modifyCall index f).reading
          (if arc.index = index then { arc with call := f arc.call } else arc) =
          (PlainGraph.reviseCall d.caller d.callee f e).reading := by
      intro arc harc e he
      obtain ⟨hcaller, hcallee, hcall⟩ := reading_eq_iff.1 he
      have hsame := h.index_eq_iff harc hchanged he hd'
      rw [hindex] at hsame
      rw [PlainGraph.reviseCall]
      by_cases heq : arc.index = index
      · rw [if_pos heq, if_pos (hsame.1 heq)]
        exact reading_eq_iff.2 ⟨hcaller, hcallee, congrArg f hcall⟩
      · rw [if_neg heq, if_neg (mt hsame.2 heq)]
        exact he
    rw [PlainGraph.modifyCall, Finset.mem_image]
    constructor
    · rintro ⟨e, he, rfl⟩
      obtain ⟨arc, harc, heread⟩ := (h.calls e).1 he
      exact ⟨_, List.mem_map_of_mem harc, hread arc harc e heread⟩
    · rintro ⟨arc', harc', hc⟩
      obtain ⟨arc, harc, rfl⟩ := List.mem_map.1 harc'
      obtain ⟨e, he⟩ := h.wellFormed.exists_reading harc
      exact ⟨e, (h.calls e).2 ⟨arc, harc, he⟩,
        NamedCall.reading_injective ((hread arc harc e he).symm.trans hc)⟩

end CallGraph

end FuzzCampaign

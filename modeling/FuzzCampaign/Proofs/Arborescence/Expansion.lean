import FuzzCampaign.Proofs.Arborescence.ClassForest
import FuzzCampaign.Proofs.Arborescence.Spanning

/-!
# Undoing the contractions

After the walks every class other than that of the root has an edge chosen into
it, and following these edges backwards leads from every class to the root.
Undoing a contraction keeps this property: the class of a cycle splits into the
classes on it, which keep the edges of the cycle, except the one at which the
chosen edge enters.  After the last contraction is undone the chosen edges form
a spanning arborescence.

The classes, the contractions and the charges are built up together, and the
proof follows how they were: a charge was made for a class of its time, so that
edges that appear when an earlier contraction is undone are never entries of a
later charge.

Main definitions:

- `Nested`: how classes, contractions and charges were built up.
- `Branching`: every class has a chosen edge and leads back to the root.

Main result:

- `Nested.expand`: undoing all contractions gives edges into single vertices that
  lead back to the root, ask nothing and enter every charge once.
-/

namespace FuzzCampaign

namespace Edmonds

open Relation

variable {n root : Nat} {edges : Array WeightedEdge}

/-! ## Cycles, and how the classes were built up -/

/-- The edges of a contraction form a cycle through the classes with the given
representatives. -/
structure Cycle (root : Nat) (edges : Array WeightedEdge) (classes : Classes)
    (cycle reps : List Nat) : Prop where
  root_not_mem : root ∉ reps
  candidate : ∀ e ∈ cycle, Candidate root edges e
  external : ∀ e ∈ cycle, classes.find (source edges e) ≠ classes.find (target edges e)
  target_mem : ∀ e ∈ cycle, classes.find (target edges e) ∈ reps
  source_mem : ∀ e ∈ cycle, classes.find (source edges e) ∈ reps
  exists_edge : ∀ r ∈ reps, ∃ e ∈ cycle, classes.find (target edges e) = r
  edge_unique : ∀ e ∈ cycle, ∀ f ∈ cycle,
    classes.find (target edges e) = classes.find (target edges f) → e = f
  connected : ∀ a ∈ reps, ∀ b ∈ reps, ReflTransGen (fun x y => ∃ e ∈ cycle,
    classes.find (target edges e) = x ∧ classes.find (source edges e) = y) a b

/-- Classes `after` come from `before` by the contraction of a cycle. -/
structure Contracts (n root : Nat) (edges : Array WeightedEdge) (before after : Classes)
    (c : Contraction) (reps : List Nat) : Prop where
  joined : Classes.Joined before after n reps
  cycle : Cycle root edges before c.edges reps
  reps_root : ∀ r ∈ reps, r < n ∧ before.find r = r
  time_eq : c.time = before.time
  representative_mem : c.representative ∈ reps
  find_eq : ∀ v, after.find v =
    if before.find v ∈ reps then c.representative else before.find v

/-- How the classes, the contractions and the charges are built up: classes are
charged, and cycles of classes are contracted once nothing more is asked of
their edges than they weigh. -/
inductive Nested (n root : Nat) (edges : Array WeightedEdge) :
    Classes → List Contraction → List Charge → Prop
  | discrete : Nested n root edges (Classes.discrete n) [] []
  | charge {classes contractions charges r} (amount : Int)
      (earlier : Nested n root edges classes contractions charges) (hr : r < n)
      (hfind : classes.find r = r) (hroot : r ≠ root) :
      Nested n root edges classes contractions (⟨classes.members r, amount⟩ :: charges)
  | contract {before after contractions charges c reps}
      (earlier : Nested n root edges before contractions charges)
      (contracts : Contracts n root edges before after c reps)
      (tight : ∀ e ∈ c.edges, reduced edges charges e = 0) :
      Nested n root edges after (c :: contractions) charges

namespace Nested
variable {classes : Classes} {contractions : List Contraction} {charges : List Charge}

/-- The classes of nested contractions are well formed. -/
theorem wellFormed (h : Nested n root edges classes contractions charges) :
    classes.WellFormed n := by
  induction h with
  | discrete => exact Classes.wellFormed_discrete n
  | charge _ _ _ _ _ ih => exact ih
  | contract _ contracts _ _ => exact contracts.joined.wellFormed

/-- The root always is a class of its own. -/
theorem find_eq_root_iff (h : Nested n root edges classes contractions charges) {v : Nat} :
    classes.find v = root ↔ v = root := by
  induction h generalizing v with
  | discrete => rw [Classes.find_discrete]
  | charge _ _ _ _ _ ih => exact ih
  | contract _ contracts _ ih =>
    rw [contracts.find_eq]
    split
    · rename_i hmem
      constructor
      · intro hrep
        exact absurd (hrep ▸ contracts.representative_mem) contracts.cycle.root_not_mem
      · rintro rfl
        rw [ih.2 rfl] at hmem
        exact absurd hmem contracts.cycle.root_not_mem
    · exact ih

end Nested

namespace Contracts
variable {before after : Classes} {c : Contraction} {reps : List Nat}

/-- A class outside the cycle consists of the same vertices as before. -/
theorem find_eq_iff (h : Contracts n root edges before after c reps) {r v : Nat}
    (hr : r ∉ reps) : after.find v = r ↔ before.find v = r := by
  rw [h.find_eq]
  split
  · rename_i hmem
    constructor
    · rintro rfl
      exact absurd h.representative_mem hr
    · rintro rfl
      exact absurd hmem hr
  · exact Iff.rfl

/-- What was not contracted does not stand for the cycle. -/
theorem ne_representative (h : Contracts n root edges before after c reps) {r : Nat}
    (hr : r ∉ reps) : r ≠ c.representative := by
  rintro rfl
  exact hr h.representative_mem

/-- The vertices of the contracted class are those of the cycle. -/
theorem find_eq_representative_iff (h : Contracts n root edges before after c reps) {v : Nat} :
    after.find v = c.representative ↔ before.find v ∈ reps := by
  rw [h.find_eq]
  split
  · rename_i hmem
    exact iff_of_true rfl hmem
  · rename_i hmem
    refine iff_of_false ?_ hmem
    intro heq
    exact hmem (heq ▸ h.representative_mem)

/-- The classes after the contraction are the new one and those off the cycle. -/
theorem find_eq_self_iff (h : Contracts n root edges before after c reps) {r : Nat} :
    after.find r = r ↔ r = c.representative ∨ r ∉ reps ∧ before.find r = r := by
  by_cases hr : r ∈ reps
  · have hfind : after.find r = c.representative := by
      rw [h.find_eq_representative_iff, (h.reps_root r hr).2]
      exact hr
    rw [hfind]
    simp [hr, eq_comm]
  · rw [h.find_eq_iff hr]
    simp [hr, h.ne_representative hr]

/-- Vertices of one class stay in one class. -/
theorem find_congr (h : Contracts n root edges before after c reps) {v w : Nat}
    (hvw : before.find v = before.find w) : after.find v = after.find w := by
  rw [h.find_eq, h.find_eq, hvw]

end Contracts

namespace Nested
variable {classes : Classes} {contractions : List Contraction} {charges : List Charge}

/-- The latest contraction was made of classes that were built up before it. -/
theorem latest {c : Contraction} (h : Nested n root edges classes (c :: contractions) charges) :
    ∃ before charges' reps, Nested n root edges before contractions charges' ∧
      Contracts n root edges before classes c reps := by
  generalize hall : c :: contractions = all at h
  induction h with
  | discrete => cases hall
  | charge _ _ _ _ _ ih => exact ih hall
  | contract earlier contracts _ _ =>
    cases hall
    exact ⟨_, _, _, earlier, contracts⟩

/-- Each contraction leaves fewer classes, and that of the root always is one. -/
theorem length_lt (h : Nested n root edges classes contractions charges) (hroot : root < n) :
    contractions.length < n := by
  have hcard : contractions.length +
      ((Finset.range n).filter fun r => classes.find r = r).card ≤ n := by
    induction h with
    | discrete => simp
    | charge _ _ _ _ _ ih => exact ih
    | @contract before after contractions charges c reps earlier contracts _ ih =>
      -- the cycle leads through another class than the one that stands for it
      obtain ⟨e, he, htarget⟩ := contracts.cycle.exists_edge _ contracts.representative_mem
      have hother := contracts.cycle.source_mem e he
      have hne : before.find (source edges e) ≠ c.representative :=
        htarget ▸ contracts.cycle.external e he
      have hfewer : ((Finset.range n).filter fun r => after.find r = r).card <
          ((Finset.range n).filter fun r => before.find r = r).card := by
        refine Finset.card_lt_card ((Finset.ssubset_iff_of_subset fun r hr => ?_).2
          ⟨before.find (source edges e), ?_, fun hr => ?_⟩)
        · obtain ⟨hlt, hfind⟩ := Finset.mem_filter.1 hr
          rcases contracts.find_eq_self_iff.1 hfind with rfl | ⟨-, hfind⟩
          · exact Finset.mem_filter.2 ⟨hlt, (contracts.reps_root _ contracts.representative_mem).2⟩
          · exact Finset.mem_filter.2 ⟨hlt, hfind⟩
        · obtain ⟨hlt, hfind⟩ := contracts.reps_root _ hother
          exact Finset.mem_filter.2 ⟨Finset.mem_range.2 hlt, hfind⟩
        · rcases contracts.find_eq_self_iff.1 (Finset.mem_filter.1 hr).2 with heq | ⟨hout, -⟩
          · exact hne heq
          · exact hout hother
      rw [List.length_cons]
      omega
  have hpos : 0 < ((Finset.range n).filter fun r => classes.find r = r).card :=
    Finset.card_pos.2 ⟨root, Finset.mem_filter.2
      ⟨Finset.mem_range.2 hroot, h.find_eq_root_iff.2 rfl⟩⟩
  omega

end Nested

/-! ## Choosing edges -/

/-- The edge chosen into the class with a representative, if there is one. -/
def entering (incoming : Array (Option Nat)) (r : Nat) : Option Nat := incoming[r]?.join

@[simp] theorem size_choose (classes : Classes) (incoming : Array (Option Nat)) (e : Nat) :
    (choose edges classes incoming e).size = incoming.size := by
  simp [choose]

@[simp] theorem size_foldl_choose (classes : Classes) (incoming : Array (Option Nat))
    (l : List Nat) : (l.foldl (choose edges classes) incoming).size = incoming.size := by
  induction l generalizing incoming with
  | nil => rfl
  | cons e l ih => rw [List.foldl_cons, ih, size_choose]

/-- A chosen edge enters its class. -/
theorem entering_choose_self {classes : Classes} {incoming : Array (Option Nat)} {e r : Nat}
    (he : classes.find (target edges e) = r) (hr : r < incoming.size) :
    entering (choose edges classes incoming e) r = some e := by
  subst he
  simp [entering, choose, hr]

/-- A chosen edge enters no other class. -/
theorem entering_choose_of_ne {classes : Classes} {incoming : Array (Option Nat)} {e r : Nat}
    (he : classes.find (target edges e) ≠ r) :
    entering (choose edges classes incoming e) r = entering incoming r := by
  simp [entering, choose, he]

/-- Chosen edges enter no other classes. -/
theorem entering_foldl_of_ne {classes : Classes} {incoming : Array (Option Nat)} {r : Nat}
    {l : List Nat} (hl : ∀ e ∈ l, classes.find (target edges e) ≠ r) :
    entering (l.foldl (choose edges classes) incoming) r = entering incoming r := by
  induction l generalizing incoming with
  | nil => rfl
  | cons e l ih =>
    rw [List.foldl_cons, ih fun f hf => hl f (List.mem_cons_of_mem _ hf),
      entering_choose_of_ne (hl e List.mem_cons_self)]

/-- When the edges lead into different classes, each is chosen. -/
theorem entering_foldl_of_mem {classes : Classes} {incoming : Array (Option Nat)} {e r : Nat}
    {l : List Nat} (he : e ∈ l) (hr : classes.find (target edges e) = r) (hlt : r < incoming.size)
    (hunique : ∀ f ∈ l, classes.find (target edges f) = r → f = e) :
    entering (l.foldl (choose edges classes) incoming) r = some e := by
  induction l generalizing incoming with
  | nil => simp at he
  | cons f l ih =>
    rw [List.foldl_cons]
    by_cases hel : e ∈ l
    · exact ih hel (by simpa using hlt) fun g hg => hunique g (List.mem_cons_of_mem _ hg)
    · have hfe : e = f := by
        rcases List.mem_cons.1 he with rfl | h
        · rfl
        · exact absurd h hel
      subst hfe
      rw [entering_foldl_of_ne, entering_choose_self hr hlt]
      intro g hg hgr
      exact hel (hunique g (List.mem_cons_of_mem _ hg) hgr ▸ hg)

/-! ## Classes that lead back to the root -/

/-- The chosen edge of one class comes from another. -/
def ChosenFrom (edges : Array WeightedEdge) (classes : Classes) (incoming : Array (Option Nat))
    (a b : Nat) : Prop :=
  ∃ e, entering incoming a = some e ∧ classes.find (source edges e) = b

/-- Every class other than the root has an edge chosen into it from outside, and
following these edges backwards leads to the root. -/
structure Branching (n root : Nat) (edges : Array WeightedEdge) (classes : Classes)
    (incoming : Array (Option Nat)) : Prop where
  size_eq : incoming.size = n
  edge : ∀ r < n, classes.find r = r → r ≠ root → ∃ e, entering incoming r = some e ∧
    Candidate root edges e ∧ classes.find (target edges e) = r ∧
      classes.find (source edges e) ≠ r
  leads_to_root : ∀ r < n, classes.find r = r →
    ReflTransGen (ChosenFrom edges classes incoming) r root

/-- The edges chosen into the classes other than the root. -/
def Chosen (n root : Nat) (classes : Classes) (incoming : Array (Option Nat)) (e : Nat) : Prop :=
  ∃ r < n, classes.find r = r ∧ r ≠ root ∧ entering incoming r = some e

section ExpandOne

variable {before after : Classes} {c : Contraction} {reps : List Nat}
  {incoming : Array (Option Nat)}

/-- The contracted class is entered by an edge from outside the cycle. -/
theorem Branching.exists_entering_cycle (hb : Branching n root edges after incoming)
    (h : Contracts n root edges before after c reps) :
    ∃ e, entering incoming c.representative = some e ∧ Candidate root edges e ∧
      before.find (target edges e) ∈ reps ∧ before.find (source edges e) ∉ reps := by
  have hroot := h.reps_root _ h.representative_mem
  have hrep : after.find c.representative = c.representative := by
    rw [h.find_eq_representative_iff, hroot.2]
    exact h.representative_mem
  have hne : c.representative ≠ root := by
    intro heq
    exact h.cycle.root_not_mem (heq ▸ h.representative_mem)
  obtain ⟨e, he, hcand, htarget, hsource⟩ := hb.edge _ hroot.1 hrep hne
  exact ⟨e, he, hcand, h.find_eq_representative_iff.1 htarget,
    mt h.find_eq_representative_iff.2 hsource⟩

/-- What is chosen after a contraction is undone: the entering edge at its own
class, the edge of the cycle at every other class on it, and nothing new
elsewhere. -/
structure Undone (edges : Array WeightedEdge) (before : Classes) (reps cycle : List Nat)
    (e : Nat) (incoming undone : Array (Option Nat)) : Prop where
  size_eq : undone.size = incoming.size
  at_entry : entering undone (before.find (target edges e)) = some e
  on_cycle : ∀ f ∈ cycle, before.find (target edges f) ≠ before.find (target edges e) →
    entering undone (before.find (target edges f)) = some f
  elsewhere : ∀ r, r ∉ reps → entering undone r = entering incoming r

/-- Undoing a contraction chooses the edges of its cycle, save into the class that is entered. -/
theorem Contracts.undone (h : Contracts n root edges before after c reps)
    (hsize : incoming.size = n) {e : Nat}
    (he : entering incoming c.representative = some e)
    (hin : before.find (target edges e) ∈ reps) :
    Undone edges before reps c.edges e incoming (expandOne edges before incoming c) := by
  have hexpand : expandOne edges before incoming c =
      choose edges before (c.edges.foldl (choose edges before) incoming) e := by
    have hlist : incoming[c.representative]?.join.toList = [e] := by
      rw [show incoming[c.representative]?.join = some e from he]
      rfl
    rw [expandOne, hlist, List.foldl_append]
    rfl
  rw [hexpand]
  refine ⟨by simp, ?_, ?_, ?_⟩
  · refine entering_choose_self rfl ?_
    rw [size_foldl_choose, hsize]
    exact (h.reps_root _ hin).1
  · intro f hf hne
    rw [entering_choose_of_ne (Ne.symm hne)]
    refine entering_foldl_of_mem hf rfl ?_ fun g hg hgf => h.cycle.edge_unique g hg f hf hgf
    rw [hsize]
    exact (h.reps_root _ (h.cycle.target_mem f hf)).1
  · intro r hr
    have hentry : before.find (target edges e) ≠ r := by
      rintro rfl
      exact hr hin
    rw [entering_choose_of_ne hentry, entering_foldl_of_ne]
    intro f hf heq
    exact hr (heq ▸ h.cycle.target_mem f hf)

/-- Along the cycle every class on it leads to the class at which it is entered. -/
theorem Undone.leads_to_entry {undone : Array (Option Nat)} {e : Nat}
    (hu : Undone edges before reps c.edges e incoming undone)
    (h : Contracts n root edges before after c reps)
    (hin : before.find (target edges e) ∈ reps) {r : Nat} (hr : r ∈ reps) :
    ReflTransGen (ChosenFrom edges before undone) r (before.find (target edges e)) := by
  have hchain := h.cycle.connected r hr _ hin
  clear hr
  induction hchain using ReflTransGen.head_induction_on with
  | refl => exact ReflTransGen.refl
  | head hstep _ ih =>
    obtain ⟨f, hf, rfl, rfl⟩ := hstep
    by_cases hfe : before.find (target edges f) = before.find (target edges e)
    · rw [hfe]
    · exact ReflTransGen.head ⟨f, hu.on_cycle f hf hfe, rfl⟩ ih

/-- In an undone contraction every class of the cycle leads to the root, through the
entered one. -/
theorem Undone.leads_to_root {undone : Array (Option Nat)} {e : Nat}
    (hu : Undone edges before reps c.edges e incoming undone)
    (h : Contracts n root edges before after c reps) (hw : before.WellFormed n)
    (hrootiff : ∀ v, after.find v = root ↔ v = root)
    (he : entering incoming c.representative = some e)
    (hin : before.find (target edges e) ∈ reps) {x : Nat}
    (hchain : ReflTransGen (ChosenFrom edges after incoming) x root) :
    ∀ r, before.find r = r → after.find r = x →
      ReflTransGen (ChosenFrom edges before undone) r root := by
  -- a class before the contraction follows the class after it that it belongs to
  induction hchain using ReflTransGen.head_induction_on with
  | refl =>
    intro r _ hrx
    rw [(hrootiff r).1 hrx]
  | @head x y hstep _ ih =>
    obtain ⟨f, hf, hfy⟩ := hstep
    have hnext : ReflTransGen (ChosenFrom edges before undone)
        (before.find (source edges f)) root := by
      refine ih _ (hw.find_find _) ?_
      rw [h.find_congr (hw.find_find _)]
      exact hfy
    intro r hr hrx
    by_cases hmem : r ∈ reps
    · have hxrep : x = c.representative := by
        rw [← hrx, h.find_eq_representative_iff, hr]
        exact hmem
      have hfe : f = e := by
        rw [hxrep, he] at hf
        exact (Option.some.inj hf).symm
      subst hfe
      exact (hu.leads_to_entry h hin hmem).trans (ReflTransGen.head ⟨f, hu.at_entry, rfl⟩ hnext)
    · have hxr : x = r := by
        rw [← hrx, h.find_eq_iff hmem]
        exact hr
      subst hxr
      exact ReflTransGen.head ⟨f, (hu.elsewhere x hmem).trans hf, rfl⟩ hnext

/-- Undoing a contraction keeps a chosen edge for every class. -/
theorem Undone.edge {undone : Array (Option Nat)} {e : Nat}
    (hu : Undone edges before reps c.edges e incoming undone)
    (h : Contracts n root edges before after c reps)
    (hb : Branching n root edges after incoming) (hcand : Candidate root edges e)
    (hin : before.find (target edges e) ∈ reps) (hout : before.find (source edges e) ∉ reps)
    {r : Nat} (hr : r < n) (hfind : before.find r = r) (hne : r ≠ root) :
    ∃ f, entering undone r = some f ∧ Candidate root edges f ∧
      before.find (target edges f) = r ∧ before.find (source edges f) ≠ r := by
  by_cases hmem : r ∈ reps
  · obtain ⟨f, hf, rfl⟩ := h.cycle.exists_edge r hmem
    by_cases hfe : before.find (target edges f) = before.find (target edges e)
    · rw [hfe]
      exact ⟨e, hu.at_entry, hcand, rfl, fun heq => hout (heq ▸ hin)⟩
    · exact ⟨f, hu.on_cycle f hf hfe, h.cycle.candidate f hf, rfl, h.cycle.external f hf⟩
  · obtain ⟨f, hf, hfcand, htarget, hsource⟩ :=
      hb.edge r hr ((h.find_eq_iff hmem).2 hfind) hne
    exact ⟨f, (hu.elsewhere r hmem).trans hf, hfcand, (h.find_eq_iff hmem).1 htarget,
      mt (h.find_eq_iff hmem).2 hsource⟩

/-- Undoing a contraction leaves a branching of the classes before it. -/
theorem Branching.expandOne (hb : Branching n root edges after incoming)
    (h : Contracts n root edges before after c reps) (hw : before.WellFormed n)
    (hrootiff : ∀ v, after.find v = root ↔ v = root) :
    Branching n root edges before (expandOne edges before incoming c) := by
  obtain ⟨e, he, hcand, hin, hout⟩ := hb.exists_entering_cycle h
  have hu := h.undone hb.size_eq he hin
  refine ⟨hu.size_eq.trans hb.size_eq, ?_, ?_⟩
  · intro r hr hfind hne
    exact hu.edge h hb hcand hin hout hr hfind hne
  · intro r hr hfind
    refine hu.leads_to_root h hw hrootiff he hin
      (hb.leads_to_root _ (h.joined.wellFormed.find_lt hr) ?_) r hfind rfl
    exact h.joined.wellFormed.find_find r

/-- The classes are rolled back to those before the contraction. -/
theorem Contracts.rollback_eq (h : Contracts n root edges before after c reps) :
    after.rollback c.time = before := by
  rw [h.time_eq]
  exact h.joined.rollback_eq

end ExpandOne

/-! ## Undoing all contractions -/

/-- What the chosen edges are worth after all contractions were undone.  The
chosen edges of the contracted graph stay chosen, and every further one lies
inside a class and asks exactly its weight. -/
structure Expands (n root : Nat) (edges : Array WeightedEdge) (classes : Classes)
    (charges : List Charge) (incoming expanded : Array (Option Nat)) : Prop where
  branching : Branching n root edges (Classes.discrete n) expanded
  keeps : ∀ e, Chosen n root classes incoming e →
    Chosen n root (Classes.discrete n) expanded e
  further : ∀ e, Chosen n root (Classes.discrete n) expanded e →
    Chosen n root classes incoming e ∨
      classes.find (source edges e) = classes.find (target edges e) ∧
        reduced edges charges e = 0
  once : ∀ c ∈ charges, ∃! e, Chosen n root (Classes.discrete n) expanded e ∧ c.Entered edges e

/-- A charge for a whole class is entered exactly by the edges from outside. -/
theorem entered_members_iff {classes : Classes} (hw : classes.WellFormed n) {r e : Nat}
    {amount : Int} (hr : r < n) :
    (Charge.mk (classes.members r) amount).Entered edges e ↔
      classes.find (target edges e) = r ∧ classes.find (source edges e) ≠ r := by
  have hmem : ∀ v, v ∈ classes.members r ↔ classes.find v = r := by
    intro v
    rw [Classes.mem_members hw.toForest, and_iff_right_iff_imp]
    intro hv
    by_contra hge
    rw [Classes.find_of_root (hw.parentOf_of_le (Nat.le_of_not_lt hge))] at hv
    omega
  rw [Charge.Entered, hmem, hmem]

/-- A charge to a class is paid by the one chosen edge that enters it. -/
theorem Expands.charge {classes : Classes} {charges : List Charge}
    {incoming expanded : Array (Option Nat)} {r : Nat}
    (h : Expands n root edges classes charges incoming expanded) (hw : classes.WellFormed n)
    (hb : Branching n root edges classes incoming) (hr : r < n) (hfind : classes.find r = r)
    (hne : r ≠ root) (amount : Int) :
    Expands n root edges classes (⟨classes.members r, amount⟩ :: charges) incoming expanded := by
  have hentered : ∀ e, (Charge.mk (classes.members r) amount).Entered edges e ↔
      classes.find (target edges e) = r ∧ classes.find (source edges e) ≠ r :=
    fun e => entered_members_iff hw hr
  refine ⟨h.branching, h.keeps, ?_, ?_⟩
  · intro e he
    rcases h.further e he with hchosen | ⟨hinside, hzero⟩
    · exact Or.inl hchosen
    · refine Or.inr ⟨hinside, ?_⟩
      rw [reduced_cons_of_not_entered, hzero]
      rw [hentered]
      rintro ⟨htarget, hsource⟩
      exact hsource (hinside.trans htarget)
  · intro c hc
    rcases List.mem_cons.1 hc with rfl | hc
    · obtain ⟨e, he, -, htarget, hsource⟩ := hb.edge r hr hfind hne
      refine ⟨e, ⟨h.keeps e ⟨r, hr, hfind, hne, he⟩, (hentered e).2 ⟨htarget, hsource⟩⟩, ?_⟩
      rintro f ⟨hf, hfin⟩
      rw [hentered] at hfin
      rcases h.further f hf with ⟨r', hr', hfind', hne', hf'⟩ | ⟨hinside, -⟩
      · obtain ⟨g, hg, -, htarget', -⟩ := hb.edge r' hr' hfind' hne'
        have hgf : g = f := Option.some.inj (hg.symm.trans hf')
        subst hgf
        have hrr : r' = r := htarget'.symm.trans hfin.1
        subst hrr
        exact Option.some.inj (hg.symm.trans he)
      · exact absurd (hinside.trans hfin.1) hfin.2
    · exact h.once c hc

/-- A contraction along edges that cost nothing is undone at no cost. -/
theorem Expands.contract {before after : Classes} {c : Contraction} {reps : List Nat}
    {charges : List Charge} {incoming undone expanded : Array (Option Nat)} {e : Nat}
    (h : Contracts n root edges before after c reps)
    (tight : ∀ f ∈ c.edges, reduced edges charges f = 0)
    (he : entering incoming c.representative = some e)
    (hin : before.find (target edges e) ∈ reps)
    (hu : Undone edges before reps c.edges e incoming undone)
    (hx : Expands n root edges before charges undone expanded) :
    Expands n root edges after charges incoming expanded := by
  refine ⟨hx.branching, ?_, ?_, hx.once⟩
  · rintro f ⟨r, hr, hfind, hne, hf⟩
    refine hx.keeps f ?_
    by_cases hmem : r ∈ reps
    · have hrep : r = c.representative := by
        rw [← hfind, h.find_eq_representative_iff, (h.reps_root r hmem).2]
        exact hmem
      have hfe : f = e := by
        rw [hrep, he] at hf
        exact (Option.some.inj hf).symm
      subst hfe
      have hentry := h.reps_root _ hin
      exact ⟨_, hentry.1, hentry.2, fun heq => h.cycle.root_not_mem (heq ▸ hin), hu.at_entry⟩
    · exact ⟨r, hr, (h.find_eq_iff hmem).1 hfind, hne, (hu.elsewhere r hmem).trans hf⟩
  · intro f hf
    rcases hx.further f hf with ⟨r, hr, hfind, hne, hf'⟩ | ⟨hinside, hzero⟩
    · by_cases hmem : r ∈ reps
      · obtain ⟨g, hg, hgr⟩ := h.cycle.exists_edge r hmem
        by_cases hge : before.find (target edges g) = before.find (target edges e)
        · have hfe : f = e := by
            rw [← hgr, hge, hu.at_entry] at hf'
            exact (Option.some.inj hf').symm
          subst hfe
          have hrep := h.reps_root _ h.representative_mem
          refine Or.inl ⟨c.representative, hrep.1, ?_,
            fun heq => h.cycle.root_not_mem (heq ▸ h.representative_mem), he⟩
          rw [h.find_eq_representative_iff, hrep.2]
          exact h.representative_mem
        · have hfg : f = g := by
            rw [← hgr, hu.on_cycle g hg hge] at hf'
            exact (Option.some.inj hf').symm
          subst hfg
          refine Or.inr ⟨?_, tight f hg⟩
          rw [h.find_eq_representative_iff.2 (h.cycle.source_mem f hg),
            h.find_eq_representative_iff.2 (h.cycle.target_mem f hg)]
      · exact Or.inl ⟨r, hr, (h.find_eq_iff hmem).2 hfind, hne,
          (hu.elsewhere r hmem).symm.trans hf'⟩
    · exact Or.inr ⟨h.find_congr hinside, hzero⟩

/-- Undoing all contractions turns a branching of the classes into one of the
single vertices. -/
theorem Nested.expand {classes : Classes} {contractions : List Contraction}
    {charges : List Charge} {incoming : Array (Option Nat)}
    (h : Nested n root edges classes contractions charges)
    (hb : Branching n root edges classes incoming) :
    Expands n root edges classes charges incoming
      (Edmonds.expand edges contractions classes incoming) := by
  induction h generalizing incoming with
  | discrete => exact ⟨hb, fun e he => he, fun e he => Or.inl he, by simp⟩
  | charge amount earlier hr hfind hroot ih =>
    exact (ih hb).charge earlier.wellFormed hb hr hfind hroot amount
  | contract earlier contracts tight ih =>
    rename_i before after contractions charges c reps
    obtain ⟨e, he, -, hin, -⟩ := hb.exists_entering_cycle contracts
    have hu := contracts.undone hb.size_eq he hin
    have hiff : ∀ v, after.find v = root ↔ v = root := fun v =>
      (Nested.contract earlier contracts tight).find_eq_root_iff
    have hexpand : Edmonds.expand edges (c :: contractions) after incoming =
        Edmonds.expand edges contractions before (expandOne edges before incoming c) := by
      rw [Edmonds.expand]
      simp only [contracts.rollback_eq]
    rw [hexpand]
    exact Expands.contract contracts tight he hin hu
      (ih (hb.expandOne contracts earlier.wellFormed hiff))

end Edmonds

end FuzzCampaign

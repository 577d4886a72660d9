import FuzzCampaign.Proofs.Arborescence.Pricing

/-!
# Walks of the arborescence algorithm

A walk leaves classes one after another until it meets a class of an earlier
walk or the root.  Every class that was left takes an edge out of a heap, and a
contraction only merges heaps, so that a walk with more fuel than there are
edges in the heaps never runs out of it.  A walk that stops without an answer
stands at a class that the root does not reach.

Classes of earlier walks keep the edges chosen into them, and following these
backwards leads to the root.  A walk that ends joins its own steps to them.

Main definitions:

- `pending`: how many edges the heaps of all classes hold.
- `Anchored`: the classes of earlier walks lead to the root.
- `Walking`: the invariant along a walk.
- `Rested`: the invariant between two walks.

Main results:

- `Walking.leave` and `Walking.contract`: what one step of a walk preserves.
- `Walking.walk`: what a whole walk preserves, or why it has no answer.
- `Rested.walkAll`: what all walks together preserve.
-/

namespace FuzzCampaign

namespace Edmonds

open Relation

variable {n root : Nat} {edges : Array WeightedEdge}

/-! ## The edges that are left -/

/-- How many edges the heaps of all classes hold. -/
def pending (n : Nat) (s : State) : Nat :=
  ∑ r ∈ Finset.range n with s.classes.find r = r, (queue s.queues r).size

/-- When one heap gets smaller, fewer edges are left. -/
theorem pending_lt {s s' : State} {u : Nat} (hlt : u < n) (hfind : s.classes.find u = u)
    (hclasses : s'.classes = s.classes)
    (hsize : (queue s'.queues u).size < (queue s.queues u).size)
    (hqueue : ∀ v, v ≠ u → queue s'.queues v = queue s.queues v) :
    pending n s' < pending n s := by
  have hu : u ∈ (Finset.range n).filter fun r => s.classes.find r = r :=
    Finset.mem_filter.2 ⟨Finset.mem_range.2 hlt, hfind⟩
  rw [pending, pending, hclasses]
  refine Finset.sum_lt_sum ?_ ⟨u, hu, hsize⟩
  intro r _
  by_cases hru : r = u
  · subst hru
    exact Nat.le_of_lt hsize
  · rw [hqueue r hru]

/-- A smaller queue leaves less to be done. -/
theorem pending_set {s : State} {u : Nat} {heap : EdgeHeap} (hlt : u < n)
    (hfind : s.classes.find u = u) (hu : u < s.queues.size)
    (hsize : heap.size < (queue s.queues u).size) :
    pending n { s with queues := s.queues.setIfInBounds u heap } < pending n s := by
  refine pending_lt (u := u) hlt hfind rfl ?_ fun v hv => ?_
  · rwa [queue_set hu, if_pos rfl]
  · rw [queue_set hu, if_neg hv]

/-- Leaving a class leaves less to be done. -/
theorem pending_leave {s s' : State} {start u e : Nat} {k : Int} (hlt : u < n)
    (hfind : s.classes.find u = u) (h : Left edges s s' start u e k) :
    pending n s' < pending n s :=
  pending_lt hlt hfind h.classes_eq h.departure.size_lt h.queue_ne

/-- The heaps of distinct steps of a walk hold as many edges as their merge. -/
theorem sum_size_steps (queues : Array EdgeHeap) {steps : List Step} {heap : EdgeHeap}
    (hnodup : (steps.map (·.vertex)).Nodup)
    (hperm : heap.items.Perm (steps.flatMap fun step => (queue queues step.vertex).items)) :
    ∑ r ∈ (steps.map (·.vertex)).toFinset, (queue queues r).size = heap.size := by
  rw [List.sum_toFinset _ hnodup, ← EdgeHeap.length_items, hperm.length_eq, List.length_flatMap,
    List.map_map]
  simp only [EdgeHeap.length_items, Function.comp_def]

/-- A contraction leaves as much to be done as before, since heaps are merged and none is lost. -/
theorem pending_contract {s s' : State} {rep : Nat} {steps : List Step} {reps : List Nat}
    (h : Closed n root edges s s' rep steps reps) (hnodup : (s.path.map (·.vertex)).Nodup) :
    pending n s' = pending n s := by
  obtain ⟨c, rfl, -, -, hcontracts⟩ := h.contracts
  have hreps : ∀ r, r ∈ (steps.map (·.vertex)).toFinset ↔ r ∈ reps := by
    intro r
    rw [h.mem_reps]
    simp
  have hsteps : (steps.map (·.vertex)).Nodup := by
    rw [h.path_eq, List.map_append] at hnodup
    exact (List.nodup_append.1 hnodup).1
  have hold : (Finset.range n).filter (fun r => s.classes.find r = r) =
      (steps.map (·.vertex)).toFinset ∪
        (Finset.range n).filter fun r => s.classes.find r = r ∧ r ∉ reps := by
    ext r
    rw [Finset.mem_union, hreps, Finset.mem_filter, Finset.mem_filter, Finset.mem_range]
    by_cases hr : r ∈ reps
    · simp [hr, hcontracts.reps_root r hr]
    · simp [hr]
  have hnew : (Finset.range n).filter (fun r => s'.classes.find r = r) =
      {c.representative} ∪
        (Finset.range n).filter fun r => s.classes.find r = r ∧ r ∉ reps := by
    ext r
    rw [Finset.mem_union, Finset.mem_singleton, Finset.mem_filter, Finset.mem_filter,
      Finset.mem_range]
    have hrep := hcontracts.reps_root _ hcontracts.representative_mem
    rw [hcontracts.find_eq_self_iff]
    constructor
    · rintro ⟨hlt, hrep | ⟨hmem, hfind⟩⟩
      · exact Or.inl hrep
      · exact Or.inr ⟨hlt, hfind, hmem⟩
    · rintro (rfl | ⟨hlt, hfind, hmem⟩)
      · exact ⟨hrep.1, Or.inl rfl⟩
      · exact ⟨hlt, Or.inr ⟨hmem, hfind⟩⟩
  have hdisjoint : Disjoint (steps.map (·.vertex)).toFinset
      ((Finset.range n).filter fun r => s.classes.find r = r ∧ r ∉ reps) := by
    rw [Finset.disjoint_left]
    intro r hr hother
    exact (Finset.mem_filter.1 hother).2.2 ((hreps r).1 hr)
  have hdisjoint' : Disjoint {c.representative}
      ((Finset.range n).filter fun r => s.classes.find r = r ∧ r ∉ reps) := by
    rw [Finset.disjoint_singleton_left]
    intro hother
    exact (Finset.mem_filter.1 hother).2.2 hcontracts.representative_mem
  rw [pending, pending, hnew, hold, Finset.sum_union hdisjoint', Finset.sum_union hdisjoint,
    Finset.sum_singleton, sum_size_steps s.queues hsteps h.items]
  congr 1
  refine Finset.sum_congr rfl ?_
  intro r hr
  rw [h.queue_ne]
  rintro rfl
  exact (Finset.mem_filter.1 hr).2.2 hcontracts.representative_mem

/-! ## Classes of earlier walks -/

/-- A class was visited, and not by the walk with the given mark. -/
def State.Settled (s : State) (mark : Option Nat) (v : Nat) : Prop :=
  s.visited v ≠ none ∧ s.visited v ≠ mark

/-- The edge chosen into one settled class comes from another. -/
def SettledFrom (edges : Array WeightedEdge) (s : State) (mark : Option Nat)
    (incoming : Array (Option Nat)) (a b : Nat) : Prop :=
  s.Settled mark a ∧ s.Settled mark b ∧ ChosenFrom edges s.classes incoming a b

/-- Settled classes have the edges chosen into them by which they were left, and
lead to the root. -/
structure Anchored (n root : Nat) (edges : Array WeightedEdge) (s : State) (mark : Option Nat)
    (picks : Nat → Option Nat) (incoming : Array (Option Nat)) : Prop where
  size_eq : incoming.size = n
  entering_eq : ∀ r < n, s.classes.find r = r → r ≠ root → s.Settled mark r →
    entering incoming r = picks r
  leads_to_root : ∀ r < n, s.classes.find r = r → s.Settled mark r →
    ReflTransGen (SettledFrom edges s mark incoming) r root

namespace Anchored
variable {s s' : State} {start : Nat} {picks : Nat → Option Nat} {incoming : Array (Option Nat)}

/-- Before its first step a walk has visited nothing. -/
theorem mark (h : Anchored n root edges s none picks incoming)
    (hfresh : ∀ v, s.visited v ≠ some start) :
    Anchored n root edges s (some start) picks incoming := by
  have hsettled : ∀ v, s.Settled (some start) v ↔ s.Settled none v := by
    intro v
    simp [State.Settled, hfresh v]
  refine ⟨h.size_eq, ?_, ?_⟩
  · intro r hr hfind hne hset
    exact h.entering_eq r hr hfind hne ((hsettled r).1 hset)
  · intro r hr hfind hset
    refine (h.leads_to_root r hr hfind ((hsettled r).1 hset)).lift id ?_
    rintro a b ⟨ha, hb, hab⟩
    exact ⟨(hsettled a).2 ha, (hsettled b).2 hb, hab⟩

/-- A walk that leaves a class does not touch settled classes. -/
theorem leave (h : Anchored n root edges s (some start) picks incoming) {u e : Nat} {k : Int}
    (hu : s.visited u = none) (hleft : Left edges s s' start u e k) :
    Anchored n root edges s' (some start) (Function.update picks u (some e)) incoming := by
  have hsettled : ∀ v, s'.Settled (some start) v ↔ s.Settled (some start) v := by
    intro v
    by_cases hv : v = u
    · subst hv
      simp [State.Settled, hleft.visited_eq, hu]
    · simp [State.Settled, hleft.visited_eq, hv]
  refine ⟨h.size_eq, ?_, ?_⟩
  · rw [hleft.classes_eq]
    intro r hr hfind hne hset
    have hru : r ≠ u := by
      rintro rfl
      exact ((hsettled r).1 hset).1 hu
    rw [Function.update_of_ne hru]
    exact h.entering_eq r hr hfind hne ((hsettled r).1 hset)
  · rw [hleft.classes_eq]
    intro r hr hfind hset
    refine (h.leads_to_root r hr hfind ((hsettled r).1 hset)).lift id ?_
    rintro a b ⟨ha, hb, e', he', hb'⟩
    exact ⟨(hsettled a).2 ha, (hsettled b).2 hb, e', he', by rw [hleft.classes_eq]; exact hb'⟩

/-- A contraction does not touch settled classes. -/
theorem contract (h : Anchored n root edges s (some start) picks incoming) {rep : Nat}
    {steps : List Step} {reps : List Nat} (hc : Closed n root edges s s' rep steps reps)
    (hvisited : ∀ r ∈ reps, s.visited r = some start) :
    Anchored n root edges s' (some start) (Function.update picks rep none) incoming := by
  obtain ⟨c, rfl, -, -, hcontracts⟩ := hc.contracts
  have hrep := hvisited _ hcontracts.representative_mem
  have hsettled : ∀ v, s'.Settled (some start) v ↔ s.Settled (some start) v := by
    intro v
    by_cases hv : v = c.representative
    · subst hv
      simp [State.Settled, hc.visited_eq, hrep]
    · simp [State.Settled, hc.visited_eq, hv]
  have hout : ∀ v, s.Settled (some start) v → v ∉ reps := by
    intro v hv hmem
    exact hv.2 (hvisited v hmem)
  have hold : ∀ r, s'.classes.find r = r → s.Settled (some start) r → s.classes.find r = r := by
    intro r hfind hset
    exact (hcontracts.find_eq_iff (hout r hset)).1 hfind
  refine ⟨h.size_eq, ?_, ?_⟩
  · intro r hr hfind hne hset
    rw [hsettled] at hset
    rw [Function.update_of_ne (hcontracts.ne_representative (hout r hset))]
    exact h.entering_eq r hr (hold r hfind hset) hne hset
  · intro r hr hfind hset
    rw [hsettled] at hset
    refine (h.leads_to_root r hr (hold r hfind hset) hset).lift id ?_
    rintro a b ⟨ha, hb, e, he, hfrom⟩
    exact ⟨(hsettled a).2 ha, (hsettled b).2 hb, e, he,
      (hcontracts.find_eq_iff (hout b hb)).2 hfrom⟩

end Anchored

/-- The path of a walk does not matter between the walks. -/
theorem Priced.setPath {s : State} {charges : List Charge} {picks : Nat → Option Nat}
    (h : Priced n root edges s charges picks) (path : List Step) :
    Priced n root edges { s with path := path } charges picks :=
  ⟨h.nested, h.sound, h.size_queues, h.size_seen, h.visited_root, h.ordered, h.item,
    h.complete, h.nonneg, h.picked, h.visited_iff⟩

/-- Where a walk stands does not matter for the anchor. -/
theorem Anchored.setPath {s : State} {mark : Option Nat} {picks : Nat → Option Nat}
    {incoming : Array (Option Nat)} (h : Anchored n root edges s mark picks incoming)
    (path : List Step) : Anchored n root edges { s with path := path } mark picks incoming :=
  ⟨h.size_eq, h.entering_eq, h.leads_to_root⟩

/-! ## One step of a walk -/

/-- The walk from `start` has arrived at the class `u`. -/
structure Walking (n root : Nat) (edges : Array WeightedEdge) (start u : Nat) (s : State)
    (charges : List Charge) (picks : Nat → Option Nat) (incoming : Array (Option Nat)) : Prop where
  priced : Priced n root edges s charges picks
  anchored : Anchored n root edges s (some start) picks incoming
  start_ne : start ≠ root
  lt : u < n
  find_eq : s.classes.find u = u
  nodup : (s.path.map (·.vertex)).Nodup
  linked : Linked edges s.classes u s.path
  steps : ∀ step ∈ s.path, PathStep n root edges s start picks step
  on_path : ∀ r < n, s.classes.find r = r → s.visited r = some start →
    ∃ step ∈ s.path, step.vertex = r
  inner_visited : ∀ v < n, s.classes.find v ≠ v → s.visited v ≠ none
  seen_le : ∀ v t, s.visited v = some t → t ≤ start ∨ t = root
  passed : ∀ v ≤ start, v < n → s.visited v = none → v = u

namespace Walking
variable {s s' : State} {start u : Nat} {charges : List Charge} {picks : Nat → Option Nat}
  {incoming : Array (Option Nat)}

/-- A walk that leaves a class arrives at the class that its edge comes from. -/
theorem leave (h : Walking n root edges start u s charges picks incoming)
    (hr : InRange n edges) (hu : s.visited u = none) {e : Nat} {k : Int}
    (hleft : Left edges s s' start u e k) :
    Walking n root edges start (s.classes.find (source edges e)) s'
      (⟨s.classes.members u, k⟩ :: charges) (Function.update picks u (some e)) incoming := by
  obtain ⟨hvalid, -⟩ := h.priced.step_valid h.lt h.find_eq hleft
  have hw := h.priced.wellFormed
  have hne : ∀ step ∈ s.path, step.vertex ≠ u := by
    rintro step hstep rfl
    rw [(h.steps step hstep).visited] at hu
    exact absurd hu (by simp)
  refine ⟨h.priced.leave h.lt h.find_eq hu hleft, h.anchored.leave hu hleft, h.start_ne,
    hw.find_lt (hr.source_lt hvalid.candidate.lt_size), ?_, ?_, ?_, ?_, ?_, ?_, ?_, ?_⟩
  · rw [hleft.classes_eq]
    exact hw.find_find _
  · rw [hleft.path_eq, List.map_cons, List.nodup_cons]
    refine ⟨?_, h.nodup⟩
    intro hmem
    obtain ⟨step, hstep, hvertex⟩ := List.mem_map.1 hmem
    exact hne step hstep hvertex
  · rw [hleft.path_eq, hleft.classes_eq]
    exact ⟨rfl, h.linked⟩
  · rw [hleft.path_eq]
    intro step hstep
    rcases List.mem_cons.1 hstep with rfl | hstep
    · refine ⟨?_, ?_, ?_⟩
      · rw [hleft.classes_eq]
        exact hvalid
      · rw [hleft.visited_eq, if_pos rfl]
      · rw [Function.update_self]
    · have hold := h.steps step hstep
      refine ⟨?_, ?_, ?_⟩
      · rw [hleft.classes_eq]
        exact hold.valid
      · rw [hleft.visited_eq, if_neg (hne step hstep)]
        exact hold.visited
      · rw [Function.update_of_ne (hne step hstep)]
        exact hold.picks_eq
  · rw [hleft.path_eq, hleft.classes_eq]
    intro r hr hfind hseen
    by_cases hru : r = u
    · exact ⟨⟨u, e⟩, List.mem_cons_self, hru.symm⟩
    · rw [hleft.visited_eq, if_neg hru] at hseen
      obtain ⟨step, hstep, hvertex⟩ := h.on_path r hr hfind hseen
      exact ⟨step, List.mem_cons_of_mem _ hstep, hvertex⟩
  · rw [hleft.classes_eq]
    intro v hv hfind
    rw [hleft.visited_eq]
    split
    · simp
    · exact h.inner_visited v hv hfind
  · intro v t ht
    rw [hleft.visited_eq] at ht
    split at ht
    · rw [Option.some.injEq] at ht
      exact Or.inl (Nat.le_of_eq ht.symm)
    · exact h.seen_le v t ht
  · intro v hv hlt hnone
    rw [hleft.visited_eq] at hnone
    split at hnone
    · exact absurd hnone (by simp)
    · rename_i hvu
      exact absurd (h.passed v hv hlt hnone) hvu

/-- A walk may drop an edge from inside the class where it stands. -/
theorem drop (h : Walking n root edges start u s charges picks incoming) {heap : EdgeHeap}
    (ho : heap.Ordered) {gone : Nat × Int}
    (hperm : (queue s.queues u).items.Perm (gone :: heap.items))
    (hgone : s.classes.find (source edges gone.1) = u) :
    Walking n root edges start u { s with queues := s.queues.setIfInBounds u heap } charges picks
      incoming :=
  ⟨h.priced.drop h.lt ho hperm hgone,
    ⟨h.anchored.size_eq, h.anchored.entering_eq, h.anchored.leads_to_root⟩, h.start_ne, h.lt,
    h.find_eq, h.nodup, h.linked,
    fun step hstep => ⟨(h.steps step hstep).valid, (h.steps step hstep).visited,
      (h.steps step hstep).picks_eq⟩, h.on_path, h.inner_visited, h.seen_le, h.passed⟩

/-- The steps behind a cycle left other classes. -/
theorem mem_rest (h : Walking n root edges start u s charges picks incoming) {rep : Nat}
    {steps : List Step} {reps : List Nat} (hc : Closed n root edges s s' rep steps reps)
    {step : Step} (hstep : step ∈ s'.path) : step ∈ s.path ∧ step.vertex ∉ reps := by
  refine ⟨?_, ?_⟩
  · rw [hc.path_eq]
    exact List.mem_append_right _ hstep
  · intro hmem
    obtain ⟨other, hother, heq⟩ := (hc.mem_reps _).1 hmem
    have hnodup := h.nodup
    rw [hc.path_eq, List.map_append, List.nodup_append] at hnodup
    exact hnodup.2.2 _ (List.mem_map_of_mem hother) _ (List.mem_map_of_mem hstep) heq

/-- The steps behind a cycle lead to the class that it was contracted to. -/
theorem linked_rest (h : Walking n root edges start u s charges picks incoming)
    {c : Contraction} {steps : List Step} {reps : List Nat}
    (hc : Closed n root edges s s' c.representative steps reps)
    (hcontracts : Contracts n root edges s.classes s'.classes c reps) :
    Linked edges s'.classes c.representative s'.path := by
  have hlinked := h.linked
  rw [hc.path_eq] at hlinked
  obtain ⟨first, hfirst, -⟩ := (hc.mem_reps _).1 hcontracts.representative_mem
  obtain ⟨last, hlast, hlinked⟩ := hlinked.of_append_ne_nil (List.ne_nil_of_mem hfirst)
  have hmem : last.vertex ∈ reps := (hc.mem_reps _).2 ⟨last, hlast, rfl⟩
  have hfind : s'.classes.find last.vertex = c.representative := by
    rw [hcontracts.find_eq_representative_iff, (hcontracts.reps_root _ hmem).2]
    exact hmem
  rw [← hfind]
  refine hlinked.congr (fun _ _ => hcontracts.find_congr) (hcontracts.reps_root _ hmem).2 ?_
  intro step hstep
  obtain ⟨hin, hout⟩ := h.mem_rest hc hstep
  have hold := (h.steps step hin).valid.find_vertex
  exact ⟨hold, hcontracts.find_eq_self_iff.2 (Or.inr ⟨hout, hold⟩)⟩

/-- A walk that has met itself contracts the cycle and arrives at the new
class. -/
theorem contract (h : Walking n root edges start u s charges picks incoming)
    (hmet : s.visited u = some start) {rep : Nat} {steps : List Step} {reps : List Nat}
    (hc : Closed n root edges s s' rep steps reps) :
    Walking n root edges start rep s' charges (Function.update picks rep none) incoming ∧
      s'.visited rep = none := by
  obtain ⟨c, rfl, -, -, hcontracts⟩ := id hc.contracts
  have hreps : ∀ r ∈ reps, s.visited r = some start := by
    intro r hr
    obtain ⟨step, hstep, rfl⟩ := (hc.mem_reps r).1 hr
    refine (h.steps step ?_).visited
    rw [hc.path_eq]
    exact List.mem_append_left _ hstep
  have hrep := hcontracts.reps_root _ hcontracts.representative_mem
  refine ⟨⟨h.priced.contract hc h.steps, h.anchored.contract hc hreps, h.start_ne, hrep.1,
    hcontracts.find_eq_self_iff.2 (Or.inl rfl), ?_, h.linked_rest hc hcontracts, ?_, ?_, ?_, ?_,
    ?_⟩, ?_⟩
  · have hnodup := h.nodup
    rw [hc.path_eq, List.map_append] at hnodup
    exact (List.nodup_append.1 hnodup).2.1
  · intro step hstep
    obtain ⟨hmem, hout⟩ := h.mem_rest hc hstep
    have hold := h.steps step hmem
    have hne := hcontracts.ne_representative hout
    refine ⟨?_, ?_, ?_⟩
    · exact hold.valid.contract hcontracts hout
    · rw [hc.visited_eq, if_neg hne]
      exact hold.visited
    · rw [Function.update_of_ne hne]
      exact hold.picks_eq
  · intro r hr hfind hseen
    have hrr : r ≠ c.representative := by
      rintro rfl
      rw [hc.visited_eq, if_pos rfl] at hseen
      exact absurd hseen (by simp)
    rw [hc.visited_eq, if_neg hrr] at hseen
    obtain ⟨hout, hold⟩ := (hcontracts.find_eq_self_iff.1 hfind).resolve_left hrr
    obtain ⟨step, hstep, rfl⟩ := h.on_path r hr hold hseen
    rw [hc.path_eq, List.mem_append] at hstep
    rcases hstep with hstep | hstep
    · exact absurd ((hc.mem_reps _).2 ⟨step, hstep, rfl⟩) hout
    · exact ⟨step, hstep, rfl⟩
  · intro v hv hfind
    have hvr : v ≠ c.representative := by
      rintro rfl
      exact hfind (hcontracts.find_eq_self_iff.2 (Or.inl rfl))
    rw [hc.visited_eq, if_neg hvr]
    by_cases hmem : v ∈ reps
    · rw [hreps v hmem]
      simp
    · refine h.inner_visited v hv fun hold => hfind ?_
      exact hcontracts.find_eq_self_iff.2 (Or.inr ⟨hmem, hold⟩)
  · intro v t ht
    rw [hc.visited_eq] at ht
    split at ht
    · exact absurd ht (by simp)
    · exact h.seen_le v t ht
  · intro v hv hlt hnone
    by_cases hvr : v = c.representative
    · exact hvr
    · rw [hc.visited_eq, if_neg hvr] at hnone
      have hvu := h.passed v hv hlt hnone
      rw [hvu, hmet] at hnone
      exact absurd hnone (by simp)
  · rw [hc.visited_eq, if_pos rfl]

end Walking

/-! ## Whole walks -/

section Walk

variable {s : State} {start u fuel : Nat}

/-- A walk ends at a class that was seen before. -/
theorem walk_of_visited (h : s.visited u ≠ none) :
    walk edges start (fuel + 1) u s = some s := by
  rw [walk]
  exact if_pos (Option.isSome_iff_ne_none.2 h)

/-- A walk fails at a class into which no edge leads. -/
theorem walk_of_nil (h : s.visited u = none)
    (hd : dropInternal edges s.classes u (queue s.queues u) = .nil) :
    walk edges start (fuel + 1) u s = none := by
  have hseen : ¬ s.seen[u]?.join.isSome = true := by
    rw [show s.seen[u]?.join = none from h]
    simp
  rw [walk, if_neg hseen, hd]

/-- A walk follows the first edge from outside its class. -/
theorem walk_of_node (h : s.visited u = none) {e : Nat} {k d : Int} {l r : EdgeHeap} {rank : Nat}
    (hd : dropInternal edges s.classes u (queue s.queues u) = .node e k d l r rank) :
    walk edges start (fuel + 1) u s =
      let next := s.classes.find (source edges e)
      let left := s.leave start u e k (.node e k d l r rank)
      if left.visited next = some start then
        walk edges start fuel (left.contractCycle next).1 (left.contractCycle next).2
      else walk edges start fuel next left := by
  have hseen : ¬ s.seen[u]?.join.isSome = true := by
    rw [show s.seen[u]?.join = none from h]
    simp
  rw [walk, if_neg hseen, hd]
  rfl

/-- Edges that a walk drops anyway may be dropped before. -/
theorem walk_drop (h : s.visited u = none) {heap : EdgeHeap} (hu : u < s.queues.size)
    (hd : dropInternal edges s.classes u (queue s.queues u) = dropInternal edges s.classes u heap) :
    walk edges start (fuel + 1) u { s with queues := s.queues.setIfInBounds u heap } =
      walk edges start (fuel + 1) u s := by
  generalize hs : ({ s with queues := s.queues.setIfInBounds u heap } : State) = s'
  have h' : s'.visited u = none := by rw [← hs]; exact h
  have hd' : dropInternal edges s'.classes u (queue s'.queues u) =
      dropInternal edges s.classes u (queue s.queues u) := by
    rw [hd, ← hs, queue_set hu, if_pos rfl]
  cases hdrop : dropInternal edges s.classes u (queue s.queues u) with
  | nil => rw [walk_of_nil h hdrop, walk_of_nil h' (hd'.trans hdrop)]
  | node e k d l r rank =>
    have hleave : s'.leave start u e k (.node e k d l r rank) =
        s.leave start u e k (.node e k d l r rank) := by
      simp [← hs, State.leave]
    have hfind : s'.classes.find (source edges e) = s.classes.find (source edges e) := by rw [← hs]
    rw [walk_of_node h hdrop, walk_of_node h' (hd'.trans hdrop)]
    simp only [hleave, hfind]

end Walk

namespace Walking
variable {s s' : State} {start u : Nat} {charges : List Charge} {picks : Nat → Option Nat}
  {incoming : Array (Option Nat)}

/-- The steps of a walk that has met itself contain a cycle. -/
theorem closed (h : Walking n root edges start u s charges picks incoming)
    (hmet : s.visited u = some start) :
    ∃ steps reps, Closed n root edges s (s.contractCycle u).2 (s.contractCycle u).1 steps reps := by
  refine closed_contractCycle h.priced.wellFormed h.priced.size_queues h.priced.size_seen
    h.priced.ordered h.linked h.steps h.nodup ?_ (h.on_path u h.lt h.find_eq hmet)
  intro step hstep heq
  have hseen := (h.steps step hstep).visited
  rw [heq, h.priced.visited_root, Option.some.injEq] at hseen
  exact h.start_ne hseen.symm

/-- A walk with enough fuel ends at a settled class, or at a class that cannot be
reached. -/
theorem walk (fuel : Nat) (hr : InRange n edges)
    (h : Walking n root edges start u s charges picks incoming)
    (hmet : s.visited u ≠ some start) (hfuel : pending n s < fuel) :
    (Edmonds.walk edges start fuel u s = none → ∃ v < n, ¬ Reaches edges root v) ∧
      ∀ s', Edmonds.walk edges start fuel u s = some s' → pending n s' ≤ pending n s ∧
        ∃ u' charges' picks', Walking n root edges start u' s' charges' picks' incoming ∧
          s'.Settled (some start) u' := by
  induction fuel generalizing u s charges picks with
  | zero => exact absurd hfuel (Nat.not_lt_zero _)
  | succ fuel ih =>
    by_cases hseen : s.visited u = none
    · cases hd : dropInternal edges s.classes u (queue s.queues u) with
      | nil =>
        rw [walk_of_nil hseen hd]
        exact ⟨fun _ => ⟨u, h.lt, h.priced.not_reaches h.lt h.find_eq hseen hd⟩, by simp⟩
      | node e k d l r rank =>
        have hleft : Left edges s (s.leave start u e k (.node e k d l r rank)) start u e k :=
          left_leave (by rw [h.priced.size_queues]; exact h.lt)
            (by rw [h.priced.size_seen]; exact h.lt) (h.priced.ordered u) hd
        have hfewer := pending_leave h.lt h.find_eq hleft
        have hnext := h.leave hr hseen hleft
        rw [walk_of_node hseen hd]
        dsimp only
        generalize s.leave start u e k (.node e k d l r rank) = s₁ at hleft hfewer hnext ⊢
        by_cases hback : s₁.visited (s.classes.find (source edges e)) = some start
        · rw [if_pos hback]
          obtain ⟨steps, reps, hclosed⟩ := hnext.closed hback
          obtain ⟨hrep, hfresh⟩ := hnext.contract hback hclosed
          have hsame := pending_contract (n := n) hclosed hnext.nodup
          obtain ⟨hnone, hsome⟩ := ih hrep (by rw [hfresh]; simp) (by omega)
          refine ⟨hnone, ?_⟩
          intro s' hs'
          obtain ⟨hle, hend⟩ := hsome s' hs'
          exact ⟨by omega, hend⟩
        · rw [if_neg hback]
          obtain ⟨hnone, hsome⟩ := ih hnext hback (by omega)
          refine ⟨hnone, ?_⟩
          intro s' hs'
          obtain ⟨hle, hend⟩ := hsome s' hs'
          exact ⟨by omega, hend⟩
    · rw [walk_of_visited hseen]
      refine ⟨by simp, ?_⟩
      rintro s' ⟨rfl⟩
      exact ⟨Nat.le_refl _, u, charges, picks, h, hseen, hmet⟩

end Walking

/-! ## Between the walks -/

/-- All walks from vertices below `k` have ended. -/
structure Rested (n root : Nat) (edges : Array WeightedEdge) (k : Nat) (s : State)
    (charges : List Charge) (picks : Nat → Option Nat) (incoming : Array (Option Nat)) : Prop where
  priced : Priced n root edges s charges picks
  anchored : Anchored n root edges s none picks incoming
  inner_visited : ∀ v < n, s.classes.find v ≠ v → s.visited v ≠ none
  seen_lt : ∀ v t, s.visited v = some t → t < k ∨ t = root
  passed : ∀ v < k, v < n → s.visited v ≠ none

section Rest

variable {s : State} {start u k : Nat} {charges : List Charge} {picks : Nat → Option Nat}
  {incoming : Array (Option Nat)}

/-- The next walk starts at a class of a single vertex. -/
theorem Rested.walking (h : Rested n root edges k s charges picks incoming) (hk : k < n)
    (hu : s.visited k = none) :
    Walking n root edges k k { s with path := [] } charges picks incoming := by
  have hne : k ≠ root := h.priced.ne_root hu
  have hfresh : ∀ v, s.visited v ≠ some k := by
    intro v hv
    rcases h.seen_lt v k hv with hlt | heq
    · exact absurd hlt (Nat.lt_irrefl k)
    · exact hne heq
  have hfind : s.classes.find k = k := by
    by_contra hin
    exact h.inner_visited k hk hin hu
  refine ⟨h.priced.setPath [], (h.anchored.mark hfresh).setPath [], hne, hk, hfind,
    List.nodup_nil, trivial, ?_, ?_, h.inner_visited, ?_, ?_⟩
  · intro step hstep
    exact absurd hstep List.not_mem_nil
  · intro r _ _ hseen
    exact absurd hseen (hfresh r)
  · intro v t ht
    rcases h.seen_lt v t ht with hlt | heq
    · exact Or.inl (Nat.le_of_lt hlt)
    · exact Or.inr heq
  · intro v hv hlt hnone
    rcases Nat.lt_or_eq_of_le hv with hvk | hvk
    · exact absurd hnone (h.passed v hvk hlt)
    · exact hvk

/-- The edges of a walk are chosen into the classes that were left, and nothing
else changes. -/
theorem Walking.entering_rest (h : Walking n root edges start u s charges picks incoming) :
    (∀ step ∈ s.path, entering ((s.path.map (·.edge)).reverse.foldl (choose edges s.classes)
      incoming) step.vertex = some step.edge) ∧
    ∀ r, s.visited r ≠ some start →
      entering ((s.path.map (·.edge)).reverse.foldl (choose edges s.classes) incoming) r =
        entering incoming r := by
  constructor
  · intro step hstep
    have hvalid := (h.steps step hstep).valid
    refine entering_foldl_of_mem ?_ hvalid.find_target ?_ ?_
    · exact List.mem_reverse.2 (List.mem_map_of_mem hstep)
    · rw [h.anchored.size_eq]
      exact hvalid.vertex_lt
    · intro f hf hfind
      obtain ⟨other, hother, rfl⟩ := List.mem_map.1 (List.mem_reverse.1 hf)
      rw [(h.steps other hother).valid.find_target] at hfind
      rw [List.inj_on_of_nodup_map h.nodup hother hstep hfind]
  · intro r hr
    refine entering_foldl_of_ne ?_
    intro f hf hfind
    obtain ⟨step, hstep, rfl⟩ := List.mem_map.1 (List.mem_reverse.1 hf)
    rw [(h.steps step hstep).valid.find_target] at hfind
    exact hr (hfind ▸ (h.steps step hstep).visited)

/-- A walk that has ended leaves all classes on it settled. -/
theorem Walking.rested (h : Walking n root edges start u s charges picks incoming)
    (hu : s.Settled (some start) u) :
    Rested n root edges (start + 1) s charges picks
      ((s.path.map (·.edge)).reverse.foldl (choose edges s.classes) incoming) := by
  obtain ⟨hpath, hother⟩ := h.entering_rest
  generalize hafter : (s.path.map (·.edge)).reverse.foldl (choose edges s.classes) incoming =
    after at hpath hother
  have hseen : ∀ step ∈ s.path, s.Settled none step.vertex := by
    intro step hstep
    simp [State.Settled, (h.steps step hstep).visited]
  have htarget : ∀ step ∈ s.path, s.classes.find (target edges step.edge) = step.vertex :=
    fun step hstep => (h.steps step hstep).valid.find_target
  have hsettled : ∀ {r}, r < n → s.classes.find r = r → s.Settled (some start) r →
      ReflTransGen (SettledFrom edges s none after) r root := by
    intro r hr hfind hset
    refine (h.anchored.leads_to_root r hr hfind hset).lift id ?_
    rintro a b ⟨ha, hb, e, he, hfrom⟩
    exact ⟨⟨ha.1, ha.1⟩, ⟨hb.1, hb.1⟩, e, (hother a ha.2).trans he, hfrom⟩
  refine ⟨h.priced, ⟨?_, ?_, ?_⟩, h.inner_visited, ?_, ?_⟩
  · rw [← hafter, size_foldl_choose, h.anchored.size_eq]
  · intro r hr hfind hne hset
    by_cases hmet : s.visited r = some start
    · obtain ⟨step, hstep, rfl⟩ := h.on_path r hr hfind hmet
      rw [hpath step hstep, (h.steps step hstep).picks_eq]
    · rw [hother r hmet]
      exact h.anchored.entering_eq r hr hfind hne ⟨hset.1, hmet⟩
  · intro r hr hfind hset
    by_cases hmet : s.visited r = some start
    · obtain ⟨step, hstep, rfl⟩ := h.on_path r hr hfind hmet
      refine ReflTransGen.trans ?_ (hsettled h.lt h.find_eq hu)
      refine (h.linked.leads_to_end htarget hstep).lift id ?_
      rintro a b ⟨e, he, rfl, rfl⟩
      obtain ⟨other, hmem, rfl⟩ := List.mem_map.1 he
      simp only [htarget other hmem]
      refine ⟨hseen other hmem, ?_, other.edge, hpath other hmem, rfl⟩
      rcases h.linked.find_source hmem with hend | ⟨next, hnext, heq⟩
      · rw [hend]
        exact ⟨hu.1, hu.1⟩
      · rw [← heq]
        exact hseen next hnext
    · exact hsettled hr hfind ⟨hset.1, hmet⟩
  · intro v t ht
    rcases h.seen_le v t ht with hle | heq
    · exact Or.inl (Nat.lt_succ_of_le hle)
    · exact Or.inr heq
  · intro v hv hlt hnone
    have hvu := h.passed v (Nat.le_of_lt_succ hv) hlt hnone
    rw [hvu] at hnone
    exact hu.1 hnone

/-- A vertex that was visited already needs no walk. -/
theorem Rested.skip (h : Rested n root edges k s charges picks incoming)
    (hu : s.visited k ≠ none) :
    Rested n root edges (k + 1) { s with path := [] } charges picks incoming := by
  refine ⟨h.priced.setPath [], h.anchored.setPath [], h.inner_visited, ?_, ?_⟩
  · intro v t ht
    rcases h.seen_lt v t ht with hlt | heq
    · exact Or.inl (Nat.lt_succ_of_lt hlt)
    · exact Or.inr heq
  · intro v hv hlt
    rcases Nat.lt_or_eq_of_le (Nat.le_of_lt_succ hv) with hvk | rfl
    · exact h.passed v hvk hlt
    · exact hu

end Rest

/-- All walks together end with every class settled, unless some vertex cannot be
reached. -/
theorem Rested.walkAll (hr : InRange n edges) {m k : Nat} {s : State} {charges : List Charge}
    {picks : Nat → Option Nat} {incoming : Array (Option Nat)}
    (h : Rested n root edges k s charges picks incoming) (hk : k + m = n)
    (hpending : pending n s ≤ edges.size) :
    (Edmonds.walkAll edges (List.range' k m) s incoming = none →
      ∃ v < n, ¬ Reaches edges root v) ∧
    ∀ s' incoming', Edmonds.walkAll edges (List.range' k m) s incoming = some (s', incoming') →
      ∃ charges' picks', Rested n root edges n s' charges' picks' incoming' := by
  induction m generalizing k s charges picks incoming with
  | zero =>
    rw [List.range'_zero, Edmonds.walkAll]
    refine ⟨by simp, ?_⟩
    rintro s' incoming' heq
    obtain ⟨rfl, rfl⟩ := Prod.mk.inj (Option.some.inj heq)
    rw [Nat.add_zero] at hk
    subst hk
    exact ⟨charges, picks, h⟩
  | succ m ih =>
    have hlt : k < n := by omega
    have hnext : k + 1 + m = n := by omega
    rw [List.range'_succ, Edmonds.walkAll]
    by_cases hu : s.visited k = none
    · have hwalk := (h.walking hlt hu).walk (edges.size + 1) hr
        (by rw [show ({ s with path := [] } : State).visited k = none from hu]; simp)
        (Nat.lt_succ_of_le hpending)
      cases hend : Edmonds.walk edges k (edges.size + 1) k { s with path := [] } with
      | none => exact ⟨fun _ => hwalk.1 hend, by simp⟩
      | some s₁ =>
        obtain ⟨hle, u, charges₁, picks₁, hwalking, hset⟩ := hwalk.2 s₁ hend
        exact ih (hwalking.rested hset) hnext (hle.trans hpending)
    · rw [walk_of_visited (s := { s with path := [] }) hu]
      exact ih (h.skip hu) hnext hpending

end Edmonds

end FuzzCampaign

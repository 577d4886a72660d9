import FuzzCampaign.Proofs.Arborescence.Expansion
import FuzzCampaign.Proofs.Arborescence.HeapOrder

/-!
# Contracting a closed walk

The steps of a walk are kept with the latest first.  The edge of each step comes
from the class that is left by the step after it, and the edge of the latest
step from the class where the walk has arrived.  When that class is on the walk
already, the steps from there on form a cycle.  Contracting it joins their
classes and merges their heaps, and leaves the steps before it alone.

Main definitions:

- `Linked`: consecutive steps of a walk fit together.

Main results:

- `contract_eq`: the classes, the heap and the edges that come out of a
  contraction.
- `Linked.cycle`: the steps up to a class on the walk form a cycle through their
  classes.
-/

namespace FuzzCampaign

namespace Edmonds

open Relation

variable {n root : Nat} {edges : Array WeightedEdge} {classes : Classes}

/-- The edge of each step comes from the class of the step after it, that of the
latest step from the class `u`. -/
def Linked (edges : Array WeightedEdge) (classes : Classes) : Nat → List Step → Prop
  | _, [] => True
  | u, step :: rest =>
    classes.find (source edges step.edge) = u ∧ Linked edges classes step.vertex rest

theorem Linked.of_append {pre rest : List Step} {last : Step} {u : Nat}
    (h : Linked edges classes u (pre ++ last :: rest)) :
    Linked edges classes u (pre ++ [last]) ∧ Linked edges classes last.vertex rest := by
  induction pre generalizing u with
  | nil => exact ⟨⟨h.1, trivial⟩, h.2⟩
  | cons step pre ih => exact ⟨⟨h.1, (ih h.2).1⟩, (ih h.2).2⟩

/-- Earlier steps are linked to the class that was left after them. -/
theorem Linked.of_append_ne_nil {pre rest : List Step} {u : Nat}
    (h : Linked edges classes u (pre ++ rest)) (hne : pre ≠ []) :
    ∃ last ∈ pre, Linked edges classes last.vertex rest := by
  obtain ⟨before, last, rfl⟩ := (List.eq_nil_or_concat' pre).resolve_left hne
  rw [List.append_assoc, List.singleton_append] at h
  exact ⟨last, by simp, h.of_append.2⟩

/-- Steps stay linked when classes are joined and the classes that were left are
kept. -/
theorem Linked.congr {after : Classes} {steps : List Step} {u : Nat}
    (h : Linked edges classes u steps)
    (hcongr : ∀ v w, classes.find v = classes.find w → after.find v = after.find w)
    (hu : classes.find u = u)
    (hkeep : ∀ step ∈ steps,
      classes.find step.vertex = step.vertex ∧ after.find step.vertex = step.vertex) :
    Linked edges after (after.find u) steps := by
  induction steps generalizing u with
  | nil => trivial
  | cons step rest ih =>
    obtain ⟨hold, hnew⟩ := hkeep step List.mem_cons_self
    have hrest := ih h.2 hold fun s hs => hkeep s (List.mem_cons_of_mem _ hs)
    rw [hnew] at hrest
    exact ⟨hcongr _ _ (h.1.trans hu.symm), hrest⟩

/-! ## Walking round a cycle -/

/-- An edge of some steps leads from the class `b` to the class `a`. -/
def StepFrom (edges : Array WeightedEdge) (classes : Classes) (steps : List Step)
    (a b : Nat) : Prop :=
  ∃ e ∈ steps.map (·.edge), classes.find (target edges e) = a ∧ classes.find (source edges e) = b

/-- More steps lead at least as far. -/
theorem leads_mono {steps more : List Step} (hsub : steps ⊆ more) {a b : Nat}
    (h : ReflTransGen (StepFrom edges classes steps) a b) :
    ReflTransGen (StepFrom edges classes more) a b := by
  refine h.lift id ?_
  rintro x y ⟨e, he, hxy⟩
  exact ⟨e, List.map_subset _ hsub he, hxy⟩

/-- Every class that was left on a walk leads to where the walk has arrived. -/
theorem Linked.leads_to_end {steps : List Step} {u : Nat} (h : Linked edges classes u steps)
    (htarget : ∀ step ∈ steps, classes.find (target edges step.edge) = step.vertex)
    {step : Step} (hstep : step ∈ steps) :
    ReflTransGen (StepFrom edges classes steps) step.vertex u := by
  induction steps generalizing u with
  | nil => simp at hstep
  | cons latest rest ih =>
    have hlast : StepFrom edges classes (latest :: rest) latest.vertex u :=
      ⟨latest.edge, by simp, htarget latest List.mem_cons_self, h.1⟩
    rcases List.mem_cons.1 hstep with rfl | hrest
    · exact ReflTransGen.single hlast
    · have hchain := ih h.2 (fun s hs => htarget s (List.mem_cons_of_mem _ hs)) hrest
      exact (leads_mono (List.subset_cons_self _ _) hchain).tail hlast

/-- The edge of a step comes from a class on the walk, or from its end. -/
theorem Linked.find_source {steps : List Step} {u : Nat} (h : Linked edges classes u steps)
    {step : Step} (hstep : step ∈ steps) :
    classes.find (source edges step.edge) = u ∨
      ∃ other ∈ steps, other.vertex = classes.find (source edges step.edge) := by
  induction steps generalizing u with
  | nil => simp at hstep
  | cons latest rest ih =>
    rcases List.mem_cons.1 hstep with rfl | hrest
    · exact Or.inl h.1
    · rcases ih h.2 hrest with hlatest | ⟨other, hother, heq⟩
      · exact Or.inr ⟨latest, List.mem_cons_self, hlatest.symm⟩
      · exact Or.inr ⟨other, List.mem_cons_of_mem _ hother, heq⟩

/-- The class that was left first leads to every other class on the walk. -/
theorem Linked.first_leads {pre : List Step} {last : Step} {u : Nat}
    (h : Linked edges classes u (pre ++ [last]))
    (htarget : ∀ step ∈ pre ++ [last], classes.find (target edges step.edge) = step.vertex)
    {step : Step} (hstep : step ∈ pre ++ [last]) :
    ReflTransGen (StepFrom edges classes (pre ++ [last])) last.vertex step.vertex := by
  induction pre generalizing u step with
  | nil =>
    rw [List.nil_append, List.mem_singleton] at hstep
    subst hstep
    exact ReflTransGen.refl
  | cons latest rest ih =>
    have htail : ∀ s ∈ rest ++ [last], classes.find (target edges s.edge) = s.vertex :=
      fun s hs => htarget s (List.mem_cons_of_mem _ hs)
    have hearlier : ∀ s ∈ rest ++ [last],
        ReflTransGen (StepFrom edges classes (latest :: rest ++ [last])) last.vertex s.vertex := by
      intro s hs
      exact leads_mono (List.subset_cons_self _ _) (ih h.2 htail hs)
    rcases List.mem_cons.1 hstep with rfl | hrest
    · -- the step before the latest one is the first of the remaining list
      obtain ⟨next, more, hnext⟩ : ∃ next more, rest ++ [last] = next :: more :=
        List.exists_cons_of_ne_nil (by simp)
      have hmem : next ∈ rest ++ [last] := by simp [hnext]
      have hlink : classes.find (source edges next.edge) = step.vertex := by
        have htl := h.2
        rw [show rest.append [last] = next :: more from hnext] at htl
        exact htl.1
      refine (hearlier next hmem).tail ⟨next.edge, ?_, htail next hmem, hlink⟩
      exact List.mem_map_of_mem (List.mem_cons_of_mem _ hmem)
    · exact hearlier step hrest

/-! ## What comes out of a contraction -/

/-- A step of a walk left a class of the graph, other than that of the root, by
an edge from another class. -/
structure Step.Valid (n root : Nat) (edges : Array WeightedEdge) (classes : Classes)
    (step : Step) : Prop where
  vertex_lt : step.vertex < n
  find_vertex : classes.find step.vertex = step.vertex
  candidate : Candidate root edges step.edge
  find_target : classes.find (target edges step.edge) = step.vertex
  find_source : classes.find (source edges step.edge) ≠ step.vertex

/-- A step that left a class off the cycle stays as it is. -/
theorem Step.Valid.contract {after : Classes} {c : Contraction} {reps : List Nat} {step : Step}
    (h : step.Valid n root edges classes) (hc : Contracts n root edges classes after c reps)
    (hout : step.vertex ∉ reps) : step.Valid n root edges after :=
  ⟨h.vertex_lt, hc.find_eq_self_iff.2 (Or.inr ⟨hout, h.find_vertex⟩), h.candidate,
    (hc.find_eq_iff hout).2 h.find_target, mt (hc.find_eq_iff hout).1 h.find_source⟩

/-- A contraction joins the classes on the cycle, merges their heaps, and keeps
the edges of the cycle in the order of the walk. -/
theorem contract_eq (queues : Array EdgeHeap) (cycle : List Nat) (rest : List Step)
    {heap : EdgeHeap} {c' : Classes} {u : Nat} {reps : List Nat} {pre : List Step} {last : Step}
    (hj : Classes.Joined classes c' n reps) (hu : u < n) (hfind : classes.find u = u)
    (hmem : u ∈ reps) (hlast : last.vertex = u) (ho : heap.Ordered)
    (hqueues : ∀ v, (queue queues v).Ordered)
    (hroot : ∀ step ∈ pre, step.vertex < n ∧ classes.find step.vertex = step.vertex)
    (hnodup : ((pre.map (·.vertex)).reverse ++ reps).Nodup) :
    ∃ merged joined, contract queues u heap c' cycle (pre ++ last :: rest) =
        ⟨merged, joined, ((pre ++ [last]).map (·.edge)).reverse ++ cycle, rest⟩ ∧
      Classes.Joined classes joined n ((pre.map (·.vertex)).reverse ++ reps) ∧
      merged.Ordered ∧ merged.items.Perm (heap.items ++
        (pre ++ [last]).flatMap fun step => (queue queues step.vertex).items) := by
  induction pre generalizing heap c' cycle reps with
  | nil =>
    have hsame : c'.union u last.vertex = (false, c') := by
      rw [hlast]
      exact Classes.union_of_eq rfl
    refine ⟨heap.merge (queue queues last.vertex), c', ?_, hj, ho.merge (hqueues _), ?_⟩
    · simp [contract, hsame]
    · simpa using EdgeHeap.items_merge heap (queue queues last.vertex)
  | cons step pre ih =>
    have hstep := hroot step List.mem_cons_self
    have hnot : step.vertex ∉ reps := by
      intro hin
      simp only [List.map_cons, List.reverse_cons, List.append_assoc] at hnodup
      have hdisjoint := (List.nodup_append.1 hnodup).2.1
      exact (List.nodup_cons.1 hdisjoint).1 hin
    obtain ⟨c'', hunion, hj'⟩ :=
      hj.union hu (by rw [hfind]; exact hmem) hstep.1 hstep.2 hnot
    have hnodup' : ((pre.map (·.vertex)).reverse ++ (step.vertex :: reps)).Nodup := by
      simpa using hnodup
    obtain ⟨merged, joined, heq, hjoined, hord, hperm⟩ :=
      ih (step.edge :: cycle) hj' (List.mem_cons_of_mem _ hmem)
        (ho.merge (hqueues step.vertex))
        (fun s hs => hroot s (List.mem_cons_of_mem _ hs)) hnodup'
    refine ⟨merged, joined, ?_, ?_, hord, ?_⟩
    · rw [List.cons_append, contract, hunion]
      simpa using heq
    · simpa using hjoined
    · refine hperm.trans ?_
      rw [List.cons_append, List.flatMap_cons, ← List.append_assoc]
      exact (EdgeHeap.items_merge _ _).append_right _

/-- The classes of a cycle, in the order in which they are joined. -/
theorem mem_representatives {pre : List Step} {last : Step} {u : Nat} (hlast : last.vertex = u)
    (r : Nat) : r ∈ (pre.map (·.vertex)).reverse ++ [u] ↔
      ∃ step ∈ pre ++ [last], step.vertex = r := by
  subst hlast
  simp [or_and_right, exists_or, eq_comm]

theorem nodup_representatives {pre : List Step} {last : Step}
    (h : ((pre ++ [last]).map (·.vertex)).Nodup) :
    ((pre.map (·.vertex)).reverse ++ [last.vertex]).Nodup := by
  rw [List.map_append, List.nodup_append] at h
  rw [List.nodup_append]
  refine ⟨List.nodup_reverse.2 h.1, by simp, ?_⟩
  intro a ha b hb
  exact h.2.2 a (List.mem_reverse.1 ha) b (by simpa using hb)

/-- The steps from a class on the walk up to the return to it form a cycle. -/
theorem Linked.cycle {pre : List Step} {last : Step} {u : Nat}
    (h : Linked edges classes u (pre ++ [last])) (hlast : last.vertex = u)
    (hvalid : ∀ step ∈ pre ++ [last], step.Valid n root edges classes)
    (hnodup : ((pre ++ [last]).map (·.vertex)).Nodup)
    (hne : ∀ step ∈ pre ++ [last], step.vertex ≠ root) :
    Cycle root edges classes ((pre ++ [last]).map (·.edge)).reverse
      ((pre.map (·.vertex)).reverse ++ [u]) := by
  have hreps : ∀ r, r ∈ (pre.map (·.vertex)).reverse ++ [u] ↔
      ∃ step ∈ pre ++ [last], step.vertex = r := fun r => mem_representatives hlast r
  have htarget : ∀ step ∈ pre ++ [last], classes.find (target edges step.edge) = step.vertex :=
    fun step hstep => (hvalid step hstep).find_target
  have hsource : ∀ step ∈ pre ++ [last],
      ∃ other ∈ pre ++ [last], other.vertex = classes.find (source edges step.edge) := by
    intro step hstep
    rcases h.find_source hstep with hend | hother
    · exact ⟨last, by simp, hlast.trans hend.symm⟩
    · exact hother
  have hchain : ∀ a b, StepFrom edges classes (pre ++ [last]) a b →
      ∃ e ∈ ((pre ++ [last]).map (·.edge)).reverse,
        classes.find (target edges e) = a ∧ classes.find (source edges e) = b := by
    rintro a b ⟨e, he, hab⟩
    exact ⟨e, List.mem_reverse.2 he, hab⟩
  refine ⟨?_, ?_, ?_, ?_, ?_, ?_, ?_, ?_⟩
  · rw [hreps]
    rintro ⟨step, hstep, hvertex⟩
    exact hne step hstep hvertex
  · simp only [List.mem_reverse, List.mem_map]
    rintro e ⟨step, hstep, rfl⟩
    exact (hvalid step hstep).candidate
  · simp only [List.mem_reverse, List.mem_map]
    rintro e ⟨step, hstep, rfl⟩
    rw [htarget step hstep]
    exact (hvalid step hstep).find_source
  · simp only [List.mem_reverse, List.mem_map]
    rintro e ⟨step, hstep, rfl⟩
    exact (hreps _).2 ⟨step, hstep, (htarget step hstep).symm⟩
  · simp only [List.mem_reverse, List.mem_map]
    rintro e ⟨step, hstep, rfl⟩
    exact (hreps _).2 (hsource step hstep)
  · intro r hr
    obtain ⟨step, hstep, rfl⟩ := (hreps r).1 hr
    refine ⟨step.edge, ?_, htarget step hstep⟩
    exact List.mem_reverse.2 (List.mem_map_of_mem hstep)
  · simp only [List.mem_reverse, List.mem_map]
    rintro e ⟨s, hs, rfl⟩ f ⟨t, ht, rfl⟩ hst
    rw [htarget s hs, htarget t ht] at hst
    rw [List.inj_on_of_nodup_map hnodup hs ht hst]
  · intro a ha b hb
    obtain ⟨s, hs, rfl⟩ := (hreps a).1 ha
    obtain ⟨t, ht, rfl⟩ := (hreps b).1 hb
    have hto := h.leads_to_end htarget hs
    have hfrom := h.first_leads htarget ht
    rw [hlast] at hfrom
    exact (hto.trans hfrom).lift id hchain

end Edmonds

end FuzzCampaign

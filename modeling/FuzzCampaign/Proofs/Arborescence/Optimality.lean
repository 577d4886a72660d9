import FuzzCampaign.Proofs.Arborescence.Walks
import Mathlib.Algebra.BigOperators.Group.Finset.Piecewise

/-!
# The arborescence is spanning and of least weight

At first the heap of every vertex holds the candidate edges into it at their own
weights.  After all walks every class was left, so no edge is asked for more
than its weight, and undoing the contractions gives a spanning arborescence that
is asked for exactly its weight and pays every charge once.  No arborescence
weighs less.

Main definition:

- `MinimumArborescence`: what the list of chosen edges is.

Main results:

- `rested_initial`: the state before the first walk.
- `Rested.minimum`: what is chosen after all walks.
- `edmonds_spec` and `edmonds_minimum_arborescence`: the arborescence algorithm
  finds a minimum spanning arborescence unless some vertex cannot be reached.
-/

namespace FuzzCampaign

namespace Edmonds

open Relation

variable {n root : Nat} {edges : Array WeightedEdge}

/-! ## The first heaps -/

/-- An entry enters the heap of a vertex: it is no loop and leads to that vertex,
which is not the root. -/
def Enters (root v : Nat) (entry : WeightedEdge × Nat) : Prop :=
  entry.1.source ≠ entry.1.target ∧ entry.1.target ≠ root ∧ entry.1.target = v

instance (root v : Nat) : DecidablePred (Enters root v) :=
  fun _ => inferInstanceAs (Decidable (_ ∧ _))

@[simp] theorem size_enqueue (queues : Array EdgeHeap) (entry : WeightedEdge × Nat) :
    (enqueue root queues entry).size = queues.size := by
  simp only [enqueue]
  split
  · rfl
  · simp

/-- An edge is put into the heap of its target, and no other heap changes. -/
theorem queue_enqueue {queues : Array EdgeHeap} {v : Nat} (hv : v < queues.size)
    (entry : WeightedEdge × Nat) :
    queue (enqueue root queues entry) v =
      if Enters root v entry then
        (queue queues v).merge (.singleton entry.2 entry.1.weight)
      else queue queues v := by
  simp only [enqueue]
  by_cases hout : entry.1.source = entry.1.target ∨ entry.1.target = root
  · rw [if_pos hout, if_neg]
    rintro ⟨hne, hroot, -⟩
    rcases hout with hloop | hinto
    · exact hne hloop
    · exact hroot hinto
  · rw [not_or] at hout
    rw [if_neg (by simp [hout])]
    by_cases htarget : entry.1.target = v
    · subst htarget
      rw [queue_set hv, if_pos rfl, if_pos ⟨hout.1, hout.2, rfl⟩]
    · rw [if_neg fun h => htarget h.2.2]
      simp [queue, htarget]

/-- Putting an edge into a heap keeps the heaps ordered. -/
theorem ordered_enqueue {queues : Array EdgeHeap} (ho : ∀ v, (queue queues v).Ordered)
    (entry : WeightedEdge × Nat) (v : Nat) : (queue (enqueue root queues entry) v).Ordered := by
  by_cases hv : v < queues.size
  · rw [queue_enqueue hv]
    split
    · exact (ho v).merge (EdgeHeap.ordered_singleton _ _)
    · exact ho v
  · have hout : (enqueue root queues entry)[v]? = none :=
      Array.getElem?_eq_none (by rw [size_enqueue]; exact Nat.le_of_not_lt hv)
    simp [queue, hout, EdgeHeap.ordered_nil]

section Fold

variable {queues : Array EdgeHeap} (l : List (WeightedEdge × Nat))

@[simp] theorem size_foldl_enqueue : (l.foldl (enqueue root) queues).size = queues.size := by
  induction l generalizing queues with
  | nil => rfl
  | cons entry l ih => rw [List.foldl_cons, ih, size_enqueue]

/-- The heaps that are made from the edges are ordered. -/
theorem ordered_foldl_enqueue (ho : ∀ v, (queue queues v).Ordered) (v : Nat) :
    (queue (l.foldl (enqueue root) queues) v).Ordered := by
  induction l generalizing queues with
  | nil => exact ho v
  | cons entry l ih =>
    rw [List.foldl_cons]
    exact ih (ordered_enqueue ho entry)

/-- A heap gets the entries that lead to its vertex. -/
theorem items_foldl_enqueue {v : Nat} (hv : v < queues.size) :
    (queue (l.foldl (enqueue root) queues) v).items.Perm ((queue queues v).items ++
      (l.filter (Enters root v)).map fun entry => (entry.2, entry.1.weight)) := by
  induction l generalizing queues with
  | nil => simp
  | cons entry l ih =>
    refine (ih (by rwa [size_enqueue])).trans ?_
    rw [queue_enqueue hv]
    by_cases hin : Enters root v entry
    · rw [if_pos hin, List.filter_cons_of_pos (by simpa using hin), List.map_cons]
      refine ((EdgeHeap.items_merge _ _).append_right _).trans ?_
      rw [EdgeHeap.items_singleton, List.append_assoc, List.singleton_append]
    · rw [if_neg hin, List.filter_cons_of_neg (by simpa using hin)]

/-- The heap of a vertex holds the edges that enter it. -/
theorem mem_items_foldl_enqueue {v : Nat} (hv : v < queues.size) (item : Nat × Int) :
    item ∈ (queue (l.foldl (enqueue root) queues) v).items ↔
      item ∈ (queue queues v).items ∨
        ∃ entry ∈ l, Enters root v entry ∧ item = (entry.2, entry.1.weight) := by
  rw [(items_foldl_enqueue l hv).mem_iff]
  simp [and_assoc, eq_comm]

/-- Every entry adds at most one edge to the heaps. -/
theorem sum_size_foldl_enqueue_le :
    ∑ v ∈ Finset.range queues.size, (queue (l.foldl (enqueue root) queues) v).size ≤
      ∑ v ∈ Finset.range queues.size, (queue queues v).size + l.length := by
  induction l generalizing queues with
  | nil => simp
  | cons entry l ih =>
    have hone : ∑ v ∈ Finset.range queues.size, (queue (enqueue root queues entry) v).size ≤
        ∑ v ∈ Finset.range queues.size, (queue queues v).size + 1 := by
      calc
        ∑ v ∈ Finset.range queues.size, (queue (enqueue root queues entry) v).size ≤
            ∑ v ∈ Finset.range queues.size,
              ((queue queues v).size + if entry.1.target = v then 1 else 0) := by
          refine Finset.sum_le_sum ?_
          intro v hv
          rw [queue_enqueue (Finset.mem_range.1 hv)]
          split
          · rename_i hin
            rw [if_pos hin.2.2, EdgeHeap.size_merge]
            exact Nat.le_refl _
          · exact Nat.le_add_right _ _
        _ ≤ ∑ v ∈ Finset.range queues.size, (queue queues v).size + 1 := by
          rw [Finset.sum_add_distrib, Finset.sum_ite_eq]
          split
          · exact Nat.le_refl _
          · omega
    have hrest := @ih (enqueue root queues entry)
    rw [size_enqueue] at hrest
    rw [List.foldl_cons, List.length_cons]
    omega

end Fold

/-- The first heap of a vertex holds the candidate edges into it. -/
theorem mem_items_initialQueues {v : Nat} (hv : v < n) (item : Nat × Int) :
    item ∈ (queue (initialQueues n root edges) v).items ↔
      Candidate root edges item.1 ∧ target edges item.1 = v ∧ item.2 = weight edges item.1 := by
  have hempty : queue (Array.replicate n EdgeHeap.nil) v = .nil := by simp [queue, hv]
  rw [initialQueues, mem_items_foldl_enqueue _ (by simpa using hv), hempty]
  obtain ⟨e, w⟩ := item
  constructor
  · rintro (hnil | ⟨⟨edge, i⟩, hmem, ⟨hne, hroot, rfl⟩, heq⟩)
    · simp [EdgeHeap.items, EdgeHeap.itemsUnder] at hnil
    · obtain ⟨rfl, rfl⟩ := Prod.mk.inj heq
      rw [List.mk_mem_zipIdx_iff_getElem?, Array.getElem?_toList] at hmem
      obtain ⟨hlt, rfl⟩ := Array.getElem?_eq_some_iff.1 hmem
      refine ⟨⟨hlt, ?_, ?_⟩, target_of_lt hlt, (weight_of_lt hlt).symm⟩
      · rwa [source_of_lt hlt, target_of_lt hlt]
      · rwa [target_of_lt hlt]
  · rintro ⟨⟨hlt, hne, hroot⟩, htarget, hweight⟩
    simp only at hlt hne hroot htarget hweight
    rw [source_of_lt hlt, target_of_lt hlt] at hne
    rw [target_of_lt hlt] at hroot htarget
    rw [weight_of_lt hlt] at hweight
    refine Or.inr ⟨(edges[e], e), ?_, ⟨hne, hroot, htarget⟩, by rw [hweight]⟩
    rw [List.mk_mem_zipIdx_iff_getElem?, Array.getElem?_toList]
    exact Array.getElem?_eq_getElem hlt

/-- Every edge is entered once. -/
theorem nodup_initialQueues {v : Nat} (hv : v < n) :
    ((queue (initialQueues n root edges) v).items.map (·.1)).Nodup := by
  have hempty : queue (Array.replicate n EdgeHeap.nil) v = .nil := by simp [queue, hv]
  have hperm : (queue (initialQueues n root edges) v).items.Perm _ :=
    items_foldl_enqueue edges.toList.zipIdx (by simpa using hv)
  rw [hempty, EdgeHeap.items_nil, List.nil_append] at hperm
  replace hperm := hperm.map Prod.fst
  rw [List.map_map] at hperm
  refine hperm.nodup_iff.2 (List.Nodup.sublist (List.filter_sublist.map Prod.snd) ?_)
  rw [List.zipIdx_map_snd]
  exact List.nodup_range'

/-- The first heaps hold no more items than there are edges. -/
theorem pending_initial_le : pending n (initial n root edges) ≤ edges.size := by
  have hsum := @sum_size_foldl_enqueue_le root (Array.replicate n .nil)
    edges.toList.zipIdx
  have hzero : ∑ v ∈ Finset.range n, (queue (Array.replicate n EdgeHeap.nil) v).size = 0 := by
    refine Finset.sum_eq_zero ?_
    intro v hv
    simp [queue, Finset.mem_range.1 hv, EdgeHeap.size]
  rw [Array.size_replicate, hzero, zero_add, List.length_zipIdx, Array.length_toList] at hsum
  refine le_trans ?_ hsum
  exact Finset.sum_le_sum_of_subset (Finset.filter_subset _ _)

/-- Before the first walk only the root is visited, and nothing is charged. -/
theorem rested_initial (hroot : root < n) (hr : InRange n edges) :
    Rested n root edges 0 (initial n root edges) [] (fun _ => none) (Array.replicate n none) := by
  have hfind : ∀ v, (initial n root edges).classes.find v = v := Classes.find_discrete n
  have hvisited : ∀ v, (initial n root edges).visited v = if v = root then some root else none := by
    intro v
    have hnone : (Array.replicate n (none : Option Nat))[v]?.join = none := by
      rw [Array.getElem?_replicate]
      split <;> rfl
    rw [State.visited, initial, join_set (by simpa using hroot), hnone]
  have hinto : ∀ e, Candidate root edges e →
      (initial n root edges).visited (target edges e) = none := by
    intro e hcand
    rw [hvisited, if_neg hcand.target_ne_root]
  refine ⟨⟨Nested.discrete, by simp, ?_, by simp [initial], ?_, ?_, ?_, ?_, ?_, by simp, ?_⟩,
    ⟨by simp, ?_, ?_⟩, ?_, ?_, by simp⟩
  · simp [initial, initialQueues]
  · rw [hvisited, if_pos rfl]
  · refine ordered_foldl_enqueue _ ?_
    intro v
    have hempty : queue (Array.replicate n EdgeHeap.nil) v = .nil := by
      simp only [queue, Array.getElem?_replicate]
      split <;> rfl
    rw [hempty]
    exact EdgeHeap.ordered_nil
  · intro r hr _ item hitem
    obtain ⟨hcand, htarget, hweight⟩ := (mem_items_initialQueues hr item).1 hitem
    rw [hfind, hfind, reduced_nil]
    exact ⟨hcand, htarget, fun _ => hweight⟩
  · intro e hcand _
    rw [hfind]
    refine Or.inl ⟨weight edges e, ?_⟩
    exact (mem_items_initialQueues (hr.target_lt hcand.lt_size) _).2 ⟨hcand, rfl, rfl⟩
  · intro e hcand
    rw [hfind, hinto e hcand]
    exact Or.inr ⟨rfl, fun v hv => (hfind v).symm.trans hv⟩
  · intro r _ _ hne
    rw [hvisited, if_neg hne]
  · intro r _ _ hne hset
    exact absurd ((hvisited r).trans (if_neg hne)) hset.1
  · intro r _ _ hset
    by_cases hne : r = root
    · rw [hne]
    · exact absurd ((hvisited r).trans (if_neg hne)) hset.1
  · intro v _ hin
    exact absurd (hfind v) hin
  · intro v t ht
    rw [hvisited] at ht
    split at ht
    · exact Or.inr (Option.some.inj ht).symm
    · exact absurd ht (by simp)

/-! ## What is chosen -/

/-- A list of edges is a spanning arborescence of least weight, in the order of
its targets. -/
structure MinimumArborescence (n root : Nat) (edges : Array WeightedEdge)
    (chosen : List Nat) : Prop where
  targets : chosen.map (target edges) = (List.range n).filter (· != root)
  spanning : SpanningArborescence n root edges chosen.toFinset
  weight_le : ∀ tree, SpanningArborescence n root edges tree →
    (chosen.map (weight edges)).sum ≤ ∑ e ∈ tree, weight edges e

/-- A vertex that leads to the root in an arborescence is reached from it. -/
theorem SpanningArborescence.reaches {tree : Finset Nat}
    (h : SpanningArborescence n root edges tree) {v : Nat} (hv : v < n) :
    Reaches edges root v := by
  have hchain := h.leads_to_root v hv
  clear hv
  induction hchain using ReflTransGen.head_induction_on with
  | refl => exact ReflTransGen.refl
  | head hstep _ ih =>
    obtain ⟨e, he, rfl, rfl⟩ := hstep
    have hlt := h.lt_size e he
    refine ih.tail ⟨edges[e], Array.getElem_mem hlt, ?_, ?_⟩
    · exact (source_of_lt hlt).symm
    · exact (target_of_lt hlt).symm

/-- The edge into a vertex, where one is chosen. -/
def into (incoming : Array (Option Nat)) (v : Nat) : Nat := (entering incoming v).getD 0

/-- The vertices other than the root. -/
def others (n root : Nat) : List Nat := (List.range n).filter (· != root)

/-- The others are all vertices but the root. -/
theorem mem_others {v : Nat} : v ∈ others n root ↔ v < n ∧ v ≠ root := by
  simp [others]

/-- When every vertex has an edge chosen into it, these edges are listed. -/
theorem chosen_eq_some {incoming : Array (Option Nat)}
    (h : ∀ v < n, v ≠ root → entering incoming v = some (into incoming v)) :
    chosen n root incoming = some ((others n root).map (into incoming)) := by
  have hall : ∀ v ∈ others n root, entering incoming v = some (into incoming v) := by
    intro v hv
    obtain ⟨hlt, hne⟩ := mem_others.1 hv
    exact h v hlt hne
  rw [chosen, ← others]
  generalize others n root = vertices at hall
  induction vertices with
  | nil => rfl
  | cons v vertices ih =>
    have hv := hall v List.mem_cons_self
    rw [List.mapM_cons, ih fun w hw => hall w (List.mem_cons_of_mem _ hw),
      show incoming[v]?.join = some (into incoming v) from hv]
    rfl

section Tree

variable {incoming : Array (Option Nat)}

/-- Each vertex but the root has an entering edge in a branching. -/
theorem Branching.entering_eq (hb : Branching n root edges (Classes.discrete n) incoming) {v : Nat}
    (hv : v < n) (hne : v ≠ root) :
    entering incoming v = some (into incoming v) ∧ Candidate root edges (into incoming v) ∧
      target edges (into incoming v) = v := by
  obtain ⟨e, he, hcand, htarget, -⟩ := hb.edge v hv (Classes.find_discrete n v) hne
  rw [Classes.find_discrete] at htarget
  have hinto : into incoming v = e := by simp [into, he]
  rw [hinto]
  exact ⟨he, hcand, htarget⟩

/-- The entering edges of the others lead to the others, in their order. -/
theorem Branching.map_target (hb : Branching n root edges (Classes.discrete n) incoming) :
    ((others n root).map (into incoming)).map (target edges) = others n root := by
  rw [List.map_map]
  refine (List.map_congr_left ?_).trans (List.map_id _)
  intro v hv
  obtain ⟨hlt, hne⟩ := mem_others.1 hv
  exact (hb.entering_eq hlt hne).2.2

/-- The chosen edges are the entering edges of the others. -/
theorem Branching.mem_chosen (hb : Branching n root edges (Classes.discrete n) incoming)
    {e : Nat} :
    e ∈ (others n root).map (into incoming) ↔ Chosen n root (Classes.discrete n) incoming e := by
  rw [List.mem_map]
  constructor
  · rintro ⟨v, hv, rfl⟩
    obtain ⟨hlt, hne⟩ := mem_others.1 hv
    exact ⟨v, hlt, Classes.find_discrete n v, hne, (hb.entering_eq hlt hne).1⟩
  · rintro ⟨v, hlt, -, hne, he⟩
    refine ⟨v, mem_others.2 ⟨hlt, hne⟩, ?_⟩
    rw [(hb.entering_eq hlt hne).1] at he
    exact Option.some.inj he

/-- Edges into all single vertices that lead back to the root form a spanning
arborescence. -/
theorem Branching.spanning (hb : Branching n root edges (Classes.discrete n) incoming)
    (hr : InRange n edges) :
    SpanningArborescence n root edges ((others n root).map (into incoming)).toFinset := by
  have hmem : ∀ e, e ∈ ((others n root).map (into incoming)).toFinset ↔
      ∃ v, (v < n ∧ v ≠ root) ∧ into incoming v = e := by
    intro e
    rw [List.mem_toFinset, List.mem_map]
    simp only [mem_others]
  refine ⟨?_, ?_, ?_, ?_⟩
  · intro e he
    obtain ⟨v, ⟨hlt, hne⟩, rfl⟩ := (hmem e).1 he
    exact (hb.entering_eq hlt hne).2.1.lt_size
  · intro e he
    obtain ⟨v, ⟨hlt, hne⟩, rfl⟩ := (hmem e).1 he
    exact (hb.entering_eq hlt hne).2.1.target_ne_root
  · intro v hv hne
    refine ⟨into incoming v, ⟨(hmem _).2 ⟨v, ⟨hv, hne⟩, rfl⟩, (hb.entering_eq hv hne).2.2⟩, ?_⟩
    rintro e ⟨he, htarget⟩
    obtain ⟨w, ⟨hlt, hnew⟩, rfl⟩ := (hmem e).1 he
    rw [(hb.entering_eq hlt hnew).2.2] at htarget
    rw [htarget]
  · intro v hv
    have hchain := hb.leads_to_root v hv (Classes.find_discrete n v)
    -- only the classes of vertices other than the root have chosen edges
    induction hchain using ReflTransGen.head_induction_on with
    | refl => exact ReflTransGen.refl
    | @head a b hstep _ ih =>
      by_cases hroot : a = root
      · rw [hroot]
      · obtain ⟨e, he, hfrom⟩ := hstep
        obtain ⟨hent, hcand, htarget⟩ := hb.entering_eq hv hroot
        have hea : into incoming a = e := Option.some.inj (hent.symm.trans he)
        rw [hea] at hcand htarget
        rw [Classes.find_discrete] at hfrom
        refine ReflTransGen.head ⟨e, (hmem e).2 ⟨a, ⟨hv, hroot⟩, hea⟩, htarget, hfrom⟩ (ih ?_)
        rw [← hfrom]
        exact hr.source_lt hcand.lt_size

end Tree

/-! ## After all walks -/

section Done

variable {s : State} {charges : List Charge} {picks : Nat → Option Nat}
  {incoming : Array (Option Nat)}

/-- When all walks have ended every class leads to the root. -/
theorem Rested.branching (h : Rested n root edges n s charges picks incoming) :
    Branching n root edges s.classes incoming := by
  have hvisited : ∀ v < n, s.visited v ≠ none := fun v hv => h.passed v hv hv
  refine ⟨h.anchored.size_eq, ?_, ?_⟩
  · intro r hr hfind hne
    have hsome := (h.priced.visited_iff r hr hfind hne).1
      (Option.isSome_iff_ne_none.2 (hvisited r hr))
    obtain ⟨e, he⟩ := Option.isSome_iff_exists.1 hsome
    obtain ⟨hvalid, -⟩ := h.priced.picked r hr hfind e he
    refine ⟨e, ?_, hvalid.candidate, hvalid.find_target, hvalid.find_source⟩
    rw [h.anchored.entering_eq r hr hfind hne ⟨hvisited r hr, hvisited r hr⟩, he]
  · intro r hr hfind
    refine (h.anchored.leads_to_root r hr hfind ⟨hvisited r hr, hvisited r hr⟩).lift id ?_
    rintro a b ⟨-, -, hab⟩
    exact hab

/-- When all walks have ended no edge is asked for more than its weight. -/
theorem Rested.reduced_nonneg (h : Rested n root edges n s charges picks incoming)
    (hr : InRange n edges) {e : Nat} (hcand : Candidate root edges e) :
    0 ≤ reduced edges charges e := by
  rcases h.priced.nonneg e hcand with hnonneg | ⟨hnone, -⟩
  · exact hnonneg
  · have hlt := h.priced.wellFormed.find_lt (hr.target_lt hcand.lt_size)
    exact absurd hnone (h.passed _ hlt hlt)

/-- What an expanded edge is asked for. -/
theorem Rested.reduced_eq_zero (h : Rested n root edges n s charges picks incoming)
    {expanded : Array (Option Nat)}
    (hx : Expands n root edges s.classes charges incoming expanded) {e : Nat}
    (he : Chosen n root (Classes.discrete n) expanded e) : reduced edges charges e = 0 := by
  rcases hx.further e he with ⟨r, hr, hfind, hne, hent⟩ | ⟨-, hzero⟩
  · refine (h.priced.picked r hr hfind e ?_).2
    have hvisited := h.passed r hr hr
    rw [← h.anchored.entering_eq r hr hfind hne ⟨hvisited, hvisited⟩]
    exact hent
  · exact hzero

/-- Undoing all contractions gives a minimum spanning arborescence. -/
theorem Rested.minimum (h : Rested n root edges n s charges picks incoming)
    (hr : InRange n edges) :
    ∃ l, chosen n root (Edmonds.expand edges s.contractions s.classes incoming) = some l ∧
      MinimumArborescence n root edges l := by
  have hx := h.priced.nested.expand h.branching
  generalize Edmonds.expand edges s.contractions s.classes incoming = expanded at hx ⊢
  have hb := hx.branching
  refine ⟨_, chosen_eq_some fun v hv hne => (hb.entering_eq hv hne).1, hb.map_target,
    hb.spanning hr, ?_⟩
  intro tree htree
  have hnodup : ((others n root).map (into expanded)).Nodup := by
    refine List.Nodup.of_map (target edges) ?_
    rw [hb.map_target]
    exact List.Nodup.filter _ List.nodup_range
  have htight : ∀ e ∈ ((others n root).map (into expanded)).toFinset,
      reduced edges charges e = 0 := by
    intro e he
    exact h.reduced_eq_zero hx (hb.mem_chosen.1 (List.mem_toFinset.1 he))
  have honce : ∀ c ∈ charges, ∃! e,
      e ∈ ((others n root).map (into expanded)).toFinset ∧ c.Entered edges e := by
    intro c hc
    simp only [List.mem_toFinset, hb.mem_chosen]
    exact hx.once c hc
  calc
    (((others n root).map (into expanded)).map (weight edges)).sum =
        ∑ e ∈ ((others n root).map (into expanded)).toFinset, weight edges e :=
      (List.sum_toFinset _ hnodup).symm
    _ = (charges.map Charge.amount).sum := weight_eq_amounts htight honce
    _ ≤ ∑ e ∈ tree, weight edges e :=
      htree.amounts_le_weight h.priced.sound fun e he => h.reduced_nonneg hr (htree.candidate hr he)

end Done

end Edmonds

open Edmonds in
/-- The arborescence algorithm has no answer exactly when the root does not reach
every vertex; otherwise the answer is a minimum spanning arborescence. -/
theorem edmonds_spec {n root : Nat} {edges : Array WeightedEdge} (hroot : root < n)
    (hr : InRange n edges) :
    (edmonds n root edges = none ∧ ∃ v < n, ¬ Reaches edges root v) ∨
      ∃ l, edmonds n root edges = some l ∧ MinimumArborescence n root edges l := by
  obtain ⟨hnone, hsome⟩ := (rested_initial hroot hr).walkAll hr (Nat.zero_add n) pending_initial_le
  rw [edmonds, if_pos hroot, List.range_eq_range']
  cases hall : walkAll edges (List.range' 0 n) (initial n root edges) (Array.replicate n none) with
  | none => exact Or.inl ⟨rfl, hnone hall⟩
  | some result =>
    obtain ⟨s, incoming⟩ := result
    obtain ⟨charges, picks, hrested⟩ := hsome s incoming hall
    exact Or.inr (hrested.minimum hr)

open Edmonds in
/-- What the algorithm returns is an arborescence of minimal weight. -/
theorem minimumArborescence_of_eq_some {n root : Nat} {edges : Array WeightedEdge}
    (hroot : root < n) (hr : InRange n edges) {l : List Nat}
    (h : edmonds n root edges = some l) : MinimumArborescence n root edges l := by
  rcases edmonds_spec hroot hr with ⟨hnone, -⟩ | ⟨l', hsome, hmin⟩
  · rw [hnone] at h
    exact absurd h (by simp)
  · rw [hsome, Option.some.injEq] at h
    exact h ▸ hmin

open Edmonds in
/-- The arborescence algorithm has no answer exactly when some vertex cannot be
reached from the root.  Otherwise it answers with one edge into every vertex
other than the root, in the order of the targets, which form an arborescence of
least weight. -/
theorem edmonds_minimum_arborescence {n root : Nat} {edges : Array WeightedEdge}
    (hroot : root < n) (hr : InRange n edges) :
    (edmonds n root edges = none ↔ ∃ v < n, ¬ Reaches edges root v) ∧
      ∀ l, edmonds n root edges = some l → MinimumArborescence n root edges l := by
  rcases edmonds_spec hroot hr with ⟨hnone, hout⟩ | ⟨l, hsome, hmin⟩
  · rw [hnone]
    exact ⟨iff_of_true rfl hout, by simp⟩
  · rw [hsome]
    refine ⟨iff_of_false (by simp) ?_, ?_⟩
    · rintro ⟨v, hv, hunreached⟩
      exact hunreached (hmin.spanning.reaches hv)
    · rintro l' ⟨rfl⟩
      exact hmin

open Edmonds in
/-- The light edges between the vertices 1 and 2 form a cycle, which is contracted
and entered at the vertex 2. -/
theorem edmonds_minimum_arborescence_cycle :
    edmonds 3 0 #[⟨0, 1, 5⟩, ⟨1, 2, 1⟩, ⟨2, 1, 1⟩, ⟨0, 2, 3⟩] = some [2, 3] ∧
      MinimumArborescence 3 0 #[⟨0, 1, 5⟩, ⟨1, 2, 1⟩, ⟨2, 1, 1⟩, ⟨0, 2, 3⟩] [2, 3] := by
  have hsome : edmonds 3 0 #[⟨0, 1, 5⟩, ⟨1, 2, 1⟩, ⟨2, 1, 1⟩, ⟨0, 2, 3⟩] = some [2, 3] := by
    decide +kernel
  have hr : InRange 3 #[⟨0, 1, 5⟩, ⟨1, 2, 1⟩, ⟨2, 1, 1⟩, ⟨0, 2, 3⟩] := by
    simp [InRange]
  exact ⟨hsome, (edmonds_minimum_arborescence (by decide) hr).2 _ hsome⟩

end FuzzCampaign

import FuzzCampaign.Proofs.Arborescence.HeapStore
import FuzzCampaign.Proofs.Arborescence.Walks

/-!
# Heaps on shelves

The heaps of the classes stand in one store and share no nodes, and every edge is in one of them
at most, or was taken off one.  So each call of a heap does in the store what it does to the heap
by itself, and leaves the other heaps alone.

Main definitions:

- `Shelved` and `Stocked`: the heaps of the classes stand in a store.
- `Merges`: what comes out of a contraction in a store.

Main results:

- `Shelved.enter`: how the heaps are made.
- `Stocked.pop`, `Stocked.contract`: an edge is taken off a heap, and a cycle is contracted.
- `gather_eq`: the heaps along a walk are merged as they are merged by themselves.
-/

namespace FuzzCampaign

namespace Edmonds

variable {n root : Nat} {edges : Array WeightedEdge} {bound : Option Nat} {allowed : Int → Bool}

/-! ## Tables -/

/-- A table is written at its places. -/
theorem put_of_lt {α : Type} {table : Array α} {i : Nat} (hi : i < table.size) (value : α) :
    put table i value = some (table.setIfInBounds i value) := if_pos hi

/-- A table is read at its places only. -/
theorem lt_size_of_read {α : Type} {table : Array α} {i : Nat} {value : α}
    (h : table[i]? = some value) : i < table.size :=
  (Array.getElem?_eq_some_iff.1 h).1

/-- A table of options is read at every place. -/
theorem read_of_lt {α : Type} {table : Array (Option α)} {i : Nat} (hi : i < table.size) :
    table[i]? = some table[i]?.join := by
  rw [Array.getElem?_eq_getElem hi]
  rfl

/-- At an edge of the graph the checked choice is the choice. -/
theorem choose?_eq {classes : Classes} {incoming : Array (Option Nat)} {e : Nat}
    (hw : classes.WellFormed n) (hr : InRange n edges) (hsize : incoming.size = n)
    (he : e < edges.size) :
    choose? edges classes incoming e = some (choose edges classes incoming e) := by
  have htarget : edges[e].target < n := by
    rw [← target_of_lt he]
    exact hr.target_lt he
  rw [choose?, choose, target_of_lt he, Array.getElem?_eq_getElem he]
  simp only [Option.bind_eq_bind, Option.bind_some, hw.find?_eq htarget]
  exact put_of_lt (by rw [hsize]; exact hw.find_lt htarget) _

/-- Along edges of the graph the checked choices are the choices. -/
theorem foldlM_choose? {classes : Classes} {incoming : Array (Option Nat)} {l : List Nat}
    (hw : classes.WellFormed n) (hr : InRange n edges) (hsize : incoming.size = n)
    (hl : ∀ e ∈ l, e < edges.size) :
    l.foldlM (choose? edges classes) incoming = some (l.foldl (choose edges classes) incoming) := by
  induction l generalizing incoming with
  | nil => rfl
  | cons e l ih =>
    rw [List.forall_mem_cons] at hl
    rw [List.foldlM_cons, choose?_eq hw hr hsize hl.1]
    exact ih (by rw [size_choose, hsize]) hl.2

/-! ## Heaps on shelves -/

/-- The heaps of the classes stand in a store and share no nodes. -/
structure Shelved (n : Nat) (edges : Array WeightedEdge) (bound : Option Nat) (classes : Classes)
    (store : HeapStore) (queues : Array (Option Nat)) (heaps : Array EdgeHeap)
    (marks : Nat → List Nat) : Prop where
  size_eq : heaps.size = n
  fits : store.Fits bound
  held : ∀ r < n, classes.find r = r → ∃ root, queues[r]? = some root ∧
    HeapStore.Held bound (weight edges) store root (queue heaps r) (marks r)
  apart : ∀ r < n, ∀ r' < n, classes.find r = r → classes.find r' = r' → r ≠ r' →
    (marks r).Disjoint (marks r')

/-- A heap is replaced by one on nodes that no other class uses. -/
theorem Shelved.replace {classes classes' : Classes} {store store' : HeapStore}
    {queues : Array (Option Nat)} {heaps : Array EdgeHeap} {marks : Nat → List Nat} {rep : Nat}
    {top : Option Nat} {heap : EdgeHeap} {old new : List Nat}
    (h : Shelved n edges bound classes store queues heaps marks) (hrep : rep < queues.size)
    (hlt : rep < n) (hclasses : ∀ r < n, classes'.find r = r → r ≠ rep →
      classes.find r = r ∧ (marks r).Disjoint old)
    (hheld : HeapStore.Held bound (weight edges) store' top heap new) (hsub : new ⊆ old)
    (hw : HeapStore.Within old store store') (hfits : store'.Fits bound) :
    Shelved n edges bound classes' store' (queues.setIfInBounds rep top)
      (heaps.setIfInBounds rep heap) (Function.update marks rep new) := by
  have hheaps : ∀ r, queue (heaps.setIfInBounds rep heap) r = if r = rep then heap else
      queue heaps r := queue_set (by rw [h.size_eq]; exact hlt) heap
  have hnew : ∀ r < n, classes'.find r = r → r ≠ rep → (marks r).Disjoint new :=
    fun r hr hfind hne _ hmem hin => (hclasses r hr hfind hne).2 hmem (hsub hin)
  refine ⟨by simp [h.size_eq], hfits, fun r hr hfind => ?_, fun r hr r' hr' hfind hfind' hne => ?_⟩
  · by_cases hrr : r = rep
    · subst hrr
      exact ⟨top, by simp [hrep], by rw [hheaps, if_pos rfl, Function.update_self]; exact hheld⟩
    · obtain ⟨hold, hdisjoint⟩ := hclasses r hr hfind hrr
      obtain ⟨root, hread, hheld⟩ := h.held r hr hold
      refine ⟨root, by simpa [Ne.symm hrr] using hread, ?_⟩
      rw [hheaps, if_neg hrr, Function.update_of_ne hrr]
      exact hheld.within hw hdisjoint
  · by_cases hrr : r = rep
    · subst hrr
      rw [Function.update_self, Function.update_of_ne hne.symm]
      exact (hnew r' hr' hfind' hne.symm).symm
    · rw [Function.update_of_ne hrr]
      by_cases hrr' : r' = rep
      · subst hrr'
        rw [Function.update_self]
        exact hnew r hr hfind hrr
      · rw [Function.update_of_ne hrr']
        exact h.apart r hr r' hr' (hclasses r hr hfind hrr).1 (hclasses r' hr' hfind' hrr').1 hne

/-- The heap of a contracted cycle is put on the shelf of its representative. -/
theorem Shelved.contract {before after : Classes} {store store' : HeapStore}
    {queues : Array (Option Nat)} {heaps : Array EdgeHeap} {marks : Nat → List Nat}
    {c : Contraction} {reps : List Nat} {steps : List Step} {top : Option Nat} {heap : EdgeHeap}
    {new : List Nat} (h : Shelved n edges bound before store queues heaps marks)
    (hc : Contracts n root edges before after c reps) (hsteps : ∀ step ∈ steps, step.vertex ∈ reps)
    (hheld : HeapStore.Held bound (weight edges) store' top heap new)
    (hsub : new ⊆ steps.flatMap fun step => marks step.vertex)
    (hw : HeapStore.Within (steps.flatMap fun step => marks step.vertex) store store')
    (hfits : store'.Fits bound) :
    put queues c.representative top = some (queues.setIfInBounds c.representative top) ∧
      Shelved n edges bound after store' (queues.setIfInBounds c.representative top)
        (heaps.setIfInBounds c.representative heap)
        (Function.update marks c.representative new) := by
  obtain ⟨hlt, hown⟩ := hc.reps_root _ hc.representative_mem
  obtain ⟨_, hread, -⟩ := h.held _ hlt hown
  refine ⟨put_of_lt (lt_size_of_read hread) top, h.replace (lt_size_of_read hread) hlt
    (fun r hr hfind hne => ?_) hheld hsub hw hfits⟩
  obtain ⟨hout, hold⟩ := (hc.find_eq_self_iff.1 hfind).resolve_left hne
  refine ⟨hold, fun j hj hin => ?_⟩
  obtain ⟨step, hstep, hin⟩ := List.mem_flatMap.1 hin
  obtain ⟨hlt', hown'⟩ := hc.reps_root _ (hsteps step hstep)
  exact h.apart r hr _ hlt' hold hown' (fun heq => hout (heq ▸ hsteps step hstep)) hj hin

/-- The heaps of different classes use different nodes. -/
theorem Shelved.nodup_marks {classes : Classes} {store : HeapStore}
    {queues : Array (Option Nat)} {heaps : Array EdgeHeap} {marks : Nat → List Nat}
    {path : List Step} (h : Shelved n edges bound classes store queues heaps marks)
    (hpath : ∀ step ∈ path, step.vertex < n ∧ classes.find step.vertex = step.vertex)
    (hnodup : (path.map (·.vertex)).Nodup) :
    ([] ++ path.flatMap fun step : Step => marks step.vertex).Nodup := by
  rw [List.nil_append, List.nodup_flatMap]
  refine ⟨fun step hstep => ?_, (List.pairwise_map.1 hnodup).imp_of_mem fun ha hb hne => ?_⟩
  · obtain ⟨_, -, hheld⟩ := h.held _ (hpath step hstep).1 (hpath step hstep).2
    exact hheld.nodup
  · exact h.apart _ (hpath _ ha).1 _ (hpath _ hb).1 (hpath _ ha).2 (hpath _ hb).2 hne

/-- An entry of an edge of the graph, with a weight within the bound, if there is one. -/
structure Proper (n : Nat) (edges : Array WeightedEdge) (bound : Option Nat)
    (entry : WeightedEdge × Nat) : Prop where
  target_lt : entry.1.target < n
  weight_eq : entry.1.weight = weight edges entry.2
  within : ∀ b ∈ bound, 0 ≤ entry.1.weight ∧ entry.1.weight ≤ b

/-- An edge is put on the shelf of its target. -/
theorem Shelved.enter {store : HeapStore} {queues : Array (Option Nat)} {heaps : Array EdgeHeap}
    {marks : Nat → List Nat} {entry : WeightedEdge × Nat}
    (h : Shelved n edges bound (.discrete n) store queues heaps marks) (root : Nat)
    (hallows : HeapStore.Allows bound allowed) (he : Proper n edges bound entry) :
    ∃ store' queues' marks', enter allowed root (store, queues) entry = some (store', queues') ∧
      Shelved n edges bound (.discrete n) store' queues' (enqueue root heaps entry) marks' := by
  obtain ⟨e, index⟩ := entry
  by_cases hout : e.source = e.target ∨ e.target = root
  · refine ⟨store, queues, marks, if_pos hout, ?_⟩
    rw [enqueue, if_pos hout]
    exact h
  · have hown := Classes.find_discrete n
    obtain ⟨top, hread, hheld⟩ := h.held _ he.target_lt (hown _)
    obtain ⟨hkeeps, hw⟩ := HeapStore.Keeps.singleton store index e.weight
    have htame : (EdgeHeap.singleton index e.weight).Tame bound (weight edges) :=
      .singleton fun b hb => ⟨he.weight_eq, he.within b hb⟩
    have hfits := hkeeps.holds.fits htame hw (List.Subset.refl _) h.fits
    -- the new node stands behind all others
    have hnew : ∀ r < n, (marks r).Disjoint [store.nodes.size] := by
      intro r hr j hj hin
      obtain ⟨_, -, hheld⟩ := h.held r hr (hown r)
      rw [List.mem_singleton.1 hin] at hj
      exact Nat.lt_irrefl _ (hheld.holds.mem_lt _ hj)
    obtain ⟨top', store', new, hmerge, hheld', hperm, hw', hfits'⟩ :=
      (hheld.within hw (hnew _ he.target_lt)).mergeIn ⟨hkeeps, htame⟩ (hnew _ he.target_lt) hfits
        hallows
    have hlt := lt_size_of_read hread
    refine ⟨store', queues.setIfInBounds e.target top', Function.update marks e.target new, ?_, ?_⟩
    · rw [Edmonds.enter, if_neg hout]
      simp only [Option.bind_eq_bind, hread, Option.bind_some, HeapStore.singleton] at hmerge ⊢
      rw [hmerge]
      simp only [Option.bind_some, put_of_lt hlt]
      rfl
    · rw [enqueue, if_neg hout]
      refine h.replace hlt he.target_lt (fun r hr _ hne => ⟨hown r, ?_⟩) hheld' hperm.subset
        ((hw.mono (List.subset_append_right _ _)).trans hw') hfits'
      exact List.disjoint_append_right.2
        ⟨h.apart r hr _ he.target_lt (hown r) (hown _) hne, hnew r hr⟩

/-- The edges of a graph are put on the shelves of their targets, one after the other. -/
theorem Shelved.foldlM_enter {store : HeapStore} {queues : Array (Option Nat)}
    {heaps : Array EdgeHeap} {marks : Nat → List Nat} {l : List (WeightedEdge × Nat)}
    (h : Shelved n edges bound (.discrete n) store queues heaps marks) (root : Nat)
    (hallows : HeapStore.Allows bound allowed) (hl : ∀ entry ∈ l, Proper n edges bound entry) :
    ∃ store' queues' marks', l.foldlM (Edmonds.enter allowed root) (store, queues) =
        some (store', queues') ∧
      Shelved n edges bound (.discrete n) store' queues' (l.foldl (enqueue root) heaps) marks' := by
  induction l generalizing store queues heaps marks with
  | nil => exact ⟨store, queues, marks, rfl, h⟩
  | cons entry l ih =>
    rw [List.forall_mem_cons] at hl
    obtain ⟨store', queues', marks', henter, h'⟩ := h.enter root hallows hl.1
    obtain ⟨store'', queues'', marks'', hrest, h''⟩ := ih h' hl.2
    refine ⟨store'', queues'', marks'', ?_, h''⟩
    rw [List.foldlM_cons, henter]
    exact hrest

/-- The edges of a heap. -/
def edgesOf (h : EdgeHeap) : List Nat := h.items.map (·.1)

/-- Shifting the weights moves no edge. -/
theorem edgesOf_shift (amount : Int) (h : EdgeHeap) : edgesOf (h.shift amount) = edgesOf h := by
  rw [edgesOf, EdgeHeap.items_shift, List.map_map]
  rfl

/-- Taking the first item off a heap takes its edge and no other. -/
theorem edgesOf_pop {h : EdgeHeap} {item : Nat × Int} (htop : h.top? = some item) :
    (edgesOf h).Perm (item.1 :: edgesOf h.pop) :=
  (EdgeHeap.items_pop htop).map Prod.fst

/-- What a search has in store: its heaps, and no edge twice in them or among those that were
taken off. -/
structure Stocked (n : Nat) (edges : Array WeightedEdge) (bound : Option Nat) (classes : Classes)
    (store : HeapStore) (queues : Array (Option Nat)) (popped : List Nat)
    (heaps : Array EdgeHeap) : Prop where
  grown : Classes.Grown n classes
  shelved : ∃ marks, Shelved n edges bound classes store queues heaps marks
  fresh : ∀ r < n, classes.find r = r → (popped ++ edgesOf (queue heaps r)).Nodup
  target : ∀ r < n, classes.find r = r → ∀ e ∈ edgesOf (queue heaps r),
    classes.find (Edmonds.target edges e) = r

namespace Stocked

variable {classes : Classes} {store store' : HeapStore} {queues : Array (Option Nat)}
  {popped : List Nat} {heaps : Array EdgeHeap}

/-- An edge is taken off the heap of a class. -/
theorem pop (h : Stocked n edges bound classes store queues popped heaps) {u e : Nat} (hu : u < n)
    (hfind : classes.find u = u) {marks : Nat → List Nat}
    (hshelved : Shelved n edges bound classes store queues heaps marks) {top : Option Nat}
    {heap : EdgeHeap} {new : List Nat}
    (hheld : HeapStore.Held bound (weight edges) store' top heap new) (hsub : new ⊆ marks u)
    (hw : HeapStore.Within (marks u) store store') (hfits : store'.Fits bound)
    (hedges : (edgesOf (queue heaps u)).Perm (e :: edgesOf heap)) :
    put queues u top = some (queues.setIfInBounds u top) ∧
    Stocked n edges bound classes store' (queues.setIfInBounds u top) (e :: popped)
      (heaps.setIfInBounds u heap) := by
  obtain ⟨_, hread, -⟩ := hshelved.held u hu hfind
  have hqueue : ∀ r, queue (heaps.setIfInBounds u heap) r = if r = u then heap else
      queue heaps r := queue_set (by rw [hshelved.size_eq]; exact hu) heap
  have hmem : e ∈ edgesOf (queue heaps u) := hedges.mem_iff.2 List.mem_cons_self
  refine ⟨put_of_lt (lt_size_of_read hread) top, h.grown, ⟨_, hshelved.replace
    (lt_size_of_read hread) hu (fun r hr hr' hne => ⟨hr', hshelved.apart r hr u hu hr' hfind hne⟩)
    hheld hsub hw hfits⟩, fun r hr hr' => ?_, fun r hr hr' f hf => ?_⟩
  · rw [hqueue]
    split
    · have hnodup := ((hedges.append_left popped).nodup_iff).1 (h.fresh u hu hfind)
      exact (List.perm_middle.nodup_iff).1 hnodup
    · rename_i hne
      rw [List.cons_append, List.nodup_cons]
      refine ⟨fun hin => ?_, h.fresh r hr hr'⟩
      rcases List.mem_append.1 hin with hin | hin
      · exact (List.nodup_append.1 (h.fresh u hu hfind)).2.2 e hin e hmem rfl
      · exact hne ((h.target r hr hr' e hin).symm.trans (h.target u hu hfind e hmem))
  · rw [hqueue] at hf
    split at hf
    · rename_i hru
      subst hru
      exact h.target r hr hr' f (hedges.mem_iff.2 (List.mem_cons_of_mem _ hf))
    · exact h.target r hr hr' f hf

/-- A cycle is contracted. -/
theorem contract {s s' : State} {rep : Nat} {steps : List Step} {reps : List Nat}
    {queues' : Array (Option Nat)}
    (h : Stocked n edges bound s.classes store queues popped s.queues)
    (hc : Closed n root edges s s' rep steps reps) (hnodup : (s.path.map (·.vertex)).Nodup)
    (hgrown : Classes.Grown n s'.classes)
    (hshelved : ∃ marks, Shelved n edges bound s'.classes store' queues' s'.queues marks) :
    Stocked n edges bound s'.classes store' queues' popped s'.queues := by
  obtain ⟨c, rfl, -, -, hcontracts⟩ := hc.contracts
  have hroot : ∀ step ∈ steps, step.vertex ∈ reps ∧ step.vertex < n ∧
      s.classes.find step.vertex = step.vertex := fun step hstep =>
    have hmem := (hc.mem_reps _).2 ⟨step, hstep, rfl⟩
    ⟨hmem, hcontracts.reps_root _ hmem⟩
  have hedges : (edgesOf (queue s'.queues c.representative)).Perm
      (steps.flatMap fun step => edgesOf (queue s.queues step.vertex)) := by
    have hitems := hc.items.map Prod.fst
    rwa [List.map_flatMap] at hitems
  refine ⟨hgrown, hshelved, fun r hr hfind => ?_, fun r hr hfind e he => ?_⟩
  · rcases hcontracts.find_eq_self_iff.1 hfind with rfl | ⟨hout, hold⟩
    · obtain ⟨hlt, hown⟩ := hcontracts.reps_root _ hcontracts.representative_mem
      rw [(hedges.append_left popped).nodup_iff, List.nodup_append', List.nodup_flatMap]
      refine ⟨(List.nodup_append'.1 (h.fresh _ hlt hown)).1, ⟨fun step hstep => ?_, ?_⟩, ?_⟩
      · obtain ⟨-, hlt, hown⟩ := hroot step hstep
        exact (List.nodup_append'.1 (h.fresh _ hlt hown)).2.1
      · rw [hc.path_eq, List.map_append, List.nodup_append'] at hnodup
        refine (List.pairwise_map.1 hnodup.1).imp_of_mem fun ha hb hne e hea heb => hne ?_
        rw [← h.target _ (hroot _ ha).2.1 (hroot _ ha).2.2 e hea,
          h.target _ (hroot _ hb).2.1 (hroot _ hb).2.2 e heb]
      · intro e he hin
        obtain ⟨step, hstep, hin⟩ := List.mem_flatMap.1 hin
        obtain ⟨-, hlt, hown⟩ := hroot step hstep
        exact (List.nodup_append'.1 (h.fresh _ hlt hown)).2.2 he hin
    · rw [hc.queue_ne r (hcontracts.ne_representative hout)]
      exact h.fresh r hr hold
  · rcases hcontracts.find_eq_self_iff.1 hfind with rfl | ⟨hout, hold⟩
    · obtain ⟨step, hstep, hin⟩ := List.mem_flatMap.1 (hedges.mem_iff.1 he)
      obtain ⟨hmem, hlt, hown⟩ := hroot step hstep
      rw [hcontracts.find_eq_representative_iff, h.target _ hlt hown e hin]
      exact hmem
    · rw [hc.queue_ne r (hcontracts.ne_representative hout)] at he
      exact (hcontracts.find_eq_iff hout).2 (h.target r hr hold e he)

end Stocked

/-! ## The way back along a walk -/

/-- What comes out of a contraction in a store is what comes out of it by itself; it was made on
the nodes of the steps that were taken back. -/
structure Merges (n : Nat) (edges : Array WeightedEdge) (bound : Option Nat)
    (marks : Nat → List Nat) (store : HeapStore) (old : List Nat) (path : List Step)
    (want : Contracted) (done : Gathered) : Prop where
  classes_eq : done.classes = want.classes
  cycle_eq : done.cycle = want.cycle
  path_eq : done.path = want.path
  grown : Classes.Grown n want.classes
  fits : done.heaps.Fits bound
  held : ∃ steps new, path = steps ++ want.path ∧
    HeapStore.Held bound (weight edges) done.heaps done.merged want.heap new ∧
    new ⊆ old ++ steps.flatMap (fun step => marks step.vertex) ∧
    HeapStore.Within (old ++ steps.flatMap fun step => marks step.vertex) store done.heaps

/-- The heaps along a walk are merged in the store as they are merged by themselves.  The way
back comes to the class where the walk was closed. -/
theorem gather_eq {queues : Array (Option Nat)} {heaps : Array EdgeHeap} {marks : Nat → List Nat}
    {u : Nat} (hu : u < n) (hallows : HeapStore.Allows bound allowed) {path : List Step}
    {store : HeapStore} {merged : Option Nat} {heap : EdgeHeap} {c : Classes} {old : List Nat}
    (cycle : List Nat)
    (hgrown : Classes.Grown n c) (hfits : store.Fits bound)
    (hmerged : HeapStore.Held bound (weight edges) store merged heap old)
    (hpath : ∀ step ∈ path, step.vertex < n ∧ ∃ root, queues[step.vertex]? = some root ∧
      HeapStore.Held bound (weight edges) store root (queue heaps step.vertex) (marks step.vertex))
    (hnodup : (old ++ path.flatMap fun step => marks step.vertex).Nodup)
    (hmem : ∃ step ∈ path, step.vertex = u) :
    ∃ done, gather allowed queues u store merged c cycle path = some done ∧
      Merges n edges bound marks store old path (contract heaps u heap c cycle path) done := by
  induction path generalizing store merged heap c cycle old with
  | nil => simp at hmem
  | cons step path ih =>
    obtain ⟨⟨hlt, top, hread, hheld⟩, hrest⟩ := List.forall_mem_cons.1 hpath
    rw [List.flatMap_cons, ← List.append_assoc] at hnodup
    obtain ⟨hhere, -, hlater⟩ := List.nodup_append'.1 hnodup
    obtain ⟨top', store', marks', hmerge, hheap, hperm, hw, hfits'⟩ :=
      hmerged.mergeIn hheld (List.disjoint_of_nodup_append hhere) hfits hallows
    rw [gather, hread, contract]
    simp only [Option.bind_eq_bind, Option.bind_some, hmerge, hgrown.wellFormed.union?_eq hu hlt]
    by_cases hsame : c.find u = c.find step.vertex
    · rw [Classes.union_of_eq hsame]
      refine ⟨_, rfl, rfl, rfl, rfl, hgrown, hfits', [step], marks', rfl, hheap, ?_, ?_⟩
      · simpa using hperm.subset
      · simpa using hw
    · obtain ⟨rootOf, child, hunion, hl, -⟩ := hgrown.wellFormed.union_of_ne hu hlt hsame
      rw [hunion]
      have hnodup' : (marks' ++ path.flatMap fun step => marks step.vertex).Nodup :=
        ((hperm.append_right _).nodup_iff).2 hnodup
      have hmem' : ∃ step ∈ path, step.vertex = u := by
        obtain ⟨other, hother, rfl⟩ := hmem
        rcases List.mem_cons.1 hother with rfl | hother
        · exact absurd rfl hsame
        · exact ⟨other, hother, rfl⟩
      have hrest' : ∀ other ∈ path, other.vertex < n ∧ ∃ root, queues[other.vertex]? = some root ∧
          HeapStore.Held bound (weight edges) store' root (queue heaps other.vertex)
            (marks other.vertex) := by
        intro other hother
        obtain ⟨hlt, root, hread, hheld⟩ := hrest other hother
        refine ⟨hlt, root, hread, hheld.within hw fun j hj hin => ?_⟩
        exact hlater hin (List.mem_flatMap.2 ⟨other, hother, hj⟩)
      obtain ⟨done, hdone, hclasses, hcycle, hpath', hgrown', hfits'', steps, new, hsteps, hheld',
        hsub, hw'⟩ := ih (step.edge :: cycle) (hgrown.link hl) hfits' hheap hrest' hnodup' hmem'
      have hspent : marks' ++ steps.flatMap (fun step => marks step.vertex) ⊆
          old ++ (step :: steps).flatMap fun step => marks step.vertex := by
        rw [List.flatMap_cons, ← List.append_assoc]
        exact (hperm.append_right _).subset
      refine ⟨done, hdone, hclasses, hcycle, hpath', hgrown', hfits'', step :: steps, new, ?_,
        hheld', List.Subset.trans hsub hspent, (hw.mono ?_).trans (hw'.mono hspent)⟩
      · rw [List.cons_append, ← hsteps]
      · rw [List.flatMap_cons, ← List.append_assoc]
        exact List.subset_append_left _ _

end Edmonds

end FuzzCampaign

import FuzzCampaign.Proofs.Arborescence.Contraction

/-!
# Heaps, charges and picked edges during the walks

When a class is left by an edge, the class is charged the current weight of that
edge.  The heap of a class holds the edges into it, each with its weight less
what the charges ask of it; the amounts that are pending in the heaps thus are
the charges.  No edge is ever asked for more than its weight, unless it leads
into a single vertex that was not left yet, and a picked edge is asked for
exactly its weight.

Main definitions:

- `Priced`: the invariant that relates the heaps, the charges and the picks.
- `Left` and `Closed`: what leaving a class and contracting a cycle do to a state.

Main results:

- `Priced.leave`: leaving a class keeps the invariant.
- `Priced.contract`: contracting a cycle keeps the invariant.
- `Priced.not_reaches`: a class without an edge from outside is not reachable.
-/

namespace FuzzCampaign

namespace Edmonds

open Relation

variable {n root : Nat} {edges : Array WeightedEdge}

/-- The start of the walk that visited a class. -/
def State.visited (s : State) (v : Nat) : Option Nat := s.seen[v]?.join

/-- The heaps hold the edges into every class at the weights that the charges
leave, and `picks` are the edges by which the visited classes were left. -/
structure Priced (n root : Nat) (edges : Array WeightedEdge) (s : State)
    (charges : List Charge) (picks : Nat → Option Nat) : Prop where
  nested : Nested n root edges s.classes s.contractions charges
  sound : ∀ c ∈ charges, c.Sound n root
  size_queues : s.queues.size = n
  size_seen : s.seen.size = n
  visited_root : s.visited root = some root
  ordered : ∀ v, (queue s.queues v).Ordered
  item : ∀ r < n, s.classes.find r = r → ∀ item ∈ (queue s.queues r).items,
    Candidate root edges item.1 ∧ s.classes.find (target edges item.1) = r ∧
      (s.classes.find (source edges item.1) ≠ r → item.2 = reduced edges charges item.1)
  complete : ∀ e, Candidate root edges e →
    s.classes.find (source edges e) ≠ s.classes.find (target edges e) →
    (∃ w, (e, w) ∈ (queue s.queues (s.classes.find (target edges e))).items) ∨
      picks (s.classes.find (target edges e)) = some e
  nonneg : ∀ e, Candidate root edges e → 0 ≤ reduced edges charges e ∨
    s.visited (s.classes.find (target edges e)) = none ∧
      ∀ v, s.classes.find v = s.classes.find (target edges e) → v = target edges e
  picked : ∀ r < n, s.classes.find r = r → ∀ e, picks r = some e →
    (Step.mk r e).Valid n root edges s.classes ∧ reduced edges charges e = 0
  visited_iff : ∀ r < n, s.classes.find r = r → r ≠ root →
    ((s.visited r).isSome ↔ (picks r).isSome)

namespace Priced
variable {s : State} {charges : List Charge} {picks : Nat → Option Nat}

/-- The classes of a priced state are well formed. -/
theorem wellFormed (h : Priced n root edges s charges picks) : s.classes.WellFormed n :=
  h.nested.wellFormed

/-- The root is a vertex. -/
theorem root_lt (h : Priced n root edges s charges picks) : root < n := by
  by_contra hge
  have hnone : s.seen[root]? = none :=
    Array.getElem?_eq_none (by rw [h.size_seen]; exact Nat.le_of_not_lt hge)
  have hvisited := h.visited_root
  simp [State.visited, hnone] at hvisited

/-- What no walk has seen is not the root. -/
theorem ne_root (h : Priced n root edges s charges picks) {u : Nat}
    (hu : s.visited u = none) : u ≠ root := by
  rintro rfl
  rw [h.visited_root] at hu
  exact absurd hu (by simp)

/-- Nothing was picked into a class that no walk has seen. -/
theorem picks_eq_none (h : Priced n root edges s charges picks) {u : Nat} (hlt : u < n)
    (hfind : s.classes.find u = u) (hu : s.visited u = none) : picks u = none := by
  have hiff := h.visited_iff u hlt hfind (h.ne_root hu)
  rw [hu] at hiff
  simpa using hiff

/-- A class that is left without an edge from outside cannot be reached from the
root. -/
theorem not_reaches (h : Priced n root edges s charges picks) {u : Nat}
    (hlt : u < n) (hfind : s.classes.find u = u) (hu : s.visited u = none)
    (hnil : dropInternal edges s.classes u (queue s.queues u) = .nil) :
    ¬ Reaches edges root u := by
  have hinside := source_of_dropInternal_eq_nil (h.ordered u) hnil
  intro hreach
  -- along the way from the root some edge is the first into the class of `u`
  have hout : ∀ v, Reaches edges root v → s.classes.find v ≠ u := by
    intro v hv
    induction hv with
    | refl =>
      intro hroot
      exact h.ne_root hu (hroot.symm.trans (h.nested.find_eq_root_iff.2 rfl))
    | tail _ hstep ih =>
      obtain ⟨e, he, rfl, rfl⟩ := hstep
      obtain ⟨i, hi, rfl⟩ := Array.getElem_of_mem he
      rw [← source_of_lt hi] at ih
      rw [← target_of_lt hi]
      intro htarget
      have hcand : Candidate root edges i := by
        refine ⟨hi, ?_, ?_⟩
        · intro heq
          exact ih (heq ▸ htarget)
        · intro heq
          rw [heq, h.nested.find_eq_root_iff.2 rfl] at htarget
          exact h.ne_root hu htarget.symm
      have hcross : s.classes.find (source edges i) ≠ s.classes.find (target edges i) := by
        rw [htarget]
        exact ih
      rcases h.complete i hcand hcross with ⟨w, hw⟩ | hpick
      · rw [htarget] at hw
        exact ih (hinside (i, w) hw)
      · rw [htarget, h.picks_eq_none hlt hfind hu] at hpick
        exact absurd hpick (by simp)
  exact hout u hreach hfind

end Priced

/-! ## Leaving a class -/

/-- One queue is replaced and the others stay. -/
theorem queue_set {queues : Array EdgeHeap} {u : Nat} (hu : u < queues.size) (heap : EdgeHeap)
    (v : Nat) : queue (queues.setIfInBounds u heap) v = if v = u then heap else queue queues v := by
  simp only [queue, Array.getElem?_setIfInBounds]
  by_cases hv : v = u
  · subst hv
    simp [hu]
  · simp [hv, Ne.symm hv]

/-- One mark is set and the others stay. -/
theorem join_set {seen : Array (Option Nat)} {u : Nat} (hu : u < seen.size) (mark : Option Nat)
    (v : Nat) : (seen.setIfInBounds u mark)[v]?.join = if v = u then mark else seen[v]?.join := by
  simp only [Array.getElem?_setIfInBounds]
  by_cases hv : v = u
  · subst hv
    simp [hu]
  · simp [hv, Ne.symm hv]

/-- The class `u` was left by the edge `e` at the price `k`, on the walk from
`start`. -/
structure Left (edges : Array WeightedEdge) (s s' : State) (start u e : Nat) (k : Int) : Prop where
  classes_eq : s'.classes = s.classes
  contractions_eq : s'.contractions = s.contractions
  path_eq : s'.path = ⟨u, e⟩ :: s.path
  size_queues : s'.queues.size = s.queues.size
  size_seen : s'.seen.size = s.seen.size
  visited_eq : ∀ v, s'.visited v = if v = u then some start else s.visited v
  departure : Departure edges s.classes u e k (queue s.queues u) (queue s'.queues u)
  queue_ne : ∀ v, v ≠ u → queue s'.queues v = queue s.queues v

/-- Following the first edge out of a heap leaves the class for the price of that edge. -/
theorem left_leave {s : State} {start u e : Nat} {k d : Int} {l r : EdgeHeap} {rank : Nat}
    (hq : u < s.queues.size) (hs : u < s.seen.size) (ho : (queue s.queues u).Ordered)
    (hd : dropInternal edges s.classes u (queue s.queues u) = .node e k d l r rank) :
    Left edges s (s.leave start u e k (.node e k d l r rank)) start u e k := by
  refine ⟨rfl, rfl, rfl, by simp [State.leave], by simp [State.leave], ?_, ?_, ?_⟩
  · intro v
    exact join_set hs _ v
  · simp only [State.leave]
    rw [queue_set hq, if_pos rfl]
    exact departure_of_dropInternal ho hd
  · intro v hv
    simp only [State.leave]
    rw [queue_set hq, if_neg hv]

namespace Priced
variable {s s' : State} {charges : List Charge} {picks : Nat → Option Nat}

/-- An edge from inside a class may be dropped from its heap. -/
theorem drop (h : Priced n root edges s charges picks) {u : Nat} (hlt : u < n) {heap : EdgeHeap}
    (ho : heap.Ordered) {gone : Nat × Int}
    (hperm : (queue s.queues u).items.Perm (gone :: heap.items))
    (hgone : s.classes.find (source edges gone.1) = u) :
    Priced n root edges { s with queues := s.queues.setIfInBounds u heap } charges picks := by
  have hqueue := queue_set (by rw [h.size_queues]; exact hlt) heap
  refine ⟨h.nested, h.sound, by simp [h.size_queues], h.size_seen, h.visited_root, ?_, ?_, ?_,
    h.nonneg, h.picked, h.visited_iff⟩
  · intro v
    rw [hqueue]
    split
    · exact ho
    · exact h.ordered v
  · intro r hr hfind item hitem
    rw [hqueue] at hitem
    split at hitem
    · rename_i hru
      subst hru
      exact h.item r hr hfind item (hperm.mem_iff.2 (List.mem_cons_of_mem _ hitem))
    · exact h.item r hr hfind item hitem
  · intro e hcand hcross
    rcases h.complete e hcand hcross with ⟨w, hw⟩ | hpick
    · refine Or.inl ⟨w, ?_⟩
      rw [hqueue]
      split
      · rename_i hru
        rw [hru] at hw hcross
        rcases List.mem_cons.1 (hperm.mem_iff.1 hw) with rfl | hkept
        · exact absurd hgone hcross
        · exact hkept
      · exact hw
    · exact Or.inr hpick

/-- The step by which a class is left. -/
theorem step_valid (h : Priced n root edges s charges picks) {start u e : Nat} {k : Int}
    (hlt : u < n) (hfind : s.classes.find u = u) (hleft : Left edges s s' start u e k) :
    (Step.mk u e).Valid n root edges s.classes ∧ k = reduced edges charges e := by
  obtain ⟨hcand, htarget, hweight⟩ := h.item u hlt hfind _ hleft.departure.mem
  exact ⟨⟨hlt, hfind, hcand, htarget, hleft.departure.external⟩,
    hweight hleft.departure.external⟩

/-- What the charge of a class leaves of the weight of an edge. -/
theorem reduced_charge (h : Priced n root edges s charges picks) {u : Nat} (hlt : u < n)
    (k : Int) (e : Nat) :
    reduced edges (⟨s.classes.members u, k⟩ :: charges) e =
      if s.classes.find (target edges e) = u ∧ s.classes.find (source edges e) ≠ u then
        reduced edges charges e - k
      else reduced edges charges e := by
  have hentered : (Charge.mk (s.classes.members u) k).Entered edges e ↔
      s.classes.find (target edges e) = u ∧ s.classes.find (source edges e) ≠ u :=
    entered_members_iff h.wellFormed hlt
  split
  · rename_i hin
    exact reduced_cons_of_entered (hentered.2 hin)
  · rename_i hin
    exact reduced_cons_of_not_entered (mt hentered.1 hin)

/-- The charge of a class that is left for the first time is sound. -/
theorem charge_sound (h : Priced n root edges s charges picks) {start u e : Nat} {k : Int}
    (hlt : u < n) (hfind : s.classes.find u = u) (hu : s.visited u = none)
    (hleft : Left edges s s' start u e k) :
    (Charge.mk (s.classes.members u) k).Sound n root := by
  obtain ⟨hvalid, hk⟩ := h.step_valid hlt hfind hleft
  have htarget : s.classes.find (target edges e) = u := hvalid.find_target
  have hmem := fun v => Classes.mem_members h.wellFormed.toForest (v := u) (w := v)
  refine ⟨⟨u, (hmem u).2 ⟨hlt, hfind⟩, hlt⟩, ?_, ?_⟩
  · rw [hmem]
    rintro ⟨-, hroot⟩
    exact h.ne_root hu (hroot.symm.trans (h.nested.find_eq_root_iff.2 rfl))
  · rcases h.nonneg e hvalid.candidate with hnonneg | ⟨-, hsingle⟩
    · refine Or.inr ?_
      rw [hk]
      exact hnonneg
    · refine Or.inl ⟨u, ?_⟩
      rw [htarget] at hsingle
      ext v
      rw [hmem, Finset.mem_singleton]
      constructor
      · rintro ⟨-, hv⟩
        exact (hsingle v hv).trans (hsingle u hfind).symm
      · rintro rfl
        exact ⟨hlt, hfind⟩

/-- After a class was left, no edge into it is asked for more than its weight. -/
theorem nonneg_leave (h : Priced n root edges s charges picks) {start u e : Nat} {k : Int}
    (hlt : u < n) (hfind : s.classes.find u = u) (hu : s.visited u = none)
    (hleft : Left edges s s' start u e k) {f : Nat} (hcand : Candidate root edges f) :
    0 ≤ reduced edges (⟨s.classes.members u, k⟩ :: charges) f ∨
      s'.visited (s.classes.find (target edges f)) = none ∧
        ∀ v, s.classes.find v = s.classes.find (target edges f) → v = target edges f := by
  rw [h.reduced_charge hlt]
  by_cases hin : s.classes.find (target edges f) = u
  · left
    obtain ⟨-, hk⟩ := h.step_valid hlt hfind hleft
    by_cases hout : s.classes.find (source edges f) ≠ u
    · have hcross : s.classes.find (source edges f) ≠ s.classes.find (target edges f) := by
        rwa [hin]
      rw [if_pos ⟨hin, hout⟩]
      rcases h.complete f hcand hcross with ⟨w, hw⟩ | hpick
      · rw [hin] at hw
        have hle := (hleft.departure.precedes (f, w) hw hout).weight_le
        have hweight := (h.item u hlt hfind (f, w) hw).2.2 hout
        simp only at hle hweight
        omega
      · rw [hin, h.picks_eq_none hlt hfind hu] at hpick
        exact absurd hpick (by simp)
    · rw [if_neg fun hboth => hout hboth.2]
      rcases h.nonneg f hcand with hnonneg | ⟨-, hsingle⟩
      · exact hnonneg
      · -- an edge from inside would lead from the single vertex to itself
        refine absurd (hsingle _ ?_) hcand.source_ne_target
        rw [hin]
        exact not_not.1 hout
  · rw [if_neg fun hboth => hin hboth.1, hleft.visited_eq, if_neg hin]
    exact h.nonneg f hcand

/-- After a class was left, its heap holds the edges into it at their new
weights. -/
theorem item_leave (h : Priced n root edges s charges picks) {start u e : Nat} {k : Int}
    (hlt : u < n) (hleft : Left edges s s' start u e k) {r : Nat} (hr : r < n)
    (hfind : s.classes.find r = r) {item : Nat × Int} (hitem : item ∈ (queue s'.queues r).items) :
    Candidate root edges item.1 ∧ s.classes.find (target edges item.1) = r ∧
      (s.classes.find (source edges item.1) ≠ r →
        item.2 = reduced edges (⟨s.classes.members u, k⟩ :: charges) item.1) := by
  rw [h.reduced_charge hlt]
  by_cases hru : r = u
  · subst hru
    obtain ⟨hcand, htarget, hweight⟩ :=
      h.item r hr hfind _ (hleft.departure.of_mem_rest item hitem)
    refine ⟨hcand, htarget, ?_⟩
    intro hout
    rw [if_pos ⟨htarget, hout⟩, ← hweight hout]
    simp
  · rw [hleft.queue_ne r hru] at hitem
    obtain ⟨hcand, htarget, hweight⟩ := h.item r hr hfind item hitem
    refine ⟨hcand, htarget, ?_⟩
    rw [if_neg fun hboth => hru (htarget.symm.trans hboth.1)]
    exact hweight

/-- After a class was left, every edge between two classes is still in a heap or
picked. -/
theorem complete_leave (h : Priced n root edges s charges picks) {start u e : Nat} {k : Int}
    (hlt : u < n) (hfind : s.classes.find u = u) (hu : s.visited u = none)
    (hleft : Left edges s s' start u e k) {f : Nat} (hcand : Candidate root edges f)
    (hcross : s.classes.find (source edges f) ≠ s.classes.find (target edges f)) :
    (∃ w, (f, w) ∈ (queue s'.queues (s.classes.find (target edges f))).items) ∨
      Function.update picks u (some e) (s.classes.find (target edges f)) = some f := by
  by_cases hfu : s.classes.find (target edges f) = u
  · rw [hfu, Function.update_self]
    rcases h.complete f hcand hcross with ⟨w, hw⟩ | hpick
    · rw [hfu] at hw hcross
      rcases hleft.departure.mem_rest (f, w) hw hcross with hfe | hrest
      · exact Or.inr (congrArg some hfe.symm)
      · exact Or.inl ⟨_, hrest⟩
    · rw [hfu, h.picks_eq_none hlt hfind hu] at hpick
      exact absurd hpick (by simp)
  · rw [hleft.queue_ne _ hfu, Function.update_of_ne hfu]
    exact h.complete f hcand hcross

/-- Leaving a class charges it and keeps the invariant. -/
theorem leave (h : Priced n root edges s charges picks) {start u e : Nat} {k : Int}
    (hlt : u < n) (hfind : s.classes.find u = u) (hu : s.visited u = none)
    (hleft : Left edges s s' start u e k) :
    Priced n root edges s' (⟨s.classes.members u, k⟩ :: charges)
      (Function.update picks u (some e)) := by
  have hne := h.ne_root hu
  obtain ⟨hvalid, hk⟩ := h.step_valid hlt hfind hleft
  refine ⟨?_, ?_, ?_, ?_, ?_, ?_, ?_, ?_, ?_, ?_, ?_⟩
  · rw [hleft.classes_eq, hleft.contractions_eq]
    exact h.nested.charge k hlt hfind hne
  · intro c hc
    rcases List.mem_cons.1 hc with rfl | hc
    · exact h.charge_sound hlt hfind hu hleft
    · exact h.sound c hc
  · rw [hleft.size_queues, h.size_queues]
  · rw [hleft.size_seen, h.size_seen]
  · rw [hleft.visited_eq, if_neg hne.symm, h.visited_root]
  · intro v
    by_cases hv : v = u
    · subst hv
      exact hleft.departure.ordered
    · rw [hleft.queue_ne v hv]
      exact h.ordered v
  · rw [hleft.classes_eq]
    intro r hr hrfind item hitem
    exact h.item_leave hlt hleft hr hrfind hitem
  · rw [hleft.classes_eq]
    intro f hcand hcross
    exact h.complete_leave hlt hfind hu hleft hcand hcross
  · rw [hleft.classes_eq]
    intro f hcand
    exact h.nonneg_leave hlt hfind hu hleft hcand
  · rw [hleft.classes_eq]
    intro r hr hrfind f hf
    rw [h.reduced_charge hlt]
    by_cases hru : r = u
    · subst hru
      rw [Function.update_self, Option.some.injEq] at hf
      subst hf
      refine ⟨hvalid, ?_⟩
      rw [if_pos ⟨hvalid.find_target, hvalid.find_source⟩, hk, sub_self]
    · rw [Function.update_of_ne hru] at hf
      obtain ⟨hfvalid, hzero⟩ := h.picked r hr hrfind f hf
      refine ⟨hfvalid, ?_⟩
      rw [if_neg fun hboth => hru (hfvalid.find_target.symm.trans hboth.1), hzero]
  · rw [hleft.classes_eq]
    intro r hr hrfind hroot
    rw [hleft.visited_eq]
    by_cases hru : r = u
    · subst hru
      simp
    · rw [if_neg hru, Function.update_of_ne hru]
      exact h.visited_iff r hr hrfind hroot

end Priced

/-! ## Contracting a cycle -/

/-- The steps of a walk that left a class, by the edge that was picked for it. -/
structure PathStep (n root : Nat) (edges : Array WeightedEdge) (s : State) (start : Nat)
    (picks : Nat → Option Nat) (step : Step) : Prop where
  valid : step.Valid n root edges s.classes
  visited : s.visited step.vertex = some start
  picks_eq : picks step.vertex = some step.edge

/-- The latest steps of the walk formed a cycle, which was contracted to a class
that counts as not visited. -/
structure Closed (n root : Nat) (edges : Array WeightedEdge) (s s' : State) (rep : Nat)
    (steps : List Step) (reps : List Nat) : Prop where
  path_eq : s.path = steps ++ s'.path
  mem_reps : ∀ r, r ∈ reps ↔ ∃ step ∈ steps, step.vertex = r
  contracts : ∃ c : Contraction, c.representative = rep ∧ s'.contractions = c :: s.contractions ∧
    (∀ e, e ∈ c.edges ↔ ∃ step ∈ steps, step.edge = e) ∧
      Contracts n root edges s.classes s'.classes c reps
  size_queues : s'.queues.size = s.queues.size
  size_seen : s'.seen.size = s.seen.size
  visited_eq : ∀ v, s'.visited v = if v = rep then none else s.visited v
  ordered : (queue s'.queues rep).Ordered
  items : (queue s'.queues rep).items.Perm
    (steps.flatMap fun step => (queue s.queues step.vertex).items)
  queue_ne : ∀ v, v ≠ rep → queue s'.queues v = queue s.queues v

/-- The contraction of a closed walk merges the cycle into one class, which stands where its
vertices stood. -/
theorem closed_contractCycle {s : State} {start u : Nat} {picks : Nat → Option Nat}
    (hw : s.classes.WellFormed n) (hq : s.queues.size = n) (hs : s.seen.size = n)
    (ho : ∀ v, (queue s.queues v).Ordered) (hlink : Linked edges s.classes u s.path)
    (hsteps : ∀ step ∈ s.path, PathStep n root edges s start picks step)
    (hnodup : (s.path.map (·.vertex)).Nodup) (hne : ∀ step ∈ s.path, step.vertex ≠ root)
    (hmem : ∃ step ∈ s.path, step.vertex = u) :
    ∃ steps reps, Closed n root edges s (s.contractCycle u).2 (s.contractCycle u).1 steps reps := by
  obtain ⟨last, hlast, hvertex⟩ := hmem
  obtain ⟨pre, rest, hpath⟩ := List.append_of_mem hlast
  rw [hpath] at hlink hsteps hnodup hne
  have hcut : pre ++ last :: rest = (pre ++ [last]) ++ rest := by simp
  have hmemcut : ∀ {step}, step ∈ pre ++ [last] → step ∈ pre ++ last :: rest := by
    intro step hstep
    rw [hcut]
    exact List.mem_append_left _ hstep
  have hlastvalid := (hsteps last (by simp)).valid
  have hu : u < n := hvertex ▸ hlastvalid.vertex_lt
  have hfind : s.classes.find u = u := by
    rw [← hvertex]
    exact hlastvalid.find_vertex
  have hnodup' : ((pre ++ [last]).map (·.vertex)).Nodup := by
    rw [hcut, List.map_append] at hnodup
    exact (List.nodup_append.1 hnodup).1
  obtain ⟨merged, joined, heq, hjoined, hord, hperm⟩ :=
    contract_eq s.queues [] rest (Classes.Joined.single hw u) hu hfind
      (List.mem_singleton_self u) hvertex EdgeHeap.ordered_nil ho
      (fun step hstep => by
        have hvalid := (hsteps step (List.mem_append_left _ hstep)).valid
        exact ⟨hvalid.vertex_lt, hvalid.find_vertex⟩)
      (hvertex ▸ nodup_representatives hnodup')
  have hcontract : contract s.queues u .nil s.classes [] s.path =
      ⟨merged, joined, ((pre ++ [last]).map (·.edge)).reverse, rest⟩ := by
    rw [hpath, heq, List.append_nil]
  have hmemreps : ∀ r, r ∈ (pre.map (·.vertex)).reverse ++ [u] ↔
      ∃ step ∈ pre ++ [last], step.vertex = r := fun r => mem_representatives hvertex r
  obtain ⟨winner, hwinner, hwin⟩ := hjoined.find_eq
  have hrep : joined.find u = winner := by
    rw [hwin, hfind, if_pos (by simp)]
  have hwroot : winner < n ∧ s.classes.find winner = winner := by
    obtain ⟨step, hstep, rfl⟩ := (hmemreps winner).1 hwinner
    have hvalid := (hsteps step (hmemcut hstep)).valid
    exact ⟨hvalid.vertex_lt, hvalid.find_vertex⟩
  have hcycle := Linked.cycle hlink.of_append.1 hvertex
    (fun step hstep => (hsteps step (hmemcut hstep)).valid) hnodup'
    (fun step hstep => hne step (hmemcut hstep))
  refine ⟨pre ++ [last], (pre.map (·.vertex)).reverse ++ [u], ?_⟩
  simp only [State.contractCycle, hcontract, hrep]
  refine ⟨hpath.trans hcut, hmemreps, ⟨_, rfl, rfl, ?_, ?_⟩, by simp, by simp, ?_, ?_, ?_, ?_⟩
  · intro e
    simp only [List.mem_reverse, List.mem_map]
  · refine ⟨hjoined, hcycle, ?_, rfl, hwinner, hwin⟩
    intro r hr
    obtain ⟨step, hstep, rfl⟩ := (hmemreps r).1 hr
    have hvalid := (hsteps step (hmemcut hstep)).valid
    exact ⟨hvalid.vertex_lt, hvalid.find_vertex⟩
  · intro v
    exact join_set (by rw [hs]; exact hwroot.1) _ v
  · rw [queue_set (by rw [hq]; exact hwroot.1), if_pos rfl]
    exact hord
  · rw [queue_set (by rw [hq]; exact hwroot.1), if_pos rfl]
    exact hperm
  · intro v hv
    rw [queue_set (by rw [hq]; exact hwroot.1), if_neg hv]

namespace Priced
variable {s s' : State} {charges : List Charge} {picks : Nat → Option Nat}

section Contract

variable {start : Nat} {c : Contraction} {steps : List Step} {reps : List Nat}

/-- After a contraction the heap of the cycle holds the edges into all its
classes. -/
theorem item_contract (h : Priced n root edges s charges picks)
    (hc : Closed n root edges s s' c.representative steps reps)
    (hcontracts : Contracts n root edges s.classes s'.classes c reps)
    (hpath : ∀ step ∈ steps, PathStep n root edges s start picks step) {r : Nat} (hr : r < n)
    (hfind : s'.classes.find r = r) {item : Nat × Int} (hitem : item ∈ (queue s'.queues r).items) :
    Candidate root edges item.1 ∧ s'.classes.find (target edges item.1) = r ∧
      (s'.classes.find (source edges item.1) ≠ r → item.2 = reduced edges charges item.1) := by
  rcases hcontracts.find_eq_self_iff.1 hfind with rfl | ⟨hmem, hold⟩
  · obtain ⟨step, hstep, hin⟩ := List.mem_flatMap.1 (hc.items.mem_iff.1 hitem)
    have hvalid := (hpath step hstep).valid
    have hreps : step.vertex ∈ reps := (hc.mem_reps _).2 ⟨step, hstep, rfl⟩
    obtain ⟨hcand, htarget, hweight⟩ := h.item _ hvalid.vertex_lt hvalid.find_vertex item hin
    refine ⟨hcand, hcontracts.find_eq_representative_iff.2 (htarget ▸ hreps), ?_⟩
    intro hout
    refine hweight fun hsource => hout ?_
    exact hcontracts.find_eq_representative_iff.2 (hsource ▸ hreps)
  · rw [hc.queue_ne r (hcontracts.ne_representative hmem)] at hitem
    obtain ⟨hcand, htarget, hweight⟩ := h.item r hr hold item hitem
    refine ⟨hcand, (hcontracts.find_eq_iff hmem).2 htarget, ?_⟩
    intro hout
    exact hweight (mt (hcontracts.find_eq_iff hmem).2 hout)

/-- After a contraction every edge between two classes is still in a heap or
picked. -/
theorem complete_contract (h : Priced n root edges s charges picks)
    (hc : Closed n root edges s s' c.representative steps reps)
    (hcontracts : Contracts n root edges s.classes s'.classes c reps)
    (hpick : ∀ r ∈ reps, ∃ e ∈ c.edges, picks r = some e) {e : Nat}
    (hcand : Candidate root edges e)
    (hcross : s'.classes.find (source edges e) ≠ s'.classes.find (target edges e)) :
    (∃ w, (e, w) ∈ (queue s'.queues (s'.classes.find (target edges e))).items) ∨
      Function.update picks c.representative none (s'.classes.find (target edges e)) = some e := by
  have hcross' : s.classes.find (source edges e) ≠ s.classes.find (target edges e) :=
    fun heq => hcross (hcontracts.find_congr heq)
  by_cases hmem : s.classes.find (target edges e) ∈ reps
  · rw [hcontracts.find_eq_representative_iff.2 hmem] at hcross ⊢
    rcases h.complete e hcand hcross' with ⟨w, hw⟩ | hpicked
    · obtain ⟨step, hstep, hvertex⟩ := (hc.mem_reps _).1 hmem
      refine Or.inl ⟨w, hc.items.mem_iff.2 (List.mem_flatMap.2 ⟨step, hstep, ?_⟩)⟩
      rwa [hvertex]
    · -- the edge picked for a class on the cycle comes from the cycle
      obtain ⟨f, hf, hfpick⟩ := hpick _ hmem
      have hfe : f = e := Option.some.inj (hfpick.symm.trans hpicked)
      subst hfe
      exact absurd (hcontracts.find_eq_representative_iff.2
        (hcontracts.cycle.source_mem f hf)) hcross
  · have hne := hcontracts.ne_representative hmem
    rw [hcontracts.find_eq, if_neg hmem, hc.queue_ne _ hne, Function.update_of_ne hne]
    exact h.complete e hcand hcross'

/-- A contraction changes no charge and visits no class. -/
theorem nonneg_contract (h : Priced n root edges s charges picks)
    (hc : Closed n root edges s s' c.representative steps reps)
    (hcontracts : Contracts n root edges s.classes s'.classes c reps)
    (hvisited : ∀ r ∈ reps, s.visited r = some start) {e : Nat}
    (hcand : Candidate root edges e) :
    0 ≤ reduced edges charges e ∨
      s'.visited (s'.classes.find (target edges e)) = none ∧
        ∀ v, s'.classes.find v = s'.classes.find (target edges e) → v = target edges e := by
  rcases h.nonneg e hcand with hnonneg | ⟨hnot, hsingle⟩
  · exact Or.inl hnonneg
  · have hmem : s.classes.find (target edges e) ∉ reps := by
      intro hmem
      rw [hvisited _ hmem] at hnot
      exact absurd hnot (by simp)
    have hkeep : s'.classes.find (target edges e) = s.classes.find (target edges e) := by
      rw [hcontracts.find_eq, if_neg hmem]
    refine Or.inr ⟨?_, ?_⟩
    · rw [hkeep, hc.visited_eq, if_neg (hcontracts.ne_representative hmem)]
      exact hnot
    · intro v hv
      rw [hkeep] at hv
      exact hsingle v ((hcontracts.find_eq_iff hmem).1 hv)

end Contract

/-- Contracting a cycle of picked edges keeps the invariant. -/
theorem contract (h : Priced n root edges s charges picks) {start rep : Nat}
    {steps : List Step} {reps : List Nat} (hc : Closed n root edges s s' rep steps reps)
    (hsteps : ∀ step ∈ s.path, PathStep n root edges s start picks step) :
    Priced n root edges s' charges (Function.update picks rep none) := by
  obtain ⟨c, rfl, hcontractions, hedges, hcontracts⟩ := hc.contracts
  have hpath : ∀ step ∈ steps, PathStep n root edges s start picks step := by
    intro step hstep
    refine hsteps step ?_
    rw [hc.path_eq]
    exact List.mem_append_left _ hstep
  have hpick : ∀ r ∈ reps, ∃ e ∈ c.edges, picks r = some e := by
    intro r hr
    obtain ⟨step, hstep, rfl⟩ := (hc.mem_reps r).1 hr
    exact ⟨step.edge, (hedges _).2 ⟨step, hstep, rfl⟩, (hpath step hstep).picks_eq⟩
  have hvisited : ∀ r ∈ reps, s.visited r = some start := by
    intro r hr
    obtain ⟨step, hstep, rfl⟩ := (hc.mem_reps r).1 hr
    exact (hpath step hstep).visited
  have hrootrep : root ≠ c.representative :=
    hcontracts.ne_representative hcontracts.cycle.root_not_mem
  refine ⟨?_, h.sound, ?_, ?_, ?_, ?_, ?_, ?_, ?_, ?_, ?_⟩
  · rw [hcontractions]
    refine h.nested.contract hcontracts ?_
    intro e he
    obtain ⟨step, hstep, rfl⟩ := (hedges e).1 he
    have hp := hpath step hstep
    exact (h.picked _ hp.valid.vertex_lt hp.valid.find_vertex _ hp.picks_eq).2
  · rw [hc.size_queues, h.size_queues]
  · rw [hc.size_seen, h.size_seen]
  · rw [hc.visited_eq, if_neg hrootrep, h.visited_root]
  · intro v
    by_cases hv : v = c.representative
    · subst hv
      exact hc.ordered
    · rw [hc.queue_ne v hv]
      exact h.ordered v
  · intro r hr hfind item hitem
    exact h.item_contract hc hcontracts hpath hr hfind hitem
  · intro e hcand hcross
    exact h.complete_contract hc hcontracts hpick hcand hcross
  · intro e hcand
    exact h.nonneg_contract hc hcontracts hvisited hcand
  · intro r hr hfind e he
    rcases hcontracts.find_eq_self_iff.1 hfind with rfl | ⟨hmem, hold⟩
    · rw [Function.update_self] at he
      exact absurd he (by simp)
    · rw [Function.update_of_ne (hcontracts.ne_representative hmem)] at he
      obtain ⟨hvalid, hzero⟩ := h.picked r hr hold e he
      exact ⟨hvalid.contract hcontracts hmem, hzero⟩
  · intro r hr hfind hrne
    rcases hcontracts.find_eq_self_iff.1 hfind with rfl | ⟨hmem, hold⟩
    · rw [hc.visited_eq, if_pos rfl, Function.update_self]
    · have hne := hcontracts.ne_representative hmem
      rw [hc.visited_eq, if_neg hne, Function.update_of_ne hne]
      exact h.visited_iff r hr hold hrne

end Priced

end Edmonds

end FuzzCampaign

import FuzzCampaign.Proofs.Arborescence.ClassHistory
import FuzzCampaign.Proofs.Arborescence.Optimality
import FuzzCampaign.Proofs.Arborescence.Shelves

/-!
# The search for an arborescence, step by step

A search in a store goes through the states that the walks go through.  Each look at a heap takes
an edge off it.  It may be followed by the contraction of a cycle, which empties no heap and has
to be undone later, but then the edge has paid for that as well.  So the edges in the heaps,
counted three times, the contractions and the walks that are left bound the number of steps.

Main definitions:

- `Search.Resting`, `Search.Strolling` and `Search.Unfolding`: what holds between two walks, on a
  walk and after all walks.
- `Search.Sound`: what holds before each step of a search.

Main results:

- `Search.Strolling.look`, `Search.Strolling.close`, `Search.Strolling.halt`: the steps of a walk.
- `Search.Unfolding.unfold`: undoing one contraction.
-/

namespace FuzzCampaign

namespace Edmonds

open Relation

variable {n root : Nat} {edges : Array WeightedEdge} {bound : Option Nat} {allowed : Int → Bool}

/-! ## Steps of a search -/

/-- In an empty heap nothing is dropped. -/
theorem dropInternal_nil {classes : Classes} {u : Nat} :
    dropInternal edges classes u .nil = .nil := by
  simp [dropInternal, EdgeHeap.settle]

/-- An edge from inside a class is dropped when it comes first, and no other edge. -/
theorem dropInternal_of_settle {classes : Classes} {u e rank : Nat} {k d : Int}
    {h l r : EdgeHeap} (hs : h.settle = .node e k d l r rank) :
    dropInternal edges classes u h = if classes.find (source edges e) = u then
      dropInternal edges classes u (EdgeHeap.node e k d l r rank).pop
    else .node e k d l r rank := by
  rw [dropInternal]
  split
  · rename_i hnil
    rw [hs] at hnil
    cases hnil
  · rename_i heq
    rw [hs] at heq
    cases heq
    rfl

/-- The state of the walks in a search with the given heaps. -/
def Search.state (s : Search) (heaps : Array EdgeHeap) : State :=
  ⟨heaps, s.classes, s.seen, s.path, s.contractions⟩

/-- What follows after a walk. -/
def resume (edges : Array WeightedEdge) (later : List Nat) (incoming : Array (Option Nat)) :
    Option State → Option (State × Array (Option Nat))
  | none => none
  | some s => walkAll edges later s ((s.path.map (·.edge)).reverse.foldl (choose edges s.classes)
      incoming)

/-- What follows after all walks. -/
def conclude (n root : Nat) (edges : Array WeightedEdge) :
    Option (State × Array (Option Nat)) → Option (List Nat)
  | none => none
  | some (s, incoming) => chosen n root (expand edges s.contractions s.classes incoming)

namespace Search

/-- A walk leads through different classes. -/
structure Lined (n : Nat) (classes : Classes) (path : List Step) : Prop where
  nodup : (path.map (·.vertex)).Nodup
  representative : ∀ step ∈ path, step.vertex < n ∧ classes.find step.vertex = step.vertex

/-- The numbers in the store are within a bound, if there is one; no edge was taken off a heap
twice, and fewer cycles were contracted than there are vertices. -/
structure Tidy (n : Nat) (bound : Option Nat) (s : Search) : Prop extends
    Lined n s.classes s.path where
  fits : s.heaps.Fits bound
  popped : s.popped.Nodup
  few : s.contractions.length ≤ n - 1

/-- A search between two walks, of which `m` are left, the next one from `start`. -/
structure Resting (n root : Nat) (edges : Array WeightedEdge) (bound : Option Nat) (s : Search)
    (start m : Nat) (heaps : Array EdgeHeap) (charges : List Charge) (picks : Nat → Option Nat) :
    Prop where
  count : start + m = n
  stocked : Stocked n edges bound s.classes s.heaps s.queues s.popped heaps
  pending_le : pending n (s.state heaps) ≤ edges.size
  rested : Rested n root edges start (s.state heaps) charges picks s.incoming
  answer : conclude n root edges (walkAll edges (List.range' start m) (s.state heaps) s.incoming) =
    edmonds n root edges
  lined : Lined n s.classes s.path

/-- A search on the walk from `start`, at the class `u`; `rest` is what becomes of the walk. -/
structure Strolling (n root : Nat) (edges : Array WeightedEdge) (bound : Option Nat) (s : Search)
    (start u m fuel : Nat) (heaps : Array EdgeHeap) (charges : List Charge)
    (picks : Nat → Option Nat) (rest : Option State) : Prop where
  count : start + 1 + m = n
  stocked : Stocked n edges bound s.classes s.heaps s.queues s.popped heaps
  pending_le : pending n (s.state heaps) ≤ edges.size
  enough : pending n (s.state heaps) < fuel
  walking : Walking n root edges start u (s.state heaps) charges picks s.incoming
  answer : conclude n root edges (resume edges (List.range' (start + 1) m) s.incoming rest) =
    edmonds n root edges

/-- A search after all walks that still has to undo some contractions. -/
structure Unfolding (n root : Nat) (edges : Array WeightedEdge) (bound : Option Nat) (s : Search)
    (contractions : List Contraction) (charges : List Charge) : Prop where
  tidy : s.Tidy n bound
  grown : Classes.Grown n s.classes
  nested : Nested n root edges s.classes contractions charges
  branching : Branching n root edges s.classes s.incoming
  answer : chosen n root (expand edges contractions s.classes s.incoming) = edmonds n root edges

/-- A bound on the steps that the heaps and the contractions still cost: three for each edge in a
heap, to look at it, to contract the cycle that it may close and to undo that. -/
def costs (n : Nat) (s : Search) (heaps : Array EdgeHeap) : Nat :=
  3 * pending n (s.state heaps) + s.contractions.length

/-- What holds before each step of a search that ends within `k` more steps.  Two more steps are
needed for each walk that is left: one to set out for it and one to choose its edges. -/
inductive Sound (n root : Nat) (edges : Array WeightedEdge) (bound : Option Nat) (s : Search)
    (k : Nat) : Prop
  | resting {start m : Nat} {heaps : Array EdgeHeap} {charges : List Charge}
      {picks : Nat → Option Nat} (stage : s.stage = .resting (List.range' start m))
      (rests : s.Resting n root edges bound start m heaps charges picks)
      (measure : 2 * m + s.costs n heaps + 2 ≤ k)
  | idle {start u m : Nat} {heaps : Array EdgeHeap} {charges : List Charge}
      {picks : Nat → Option Nat} (stage : s.stage = .walking start u (List.range' (start + 1) m))
      (rests : s.Resting n root edges bound (start + 1) m heaps charges picks)
      (seen : (s.state heaps).visited u ≠ none) (path : s.path = [])
      (measure : 2 * m + s.costs n heaps + 3 ≤ k)
  | walking {start u m fuel : Nat} {heaps : Array EdgeHeap} {charges : List Charge}
      {picks : Nat → Option Nat} (stage : s.stage = .walking start u (List.range' (start + 1) m))
      (strolls : s.Strolling n root edges bound start u m fuel heaps charges picks
        (walk edges start fuel u (s.state heaps)))
      (unmet : (s.state heaps).visited u ≠ some start) (measure : 2 * m + s.costs n heaps + 3 ≤ k)
  | closing {start u m fuel : Nat} {heaps : Array EdgeHeap} {charges : List Charge}
      {picks : Nat → Option Nat} (stage : s.stage = .closing start u (List.range' (start + 1) m))
      (strolls : s.Strolling n root edges bound start u m fuel heaps charges picks
        (walk edges start fuel ((s.state heaps).contractCycle u).1
          ((s.state heaps).contractCycle u).2))
      (met : (s.state heaps).visited u = some start) (measure : 2 * m + s.costs n heaps + 5 ≤ k)
  | expanding {contractions : List Contraction} {charges : List Charge}
      (stage : s.stage = .expanding contractions)
      (unfolds : s.Unfolding n root edges bound contractions charges)
      (measure : contractions.length + 1 ≤ k)
  | finished (stage : s.stage = .finished (edmonds n root edges)) (tidy : s.Tidy n bound)

variable {s : Search} {k start u m fuel : Nat} {heaps : Array EdgeHeap} {charges : List Charge}
  {picks : Nat → Option Nat}

/-- A search over stocked and priced heaps is tidy. -/
theorem Lined.tidy (h : Lined n s.classes s.path)
    (hs : Stocked n edges bound s.classes s.heaps s.queues s.popped heaps)
    (hp : Priced n root edges (s.state heaps) charges picks) : s.Tidy n bound := by
  obtain ⟨marks, hshelved⟩ := hs.shelved
  have hroot := hp.nested.find_eq_root_iff.2 rfl
  exact ⟨h, hshelved.fits, (List.nodup_append.1 (hs.fresh root hp.root_lt hroot)).1,
    Nat.le_sub_one_of_lt (hp.nested.length_lt hp.root_lt)⟩

/-- The first edge into the class `u`, of weight `w`, at the root of the settled heap. -/
structure First (n : Nat) (edges : Array WeightedEdge) (bound : Option Nat) (s : Search)
    (heaps : Array EdgeHeap) (marks : Nat → List Nat) (u i e : Nat) (w : Int) (l r : EdgeHeap)
    (rank : Nat) (store : HeapStore) : Prop where
  shelved : Shelved n edges bound s.classes s.heaps s.queues heaps marks
  settle : (queue heaps u).settle = .node e w 0 l r rank
  held : HeapStore.Held bound (weight edges) store (some i) (.node e w 0 l r rank) (marks u)
  within : HeapStore.Within (marks u) s.heaps store
  fits : store.Fits bound
  source_lt : source edges e < n

/-- The settled heap holds the same edges. -/
theorem First.edgesOf_eq {marks : Nat → List Nat} {i e rank : Nat} {w : Int} {l r : EdgeHeap}
    {store : HeapStore} (first : s.First n edges bound heaps marks u i e w l r rank store) :
    edgesOf (queue heaps u) = edgesOf (.node e w 0 l r rank) := by
  rw [edgesOf, ← EdgeHeap.items_settle, first.settle, edgesOf]

namespace Strolling

/-- A search on a walk leads through different classes. -/
theorem lined {rest : Option State}
    (h : s.Strolling n root edges bound start u m fuel heaps charges picks rest) :
    Lined n s.classes s.path :=
  ⟨h.walking.nodup, fun step hstep => ⟨(h.walking.steps step hstep).valid.vertex_lt,
    (h.walking.steps step hstep).valid.find_vertex⟩⟩

/-- The first edge comes from inside the class and is dropped. -/
theorem drop (h : s.Strolling n root edges bound start u m (fuel + 1) heaps charges picks
      (walk edges start (fuel + 1) u (s.state heaps)))
    (hseen : (s.state heaps).visited u = none) {e rank : Nat} {w : Int} {l r : EdgeHeap}
    (hs : (queue heaps u).settle = .node e w 0 l r rank)
    (hin : s.classes.find (source edges e) = u) {store : HeapStore} {top : Option Nat}
    (hstocked : Stocked n edges bound s.classes store (s.queues.setIfInBounds u top)
      (e :: s.popped) (heaps.setIfInBounds u (EdgeHeap.node e w 0 l r rank).pop)) :
    ∃ s' heaps', s' = { s with
        heaps := store, queues := s.queues.setIfInBounds u top, popped := e :: s.popped } ∧
      s'.Strolling n root edges bound start u m (fuel + 1) heaps' charges picks
        (walk edges start (fuel + 1) u (s'.state heaps')) ∧
      (s'.state heaps').visited u ≠ some start ∧ s'.costs n heaps' < s.costs n heaps := by
  have hsize : u < (s.state heaps).queues.size := by
    rw [h.walking.priced.size_queues]
    exact h.walking.lt
  have hordered : (EdgeHeap.node e w 0 l r rank).Ordered :=
    hs ▸ (h.walking.priced.ordered u).settle
  have hitems : (queue heaps u).items.Perm
      ((e, w) :: (EdgeHeap.node e w 0 l r rank).pop.items) := by
    rw [← EdgeHeap.items_settle, hs]
    exact EdgeHeap.items_pop (EdgeHeap.top?_node_zero e w l r rank)
  have hfewer : (EdgeHeap.node e w 0 l r rank).pop.size < (queue heaps u).size := by
    rw [← EdgeHeap.length_items, ← EdgeHeap.length_items]
    exact Nat.lt_of_lt_of_eq (Nat.lt_succ_self _) hitems.length_eq.symm
  have hless := pending_set h.walking.lt h.walking.find_eq hsize hfewer
  have hdrop : walk edges start (fuel + 1) u { s.state heaps with
        queues := heaps.setIfInBounds u (EdgeHeap.node e w 0 l r rank).pop } =
      walk edges start (fuel + 1) u (s.state heaps) :=
    walk_drop hseen hsize ((dropInternal_of_settle hs).trans (if_pos hin))
  refine ⟨_, heaps.setIfInBounds u (EdgeHeap.node e w 0 l r rank).pop, rfl, ⟨h.count, hstocked,
    (Nat.le_of_lt hless).trans h.pending_le, hless.trans h.enough,
    h.walking.drop hordered.pop hitems hin, ?_⟩, ?_, ?_⟩
  · exact (congrArg (fun rest => conclude n root edges (resume edges _ s.incoming rest)) hdrop).trans
      h.answer
  · exact fun hmet => absurd (hseen.symm.trans hmet) (by simp)
  · exact Nat.add_lt_add_right ((Nat.mul_lt_mul_left (by decide)).2 hless) _

/-- The first edge comes from outside the class and is followed. -/
theorem leave (h : s.Strolling n root edges bound start u m (fuel + 1) heaps charges picks
      (walk edges start (fuel + 1) u (s.state heaps)))
    (hr : InRange n edges) (hseen : (s.state heaps).visited u = none) {e rank : Nat} {w : Int}
    {l r : EdgeHeap} (hs : (queue heaps u).settle = .node e w 0 l r rank)
    (hout : s.classes.find (source edges e) ≠ u) (stage : Stage) {store : HeapStore} {top : Option Nat}
    (hstocked : Stocked n edges bound s.classes store (s.queues.setIfInBounds u top)
      (e :: s.popped)
      (heaps.setIfInBounds u ((EdgeHeap.node e w 0 l r rank).shift (-w)).pop)) :
    ∃ s' heaps' charges' picks', s' = { s with
        stage, heaps := store, queues := s.queues.setIfInBounds u top
        seen := s.seen.setIfInBounds u (some start), path := ⟨u, e⟩ :: s.path
        popped := e :: s.popped } ∧
      s'.Strolling n root edges bound start (s.classes.find (source edges e)) m fuel heaps' charges'
        picks' (if (s'.state heaps').visited (s.classes.find (source edges e)) = some start then
          walk edges start fuel ((s'.state heaps').contractCycle (s.classes.find (source edges e))).1
            ((s'.state heaps').contractCycle (s.classes.find (source edges e))).2
          else walk edges start fuel (s.classes.find (source edges e)) (s'.state heaps')) ∧
      s'.costs n heaps' + 3 ≤ s.costs n heaps := by
  have hdrop : dropInternal edges s.classes u (queue heaps u) = .node e w 0 l r rank :=
    (dropInternal_of_settle hs).trans (if_neg hout)
  have hleft : Left edges (s.state heaps)
      ((s.state heaps).leave start u e w (.node e w 0 l r rank)) start u e w :=
    left_leave (by rw [h.walking.priced.size_queues]; exact h.walking.lt)
      (by rw [h.walking.priced.size_seen]; exact h.walking.lt) (h.walking.priced.ordered u) hdrop
  have hfewer := pending_leave h.walking.lt h.walking.find_eq hleft
  have hanswer := h.answer
  rw [walk_of_node hseen hdrop] at hanswer
  refine ⟨_, heaps.setIfInBounds u ((EdgeHeap.node e w 0 l r rank).shift (-w)).pop, _, _, rfl,
    ⟨h.count, hstocked, (Nat.le_of_lt hfewer).trans h.pending_le,
      Nat.lt_of_lt_of_le hfewer (Nat.le_of_lt_succ h.enough), h.walking.leave hr hseen hleft,
      hanswer⟩, ?_⟩
  have hcost : 3 * pending n ((s.state heaps).leave start u e w (.node e w 0 l r rank)) + 3 ≤
      3 * pending n (s.state heaps) := by omega
  exact (Nat.add_right_comm _ _ _).le.trans (Nat.add_le_add_right hcost _)

/-- A walk that has come to its end chooses its edges. -/
theorem halt (h : s.Strolling n root edges bound start u m fuel heaps charges picks
      (walk edges start fuel u (s.state heaps))) (hr : InRange n edges)
    (hseen : (s.state heaps).visited u ≠ none) (hunmet : (s.state heaps).visited u ≠ some start) :
    ∃ incoming, (s.path.map (·.edge)).reverse.foldlM (choose? edges s.classes) s.incoming =
        some incoming ∧
      ({ s with stage := .resting (List.range' (start + 1) m), incoming } : Search).Resting n root
        edges bound (start + 1) m heaps charges picks := by
  have hsteps : ∀ e ∈ (s.path.map (·.edge)).reverse, e < edges.size := by
    simp only [List.mem_reverse, List.mem_map]
    rintro e ⟨step, hstep, rfl⟩
    exact (h.walking.steps step hstep).valid.candidate.lt_size
  obtain ⟨fuel, rfl⟩ := Nat.exists_eq_add_one.2 (Nat.zero_lt_of_lt h.enough)
  have hanswer := h.answer
  rw [walk_of_visited hseen] at hanswer
  exact ⟨_, foldlM_choose? h.walking.priced.wellFormed hr h.walking.anchored.size_eq hsteps,
    h.count, h.stocked, h.pending_le, h.walking.rested ⟨hseen, hunmet⟩, hanswer, h.lined⟩

/-- The cycle that a walk has closed is contracted. -/
theorem close (h : s.Strolling n root edges bound start u m fuel heaps charges picks
      (walk edges start fuel ((s.state heaps).contractCycle u).1
        ((s.state heaps).contractCycle u).2))
    (hallows : HeapStore.Allows bound allowed) (hmet : (s.state heaps).visited u = some start) :
    ∃ s' rep heaps' picks', s.close allowed start u (List.range' (start + 1) m) = some s' ∧
      s'.stage = .walking start rep (List.range' (start + 1) m) ∧
      s'.Strolling n root edges bound start rep m fuel heaps' charges picks'
        (walk edges start fuel rep (s'.state heaps')) ∧
      (s'.state heaps').visited rep = none ∧ s'.costs n heaps' = s.costs n heaps + 1 := by
  obtain ⟨steps, reps, hclosed⟩ := h.walking.closed hmet
  obtain ⟨hrep, hfresh⟩ := h.walking.contract hmet hclosed
  have hsame := pending_contract (n := n) hclosed h.walking.nodup
  obtain ⟨marks, hshelved⟩ := h.stocked.shelved
  have hvalid := h.lined.representative
  obtain ⟨⟨store, top, classes, cycle, path⟩, hdone, hclasses, hcycle, hpath, hgrown, hfits, taken,
      new, htaken, hheld, hsub, hw⟩ :=
    gather_eq h.walking.lt hallows [] h.stocked.grown hshelved.fits
      (.nil bound (weight edges) s.heaps)
      (fun step hstep => ⟨(hvalid step hstep).1,
        hshelved.held _ (hvalid step hstep).1 (hvalid step hstep).2⟩)
      (hshelved.nodup_marks hvalid h.walking.nodup)
      (h.walking.on_path u h.walking.lt h.walking.find_eq hmet)
  subst hclasses hcycle hpath
  obtain rfl : steps = taken := List.append_cancel_right (hclosed.path_eq.symm.trans htaken)
  obtain ⟨c, hc, -, -, hcontracts⟩ := id hclosed.contracts
  obtain ⟨hput, hshelved'⟩ := hshelved.contract hcontracts
    (fun step hstep => (hclosed.mem_reps _).2 ⟨step, hstep, rfl⟩) hheld hsub hw hfits
  rw [hc] at hput hshelved'
  have hseen : s.seen.size = n := h.walking.priced.size_seen
  have hmark : put s.seen ((s.state heaps).contractCycle u).1 none = some _ :=
    put_of_lt (by rw [hseen]; exact hrep.lt) none
  have hfind := hgrown.wellFormed.find?_eq h.walking.lt
  have hstocked := h.stocked.contract hclosed h.walking.nodup hgrown ⟨_, hshelved'⟩
  refine ⟨{ s with
    stage := .walking start ((s.state heaps).contractCycle u).1 (List.range' (start + 1) m)
    heaps := store, queues := s.queues.setIfInBounds ((s.state heaps).contractCycle u).1 top
    classes := ((s.state heaps).contractCycle u).2.classes
    seen := ((s.state heaps).contractCycle u).2.seen
    path := ((s.state heaps).contractCycle u).2.path
    contractions := ((s.state heaps).contractCycle u).2.contractions },
    ((s.state heaps).contractCycle u).1, ((s.state heaps).contractCycle u).2.queues, _, ?_, rfl,
    ⟨h.count, hstocked, hsame.le.trans h.pending_le, hsame.trans_lt h.enough, hrep, h.answer⟩,
    hfresh, ?_⟩
  · rw [Search.close, hdone]
    simp only [Option.bind_eq_bind, Option.bind_some, hfind]
    exact (congrArg (Option.bind · _) hput).trans (congrArg (Option.bind · _) hmark)
  · exact congrArg (3 * · + (s.contractions.length + 1)) hsame

/-- The first edge into the class where a walk stands is found at the root of its heap. -/
theorem first {rest : Option State} {marks : Nat → List Nat} {i : Nat}
    (h : s.Strolling n root edges bound start u m fuel heaps charges picks rest)
    (hr : InRange n edges) (hallows : HeapStore.Allows bound allowed)
    (hshelved : Shelved n edges bound s.classes s.heaps s.queues heaps marks)
    (hheld : HeapStore.Held bound (weight edges) s.heaps (some i) (queue heaps u) (marks u)) :
    ∃ e w l r rank store edge, s.heaps.topIn allowed i = some ((e, w), store) ∧
      edges[e]? = some edge ∧
      s.classes.find? edge.source = some (s.classes.find (source edges e)) ∧
      s.First n edges bound heaps marks u i e w l r rank store := by
  obtain ⟨e, w, l, r, rank, store, htop, hsettle, -, hheld, hw, hfits⟩ :=
    hheld.topIn hshelved.fits hallows
  have hmem : (e, w) ∈ (queue heaps u).items := by
    rw [← EdgeHeap.items_settle, hsettle, EdgeHeap.items_node, Int.add_zero]
    exact List.mem_cons_self
  have hlt := (h.walking.priced.item u h.walking.lt h.walking.find_eq (e, w) hmem).1.lt_size
  have hsource : source edges e < n := hr.source_lt hlt
  refine ⟨e, w, l, r, rank, store, edges[e], htop, Array.getElem?_eq_getElem hlt, ?_, hshelved,
    hsettle, hsettle ▸ hheld, hw, hfits, hsource⟩
  rw [← source_of_lt hlt]
  exact h.walking.priced.wellFormed.find?_eq hsource

variable {marks : Nat → List Nat} {i e rank : Nat} {w : Int} {l r : EdgeHeap} {store : HeapStore}

/-- A first edge from inside the class is taken off and the walk stays where it is. -/
theorem look_inside (h : s.Strolling n root edges bound start u m (fuel + 1) heaps charges picks
      (walk edges start (fuel + 1) u (s.state heaps)))
    (hallows : HeapStore.Allows bound allowed)
    (stage : s.stage = .walking start u (List.range' (start + 1) m))
    (hseen : (s.state heaps).visited u = none) (measure : 2 * m + s.costs n heaps + 3 ≤ k)
    (first : s.First n edges bound heaps marks u i e w l r rank store)
    (hin : s.classes.find (source edges e) = u) :
    ∃ rest store' queues, store.popIn allowed i = some (rest, store') ∧
      put s.queues u rest = some queues ∧
      ({ s with heaps := store', queues, popped := e :: s.popped } : Search).Sound n root edges bound
        (k - 1) := by
  obtain ⟨rest, store', new, hpop, hheld, hperm, hw, hfits⟩ := first.held.popIn first.fits hallows
  obtain ⟨hput, hstocked⟩ := h.stocked.pop h.walking.lt h.walking.find_eq first.shelved hheld
    (List.subset_of_cons_subset hperm.symm.subset) (first.within.trans hw) hfits
    (by rw [first.edgesOf_eq]; exact edgesOf_pop (EdgeHeap.top?_node_zero e w l r rank))
  obtain ⟨s', heaps', hs', hstrolls, hunmet, hless⟩ := h.drop hseen first.settle hin hstocked
  refine ⟨rest, store', _, hpop, hput, ?_⟩
  rw [← hs']
  exact .walking (by rw [hs', stage]) hstrolls hunmet (by omega)

/-- A first edge from outside the class is taken off, and the walk goes where it comes from. -/
theorem look_outside (h : s.Strolling n root edges bound start u m (fuel + 1) heaps charges picks
      (walk edges start (fuel + 1) u (s.state heaps))) (hr : InRange n edges)
    (hallows : HeapStore.Allows bound allowed) (hseen : (s.state heaps).visited u = none)
    (measure : 2 * m + s.costs n heaps + 3 ≤ k)
    (first : s.First n edges bound heaps marks u i e w l r rank store)
    (hout : s.classes.find (source edges e) ≠ u) :
    ∃ store₁ rest store' queues seen mark, store.shiftIn allowed i (-w) = some store₁ ∧
      store₁.popIn allowed i = some (rest, store') ∧ put s.queues u rest = some queues ∧
      put s.seen u (some start) = some seen ∧ seen[s.classes.find (source edges e)]? = some mark ∧
      ({ s with
        stage := if mark = some start then
            .closing start (s.classes.find (source edges e)) (List.range' (start + 1) m)
          else .walking start (s.classes.find (source edges e)) (List.range' (start + 1) m)
        heaps := store', queues, seen, path := ⟨u, e⟩ :: s.path
        popped := e :: s.popped } : Search).Sound n root edges bound (k - 1) := by
  obtain ⟨store₁, hshift, hheld, hw, hfits⟩ :=
    first.held.shiftIn first.fits hallows (EdgeHeap.top?_node_zero e w l r rank)
  obtain ⟨rest, store', new, hpop, hheld, hperm, hw', hfits⟩ := hheld.popIn hfits hallows
  obtain ⟨hput, hstocked⟩ := h.stocked.pop h.walking.lt h.walking.find_eq first.shelved hheld
    (List.subset_of_cons_subset hperm.symm.subset) ((first.within.trans hw).trans hw') hfits
    (by
      rw [first.edgesOf_eq, ← edgesOf_shift (-w)]
      exact edgesOf_pop rfl)
  have hsize : s.seen.size = n := h.walking.priced.size_seen
  have hlt := h.walking.priced.wellFormed.find_lt first.source_lt
  refine ⟨store₁, rest, store', _, s.seen.setIfInBounds u (some start), _, hshift, hpop, hput,
    put_of_lt (by rw [hsize]; exact h.walking.lt) _,
    read_of_lt (by rw [Array.size_setIfInBounds, hsize]; exact hlt), ?_⟩
  obtain ⟨s', heaps', charges', picks', hs', hstrolls, hless⟩ := h.leave hr hseen first.settle hout
    (if (s.seen.setIfInBounds u (some start))[s.classes.find (source edges e)]?.join = some start then
        .closing start (s.classes.find (source edges e)) (List.range' (start + 1) m)
      else .walking start (s.classes.find (source edges e)) (List.range' (start + 1) m)) hstocked
  have hmark : (s'.state heaps').visited (s.classes.find (source edges e)) =
      (s.seen.setIfInBounds u (some start))[s.classes.find (source edges e)]?.join := by
    rw [hs']
    rfl
  rw [← hs']
  by_cases hmet : (s'.state heaps').visited (s.classes.find (source edges e)) = some start
  · rw [if_pos hmet] at hstrolls
    refine .closing ?_ hstrolls hmet (by omega)
    rw [hs']
    exact if_pos (hmark.symm.trans hmet)
  · rw [if_neg hmet] at hstrolls
    refine .walking ?_ hstrolls hmet (by omega)
    rw [hs']
    exact if_neg fun heq => hmet (hmark.trans heq)

/-- A walk looks at the first edge into the class where it stands. -/
theorem look (h : s.Strolling n root edges bound start u m fuel heaps charges picks
      (walk edges start fuel u (s.state heaps))) (hr : InRange n edges)
    (hallows : HeapStore.Allows bound allowed)
    (stage : s.stage = .walking start u (List.range' (start + 1) m))
    (hseen : (s.state heaps).visited u = none) (measure : 2 * m + s.costs n heaps + 3 ≤ k) :
    ∃ s', s.look allowed edges start u (List.range' (start + 1) m) = some s' ∧
      s'.Sound n root edges bound (k - 1) := by
  obtain ⟨fuel, rfl⟩ := Nat.exists_eq_add_one.2 (Nat.zero_lt_of_lt h.enough)
  obtain ⟨marks, hshelved⟩ := h.stocked.shelved
  obtain ⟨top, hread, hheld⟩ := hshelved.held u h.walking.lt h.walking.find_eq
  rw [Search.look, hread]
  simp only [Option.bind_eq_bind, Option.bind_some]
  cases top with
  | none =>
    have hnil : dropInternal edges s.classes u (queue heaps u) = .nil := by
      rw [hheld.holds.eq_nil, dropInternal_nil]
    have hanswer := h.answer
    rw [walk_of_nil hseen hnil] at hanswer
    exact ⟨_, rfl, .finished (congrArg Stage.finished hanswer)
      (Lined.tidy h.lined h.stocked h.walking.priced)⟩
  | some i =>
    obtain ⟨e, w, l, r, rank, store, edge, htop, hedge, hnext, first⟩ :=
      h.first hr hallows hshelved hheld
    simp only [htop, hedge, hnext, Option.bind_some]
    by_cases hin : s.classes.find (source edges e) = u
    · obtain ⟨rest, store', queues, hpop, hput, hsound⟩ :=
        h.look_inside hallows stage hseen measure first hin
      simp only [if_pos hin, hpop, hput, Option.bind_some]
      exact ⟨_, rfl, hsound⟩
    · obtain ⟨store₁, rest, store', queues, seen, mark, hshift, hpop, hput, hput', hmark, hsound⟩ :=
        h.look_outside hr hallows hseen measure first hin
      simp only [if_neg hin, hshift, hpop, hput, hput', hmark, Option.bind_some]
      exact ⟨_, rfl, hsound⟩

end Strolling

/-- The latest of the contractions that are left is undone.  The edge that is chosen into its
class enters the cycle. -/
theorem Unfolding.unfold {c : Contraction} {earlier : List Contraction}
    (h : s.Unfolding n root edges bound (c :: earlier) charges) (hr : InRange n edges) :
    (∃ e, s.incoming[c.representative]? = some (some e) ∧ ∃ f ∈ c.edges,
      (s.classes.rollback c.time).find (target edges e) =
        (s.classes.rollback c.time).find (target edges f)) ∧
    ∃ s' charges', s.unfold edges c earlier = some s' ∧ s'.stage = .expanding earlier ∧
      s'.Unfolding n root edges bound earlier charges' := by
  obtain ⟨before, charges', reps, hbefore, hcontracts⟩ := h.nested.latest
  obtain ⟨hback, hgrown, -⟩ := h.grown.rollback c.time
  have hrollback := hcontracts.rollback_eq
  rw [hrollback] at hback hgrown ⊢
  obtain ⟨e, he, hcand, hin, hout⟩ := h.branching.exists_entering_cycle hcontracts
  obtain ⟨f, hf, htarget⟩ := hcontracts.cycle.exists_edge _ hin
  have hread : s.incoming[c.representative]? = some (some e) := by
    have hlt := (hcontracts.reps_root _ hcontracts.representative_mem).1
    rw [← he]
    exact read_of_lt (by rw [h.branching.size_eq]; exact hlt)
  have hedges : ∀ g ∈ c.edges ++ (some e).toList, g < edges.size := by
    intro g hg
    rcases List.mem_append.1 hg with hg | hg
    · exact (hcontracts.cycle.candidate g hg).lt_size
    · obtain rfl := List.mem_singleton.1 hg
      exact hcand.lt_size
  have hchoose := foldlM_choose? hgrown.wellFormed hr h.branching.size_eq hedges
  rw [show (c.edges ++ (some e).toList).foldl (choose edges before) s.incoming =
    expandOne edges before s.incoming c by rw [expandOne, hread]; rfl] at hchoose
  have hanswer := h.answer
  rw [expand, hrollback] at hanswer
  refine ⟨⟨e, hread, f, hf, htarget.symm⟩, { s with
    stage := .expanding earlier, classes := before
    incoming := expandOne edges before s.incoming c }, charges', ?_, rfl,
    ⟨⟨h.tidy.nodup, fun step hstep => ?_⟩, h.tidy.fits, h.tidy.popped, h.tidy.few⟩, hgrown, hbefore,
    h.branching.expandOne hcontracts hgrown.wellFormed fun v => h.nested.find_eq_root_iff, hanswer⟩
  · rw [Search.unfold, hback, hread]
    simp only [Option.bind_eq_bind, Option.bind_some, hchoose]
    rfl
  · obtain ⟨hlt, hfind⟩ := h.tidy.representative step hstep
    rcases hcontracts.find_eq_self_iff.1 hfind with heq | ⟨-, hfind⟩
    · exact heq ▸ hcontracts.reps_root _ hcontracts.representative_mem
    · exact ⟨hlt, hfind⟩

end Search

end Edmonds

end FuzzCampaign

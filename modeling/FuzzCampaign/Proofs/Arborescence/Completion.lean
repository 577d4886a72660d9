import FuzzCampaign.Proofs.Arborescence.CallTree
import FuzzCampaign.Proofs.Arborescence.Search

/-!
# Searches that come to an end

Every step of a search succeeds and brings the end nearer, and at the end the search has found
the answer of the algorithm on heaps by themselves.

Weights only fall, since what is taken off all weights of a heap is the first one, and none falls
below zero.  So all numbers stay within a bound on the first weights.

Main definitions:

- `Search.Orderly` and `Search.Mild`: what can be said of the tables and of the numbers.
- `Completes`: a search makes every step and ends with the answer.

Main results:

- `Search.Sound.step` and `Search.Sound.after`: one step and any number of them.
- `search_completes` and `search_keeps_bounds`: what holds at every step of a whole search.
-/

namespace FuzzCampaign

namespace Edmonds

variable {n root : Nat} {edges : Array WeightedEdge} {bound : Option Nat} {allowed : Int → Bool}

namespace Search

variable {s : Search} {k start u m fuel : Nat} {heaps : Array EdgeHeap} {charges : List Charge}
  {picks : Nat → Option Nat}

/-! ## Whole searches -/

/-- One walk, and what follows after it. -/
theorem walkAll_cons (start : Nat) (later : List Nat) (state : State)
    (incoming : Array (Option Nat)) : walkAll edges (start :: later) state incoming =
      resume edges later incoming
        (walk edges start (edges.size + 1) start { state with path := [] }) := by
  rw [walkAll]
  cases walk edges start (edges.size + 1) start { state with path := [] } <;> rfl

/-- The mark of a class is read. -/
theorem read_visited (h : (s.state heaps).visited u ≠ none) :
    ∃ t, s.seen[u]? = some (some t) := by
  obtain ⟨t, ht⟩ := Option.ne_none_iff_exists'.1 h
  exact ⟨t, Option.join_eq_some_iff.1 ht⟩

/-- A search that rests sets out for the next walk, or comes to the end of all walks. -/
theorem Resting.step (h : s.Resting n root edges bound start m heaps charges picks)
    (stage : s.stage = .resting (List.range' start m)) (measure : 2 * m + s.costs n heaps + 2 ≤ k) :
    ∃ s', s.step allowed root edges = some s' ∧ s'.Sound n root edges bound (k - 1) := by
  have hpriced := h.rested.priced
  have hcount := h.count
  have hanswer := h.answer
  cases m with
  | zero =>
    obtain rfl : start = n := hcount
    refine ⟨{ s with stage := .expanding s.contractions }, ?_, .expanding rfl
      ⟨Lined.tidy h.lined h.stocked hpriced, h.stocked.grown, hpriced.nested, h.rested.branching,
        hanswer⟩ ?_⟩
    · rw [Search.step, stage, List.range'_zero]
    · simp only [costs] at measure ⊢
      omega
  | succ m =>
    have hcosts : 2 * m + s.costs n heaps + 3 ≤ k - 1 := by omega
    have hnext : start + 1 + m = n := by omega
    rw [List.range'_succ, walkAll_cons] at hanswer
    refine ⟨{ s with stage := .walking start start (List.range' (start + 1) m), path := [] }, ?_, ?_⟩
    · rw [Search.step, stage, List.range'_succ]
    by_cases hseen : (s.state heaps).visited start = none
    · refine .walking rfl ⟨hnext, h.stocked, h.pending_le, Nat.lt_succ_of_le h.pending_le,
        h.rested.walking (by omega) hseen, hanswer⟩ ?_ hcosts
      exact fun hmet => absurd (hseen.symm.trans hmet) (by simp)
    · rw [walk_of_visited (s := { s.state heaps with path := [] }) hseen] at hanswer
      exact .idle rfl ⟨hnext, h.stocked, h.pending_le, h.rested.skip hseen, hanswer,
        List.nodup_nil, by simp⟩ hseen rfl hcosts

/-- Every step before the end succeeds and brings the end nearer. -/
theorem Sound.step (h : s.Sound n root edges bound k) (hr : InRange n edges)
    (hallows : HeapStore.Allows bound allowed) :
    ∃ s', s.step allowed root edges = some s' ∧ s'.Sound n root edges bound (k - 1) := by
  cases h with
  | resting stage rests measure => exact rests.step stage measure
  | @idle start u m heaps charges picks stage rests seen path measure =>
    -- the walk has met a visited class before its first step
    obtain ⟨t, ht⟩ := read_visited seen
    have hcosts : 2 * m + s.costs n heaps + 2 ≤ k - 1 := by omega
    refine ⟨{ s with stage := .resting (List.range' (start + 1) m) }, ?_, .resting rfl
      ⟨rests.count, rests.stocked, rests.pending_le, rests.rested, rests.answer, rests.lined⟩
      hcosts⟩
    rw [Search.step, stage]
    simp only [ht, path, Option.bind_eq_bind, Option.bind_some]
    rfl
  | @walking start u m fuel heaps charges picks stage strolls unmet measure =>
    by_cases hseen : (s.state heaps).visited u = none
    · obtain ⟨s', hlook, hsound⟩ := strolls.look hr hallows stage hseen measure
      have hread : s.seen[u]? = some none := by
        rw [← hseen]
        exact read_of_lt (by
          rw [show s.seen.size = n from strolls.walking.priced.size_seen]
          exact strolls.walking.lt)
      refine ⟨s', ?_, hsound⟩
      rw [Search.step, stage]
      simp only [hread, Option.bind_eq_bind, Option.bind_some]
      exact hlook
    · obtain ⟨t, ht⟩ := read_visited hseen
      obtain ⟨incoming, hchoose, hrests⟩ := strolls.halt hr hseen unmet
      have hcosts : 2 * m + s.costs n heaps + 2 ≤ k - 1 := by omega
      refine ⟨_, ?_, .resting rfl hrests hcosts⟩
      rw [Search.step, stage]
      simp only [ht, hchoose, Option.bind_eq_bind, Option.bind_some]
      rfl
  | closing stage strolls met measure =>
    obtain ⟨s', rep, heaps', picks', hclose, stage', hstrolls, hfresh, hcosts⟩ :=
      strolls.close hallows met
    refine ⟨s', ?_, .walking stage' hstrolls ?_ (by omega)⟩
    · rw [Search.step, stage]
      exact hclose
    · exact fun hmet => absurd (hfresh.symm.trans hmet) (by simp)
  | @expanding contractions charges stage unfolds measure =>
    cases contractions with
    | nil =>
      refine ⟨{ s with stage := .finished (edmonds n root edges) }, ?_, .finished rfl
        ⟨⟨unfolds.tidy.nodup, unfolds.tidy.representative⟩, unfolds.tidy.fits, unfolds.tidy.popped,
          unfolds.tidy.few⟩⟩
      rw [Search.step, stage, ← unfolds.answer, unfolds.branching.size_eq]
      rfl
    | cons c earlier =>
      obtain ⟨-, s', charges', hunfold, stage', hunfolds⟩ := unfolds.unfold hr
      refine ⟨s', ?_, .expanding stage' hunfolds ?_⟩
      · rw [Search.step, stage]
        exact hunfold
      · rw [List.length_cons] at measure
        omega
  | finished stage tidy =>
    refine ⟨s, ?_, .finished stage tidy⟩
    rw [Search.step, stage]

/-- The number of steps after which a search has ended. -/
def limit (n : Nat) (edges : Array WeightedEdge) : Nat := 2 * n + 3 * edges.size + 2

/-- Every search can be set out on. -/
theorem sound_setOut (hr : InRange n edges) (hallows : HeapStore.Allows bound allowed)
    (hweights : ∀ b ∈ bound, ∀ e ∈ edges, 0 ≤ e.weight ∧ e.weight ≤ b) :
    ∃ start, setOut allowed n root edges = some start ∧
      start.Sound n root edges bound (limit n edges) := by
  have hfits : HeapStore.Fits bound {} := by
    intro _ _ j node hnode
    simp [HeapStore.node?] at hnode
  rcases Nat.lt_or_ge root n with hroot | hroot
  · have hempty : Shelved n edges bound (.discrete n) {} (Array.replicate n none)
        (Array.replicate n .nil) fun _ => [] := by
      refine ⟨by simp, hfits, fun r hr _ => ⟨none, by simp [hr], ?_⟩, by simp⟩
      rw [show queue (Array.replicate n EdgeHeap.nil) r = .nil by simp [queue, hr]]
      exact .nil bound (weight edges) {}
    have hproper : ∀ entry ∈ edges.toList.zipIdx, Proper n edges bound entry := by
      rintro ⟨e, index⟩ hmem
      rw [List.mk_mem_zipIdx_iff_getElem?, Array.getElem?_toList] at hmem
      obtain ⟨hlt, rfl⟩ := Array.getElem?_eq_some_iff.1 hmem
      exact ⟨(hr _ (Array.getElem_mem hlt)).2, (weight_of_lt hlt).symm,
        fun b hb => hweights b hb _ (Array.getElem_mem hlt)⟩
    obtain ⟨store, queues, marks, henter, hshelved⟩ := hempty.foldlM_enter root hallows hproper
    have hstocked : Stocked n edges bound (.discrete n) store queues []
        (initialQueues n root edges) := by
      refine ⟨.discrete, ⟨marks, hshelved⟩, fun r hr _ => ?_, fun r hr _ e he => ?_⟩
      · exact nodup_initialQueues hr
      · obtain ⟨item, hitem, rfl⟩ := List.mem_map.1 he
        rw [Classes.find_discrete]
        exact ((mem_items_initialQueues hr item).1 hitem).2.1
    have hanswer : conclude n root edges (walkAll edges (List.range' 0 n) (initial n root edges)
        (Array.replicate n none)) = edmonds n root edges := by
      rw [edmonds, if_pos hroot, List.range_eq_range']
      cases walkAll edges (List.range' 0 n) (initial n root edges) (Array.replicate n none) <;> rfl
    have hmeasure : 3 * pending n (initial n root edges) ≤ 3 * edges.size :=
      Nat.mul_le_mul_left 3 pending_initial_le
    refine ⟨{ stage := .resting (List.range' 0 n), heaps := store, queues, classes := .discrete n
              seen := (Array.replicate n none).setIfInBounds root (some root)
              incoming := Array.replicate n none }, ?_, .resting rfl
      ⟨Nat.zero_add n, hstocked, pending_initial_le, rested_initial hroot hr, hanswer,
        List.nodup_nil, by simp⟩ ?_⟩
    · rw [setOut, if_pos hroot]
      simp only [henter, Option.bind_eq_bind, Option.bind_some]
      rw [put_of_lt (by simpa using hroot), List.range_eq_range']
      rfl
    · show 2 * n + (3 * pending n (initial n root edges) + 0) + 2 ≤ limit n edges
      simp only [limit]
      omega
  · refine ⟨_, if_neg (Nat.not_lt.2 hroot), .finished ?_ ⟨⟨List.nodup_nil, by simp⟩, hfits,
      List.nodup_nil, Nat.zero_le _⟩⟩
    rw [edmonds_of_le hroot]

/-- A search goes on until it has ended. -/
theorem Sound.after (h : s.Sound n root edges bound k) (hr : InRange n edges)
    (hallows : HeapStore.Allows bound allowed) (steps : Nat) :
    ∃ s', s.after allowed root edges steps = some s' ∧
      s'.Sound n root edges bound (k - steps) := by
  induction steps generalizing s k with
  | zero => exact ⟨s, rfl, h⟩
  | succ steps ih =>
    obtain ⟨s', hstep, hsound⟩ := h.step hr hallows
    obtain ⟨s'', hafter, hsound'⟩ := ih hsound
    refine ⟨s'', ?_, ?_⟩
    · rw [Search.after, hstep]
      exact hafter
    · rwa [Nat.add_comm, ← Nat.sub_sub]

/-- A search that has no more steps left has found its answer. -/
theorem Sound.finished_of_zero (h : s.Sound n root edges bound 0) :
    s.stage = .finished (edmonds n root edges) := by
  cases h with
  | finished stage => exact stage
  | resting _ _ measure => exact absurd measure (by simp)
  | idle _ _ _ _ measure => exact absurd measure (by simp)
  | walking _ _ _ measure => exact absurd measure (by simp)
  | closing _ _ _ measure => exact absurd measure (by simp)
  | expanding _ _ measure => exact absurd measure (by simp)

/-- A sound search is tidy. -/
theorem Sound.tidy (h : s.Sound n root edges bound k) : s.Tidy n bound := by
  cases h with
  | resting _ rests => exact Lined.tidy rests.lined rests.stocked rests.rested.priced
  | idle _ rests => exact Lined.tidy rests.lined rests.stocked rests.rested.priced
  | walking _ strolls => exact Lined.tidy strolls.lined strolls.stocked strolls.walking.priced
  | closing _ strolls => exact Lined.tidy strolls.lined strolls.stocked strolls.walking.priced
  | expanding _ unfolds => exact unfolds.tidy
  | finished _ tidy => exact tidy

/-- The class at which a walk is closed lies on the walk.  When a contraction is undone, an edge
is chosen into its class that leads to a vertex of the cycle. -/
def Meets (edges : Array WeightedEdge) (s : Search) : Prop :=
  match s.stage with
  | .closing _ u _ => ∃ step ∈ s.path, step.vertex = u
  | .expanding (c :: _) => ∃ e, s.incoming[c.representative]? = some (some e) ∧ ∃ f ∈ c.edges,
      (s.classes.rollback c.time).find (target edges e) =
        (s.classes.rollback c.time).find (target edges f)
  | _ => True

/-- No edge was taken off a heap twice, fewer cycles were contracted than there are vertices, the
walk leads through different classes, and what is looked for on it or on a cycle is there. -/
structure Orderly (n : Nat) (edges : Array WeightedEdge) (s : Search) : Prop extends
    Lined n s.classes s.path where
  popped : s.popped.Nodup
  few : s.contractions.length ≤ n - 1
  meets : s.Meets edges

/-- A sound search is orderly. -/
theorem Sound.orderly (h : s.Sound n root edges bound k) (hr : InRange n edges) :
    s.Orderly n edges := by
  refine ⟨h.tidy.toLined, h.tidy.popped, h.tidy.few, ?_⟩
  rw [Meets]
  cases h with
  | resting stage => rw [stage]; trivial
  | idle stage => rw [stage]; trivial
  | walking stage => rw [stage]; trivial
  | closing stage strolls met =>
    rw [stage]
    exact strolls.walking.on_path _ strolls.walking.lt strolls.walking.find_eq met
  | @expanding contractions _ stage unfolds =>
    rw [stage]
    cases contractions with
    | nil => trivial
    | cons c earlier => exact (unfolds.unfold hr).1
  | finished stage => rw [stage]; trivial

/-- The weights in a heap are not negative and not above those of the edges. -/
def Light (n : Nat) (edges : Array WeightedEdge) (s : Search) : Prop :=
  ∀ r < n, s.classes.find r = r → ∃ top heap marks, s.queues[r]? = some top ∧
    s.heaps.Holds top heap marks ∧ ∀ item ∈ heap.items, 0 ≤ item.2 ∧ item.2 ≤ weight edges item.1

/-- The numbers at all nodes are within a bound.  As long as there are walks, the weights in the
heaps of the classes are between zero and those of the edges. -/
structure Mild (n : Nat) (edges : Array WeightedEdge) (bound : Nat) (s : Search) : Prop where
  numbers : ∀ j, ∀ node ∈ s.heaps.node? j,
    node.key.natAbs ≤ bound ∧ node.pending.natAbs ≤ bound
  light : match s.stage with
    | .resting _ | .walking _ _ _ | .closing _ _ _ => s.Light n edges
    | .expanding _ | .finished _ => True

/-- In stocked heaps with bounded weights all weights are light. -/
theorem light_of_stocked {b : Nat}
    (h : Stocked n edges (some b) s.classes s.heaps s.queues s.popped heaps) : s.Light n edges := by
  intro r hr hfind
  obtain ⟨marks, hshelved⟩ := h.shelved
  obtain ⟨top, hread, hheld⟩ := hshelved.held r hr hfind
  obtain ⟨hfalling, hpos⟩ := hheld.tame b rfl
  exact ⟨top, _, _, hread, hheld.holds, fun item hitem =>
    ⟨hpos item hitem, hfalling.le_weigh (Int.le_refl 0) item hitem⟩⟩

/-- A sound search whose weights are bounded is mild. -/
theorem Sound.mild {b : Nat} (h : s.Sound n root edges (some b) k) : s.Mild n edges b := by
  refine ⟨h.tidy.fits b rfl, ?_⟩
  cases h with
  | resting stage rests => rw [stage]; exact light_of_stocked rests.stocked
  | idle stage rests => rw [stage]; exact light_of_stocked rests.stocked
  | walking stage strolls => rw [stage]; exact light_of_stocked strolls.stocked
  | closing stage strolls => rw [stage]; exact light_of_stocked strolls.stocked
  | expanding stage => rw [stage]; trivial
  | finished stage => rw [stage]; trivial

end Search

/-- A search can be set out on, every step of it succeeds, every state of it has the property,
and it ends with the answer within a number of steps that is linear in the size of the graph. -/
def Completes (allowed : Int → Bool) (n root : Nat) (edges : Array WeightedEdge)
    (P : Search → Prop) : Prop :=
  ∃ start, Search.setOut allowed n root edges = some start ∧
    ∀ steps, ∃ s, start.after allowed root edges steps = some s ∧ P s ∧
      (Search.limit n edges ≤ steps → s.stage = .finished (edmonds n root edges))

/-- What holds of every sound search holds at every step of one that completes. -/
theorem Completes.of_sound {P : Search → Prop} (hr : InRange n edges)
    (hallows : HeapStore.Allows bound allowed)
    (hweights : ∀ b ∈ bound, ∀ e ∈ edges, 0 ≤ e.weight ∧ e.weight ≤ b)
    (hP : ∀ s k, Search.Sound n root edges bound s k → P s) : Completes allowed n root edges P := by
  obtain ⟨start, hstart, hsound⟩ := Search.sound_setOut hr hallows hweights
  refine ⟨start, hstart, fun steps => ?_⟩
  obtain ⟨s, hafter, hsound⟩ := hsound.after hr hallows steps
  refine ⟨s, hafter, hP s _ hsound, fun hle => ?_⟩
  rw [Nat.sub_eq_zero_of_le hle] at hsound
  exact hsound.finished_of_zero

/-- The search ends.  No step of it reads or writes a table out of bounds or a node that does not
exist, and none follows a walk back beyond its beginning.  No edge is taken off a heap twice, fewer
cycles are contracted than there are vertices, the walk leads through different classes, and each
cycle is entered by a chosen edge when its contraction is undone. -/
theorem search_completes (hr : InRange n edges) :
    Completes (fun _ => true) n root edges (Search.Orderly n edges) :=
  .of_sound hr (.all none) (fun _ hb => nomatch hb) fun _ _ hsound => hsound.orderly hr

/-- A search that contracts the cycle of the vertices 1 and 2. -/
theorem search_completes_cycle :
    InRange 3 #[⟨0, 1, 5⟩, ⟨1, 2, 1⟩, ⟨2, 1, 1⟩, ⟨0, 2, 3⟩] ∧
      Completes (fun _ => true) 3 0 #[⟨0, 1, 5⟩, ⟨1, 2, 1⟩, ⟨2, 1, 1⟩, ⟨0, 2, 3⟩]
        (Search.Orderly 3 #[⟨0, 1, 5⟩, ⟨1, 2, 1⟩, ⟨2, 1, 1⟩, ⟨0, 2, 3⟩]) := by
  have hr : InRange 3 #[⟨0, 1, 5⟩, ⟨1, 2, 1⟩, ⟨2, 1, 1⟩, ⟨0, 2, 3⟩] := by
    simp [InRange]
  exact ⟨hr, search_completes hr⟩

/-- The numbers of 64 bits with a sign. -/
def int64 (x : Int) : Bool := decide (-2 ^ 63 ≤ x ∧ x < 2 ^ 63)

/-- The numbers between a bound and its negative. -/
def upTo (bound : Nat) (x : Int) : Bool := decide (-bound ≤ x ∧ x ≤ bound)

/-- A search over weights between zero and a bound makes no number outside the bound. -/
theorem Completes.of_weights {b : Nat} (hr : InRange n edges)
    (hweights : ∀ e ∈ edges, 0 ≤ e.weight ∧ e.weight ≤ b)
    (hallows : ∀ x : Int, x.natAbs ≤ b → allowed x = true) :
    Completes allowed n root edges (Search.Mild n edges b) := by
  refine .of_sound hr (fun x hx => hallows x (hx b rfl)) (fun b' hb => ?_)
    fun _ _ hsound => hsound.mild
  obtain rfl : b = b' := Option.some.inj hb
  exact hweights

/-- A search over weights between zero and a bound makes no number outside the bound and its
negative, at nodes or by turning a weight around, and the weights in the heaps stay between zero
and those of the edges.  If the bound is less than `2 ^ 62` then no number has more than 64 bits.
The calls of every graph have such weights. -/
theorem search_keeps_bounds :
    (∀ (n root bound : Nat) (edges : Array WeightedEdge), InRange n edges →
      (∀ e ∈ edges, 0 ≤ e.weight ∧ e.weight ≤ bound) → bound < 2 ^ 62 →
      Completes (upTo bound) n root edges (Search.Mild n edges bound) ∧
        Completes int64 n root edges (Search.Mild n edges bound)) ∧
    ∀ g : CallGraph, g.WellFormed →
      Completes (upTo (2 ^ 32 - 1)) g.vertexCount (g.rank g.entry) g.weightedEdges
          (Search.Mild g.vertexCount g.weightedEdges (2 ^ 32 - 1)) ∧
        Completes int64 g.vertexCount (g.rank g.entry) g.weightedEdges
          (Search.Mild g.vertexCount g.weightedEdges (2 ^ 32 - 1)) := by
  have hall : ∀ (n root bound : Nat) (edges : Array WeightedEdge), InRange n edges →
      (∀ e ∈ edges, 0 ≤ e.weight ∧ e.weight ≤ bound) → bound < 2 ^ 62 →
      Completes (upTo bound) n root edges (Search.Mild n edges bound) ∧
        Completes int64 n root edges (Search.Mild n edges bound) := by
    intro n root bound edges hr hweights hbound
    refine ⟨.of_weights hr hweights fun x hx => ?_, .of_weights hr hweights fun x hx => ?_⟩
    · rw [upTo, decide_eq_true_eq]
      omega
    · rw [int64, decide_eq_true_eq]
      omega
  refine ⟨hall, fun g hg => hall _ _ _ _ hg.inRange (fun e he => ?_) (by norm_num)⟩
  rw [CallGraph.weightedEdges, List.mem_toArray, List.mem_map] at he
  obtain ⟨arc, -, rfl⟩ := he
  have hlt := arc.call.weight.toNat_lt
  simp only
  omega

open CallGraph in
/-- The weights of a search that contracts a cycle, and those of the search over a call graph. -/
theorem search_keeps_bounds_cycle :
    Completes int64 3 0 #[⟨0, 1, 5⟩, ⟨1, 2, 1⟩, ⟨2, 1, 1⟩, ⟨0, 2, 3⟩]
        (Search.Mild 3 #[⟨0, 1, 5⟩, ⟨1, 2, 1⟩, ⟨2, 1, 1⟩, ⟨0, 2, 3⟩] 5) ∧
      Completes int64 ofBranches.vertexCount (ofBranches.rank ofBranches.entry)
        ofBranches.weightedEdges
        (Search.Mild ofBranches.vertexCount ofBranches.weightedEdges (2 ^ 32 - 1)) := by
  have hr : InRange 3 #[⟨0, 1, 5⟩, ⟨1, 2, 1⟩, ⟨2, 1, 1⟩, ⟨0, 2, 3⟩] := by
    simp [InRange]
  exact ⟨(search_keeps_bounds.1 3 0 5 _ hr (by simp) (by decide)).2,
    (search_keeps_bounds.2 ofBranches wellFormed_ofBranches).2⟩

/-- The negative of the least number of 64 bits is not one. -/
example : (Search.setOut int64 2 0 #[⟨0, 1, -2 ^ 63⟩]).bind
    (Search.after int64 0 #[⟨0, 1, -2 ^ 63⟩] 4) = none := by
  decide +kernel

end Edmonds

end FuzzCampaign

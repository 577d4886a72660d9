import FuzzCampaign.Proofs.Arborescence.Optimality
import Mathlib.Order.WellFoundedSet

/-!
# Lightest edges without a cycle

Every vertex other than the root has a lightest edge that enters it from another
vertex, where of equally light edges the one with the lowest number counts as the
lighter.  As long as these edges contain no cycle, no walk ever meets itself: following
them backwards leads away from everything that the walk has passed.  So nothing is ever
contracted, every heap is as it was at first when its vertex is left, and the edge on
top of it is the lightest one.

Main definitions:

- `LightestInto`: an edge is the lightest one into a vertex.
- `Uncontracted`: the state of walks that have only taken lightest edges.

Main results:

- `Uncontracted.leave`: leaving a vertex takes the lightest edge into it.
- `Uncontracted.walk`: no walk contracts a cycle.
- `edmonds_lightest`: the lightest edges are the answer.
-/

namespace FuzzCampaign

namespace Edmonds

open Relation

/-- The edge enters the vertex from another one and comes first among all that do: it
has the least weight, and of the edges with that weight the lowest number. -/
structure LightestInto (edges : Array WeightedEdge) (v e : Nat) : Prop where
  lt_size : e < edges.size
  source_ne : source edges e ≠ v
  target_eq : target edges e = v
  precedes : ∀ f < edges.size, source edges f ≠ v → target edges f = v →
    EdgeHeap.Precedes (e, weight edges e) (f, weight edges f)

/-- A set of edges contains no directed cycle. -/
def Acyclic (edges : Array WeightedEdge) (tree : Finset Nat) : Prop :=
  ∀ v, ¬ TransGen (LeadsInto edges tree) v v

variable {n root : Nat} {edges : Array WeightedEdge} {light : Nat → Nat}

theorem LightestInto.candidate {v e : Nat} (h : LightestInto edges v e) (hne : v ≠ root) :
    Candidate root edges e :=
  ⟨h.lt_size, by rw [h.target_eq]; exact h.source_ne, by rw [h.target_eq]; exact hne⟩

/-- Edges that all lead from lower to higher vertices contain no cycle. -/
theorem acyclic_of_lt {tree : Finset Nat} (h : ∀ e ∈ tree, source edges e < target edges e) :
    Acyclic edges tree := by
  have hdown : ∀ a b, TransGen (LeadsInto edges tree) a b → b < a := by
    intro a b hab
    induction hab with
    | single hstep =>
      obtain ⟨e, he, rfl, rfl⟩ := hstep
      exact h e he
    | tail _ hstep ih =>
      obtain ⟨e, he, rfl, rfl⟩ := hstep
      exact (h e he).trans ih
  intro v hcycle
  exact Nat.lt_irrefl v (hdown v v hcycle)

/-- No two edges precede each other. -/
theorem eq_of_precedes {e f : Nat} {x y : Int} (hef : EdgeHeap.Precedes (e, x) (f, y))
    (hfe : EdgeHeap.Precedes (f, y) (e, x)) : e = f := by
  simp only [EdgeHeap.Precedes] at hef hfe
  omega

section Lightest

variable (hlight : ∀ v < n, v ≠ root → LightestInto edges v (light v))
include hlight

/-! ## The graph of the lightest edges -/

/-- The lightest edge into a vertex is the only one among them that enters it. -/
theorem eq_light_of_mem {e : Nat} (he : e ∈ (others n root).map light) :
    (target edges e < n ∧ target edges e ≠ root) ∧ e = light (target edges e) := by
  obtain ⟨v, hv, rfl⟩ := List.mem_map.1 he
  obtain ⟨hlt, hne⟩ := mem_others.1 hv
  rw [(hlight v hlt hne).target_eq]
  exact ⟨⟨hlt, hne⟩, rfl⟩

/-- The lightest edge into a vertex leads back to its source. -/
theorem leadsInto_light {v : Nat} (hv : v < n) (hne : v ≠ root) :
    LeadsInto edges ((others n root).map light).toFinset v (source edges (light v)) := by
  refine ⟨light v, ?_, (hlight v hv hne).target_eq, rfl⟩
  exact List.mem_toFinset.2 (List.mem_map_of_mem (mem_others.2 ⟨hv, hne⟩))

/-- Without a cycle every vertex leads back to the root. -/
theorem leads_to_root (hr : InRange n edges)
    (hacyclic : Acyclic edges ((others n root).map light).toFinset) {v : Nat} (hv : v < n) :
    ReflTransGen (LeadsInto edges ((others n root).map light).toFinset) v root := by
  have horder : IsStrictOrder Nat fun a b =>
      TransGen (LeadsInto edges ((others n root).map light).toFinset) b a :=
    { irrefl := hacyclic
      trans := fun _ _ _ hab hbc => hbc.trans hab }
  -- there are finitely many vertices, so the sources come to an end
  have hwell := (Set.finite_Iio n).wellFoundedOn (r := fun a b =>
    TransGen (LeadsInto edges ((others n root).map light).toFinset) b a)
  refine hwell.induction (P := fun v => ReflTransGen _ v root) hv ?_
  intro v hv ih
  by_cases hroot : v = root
  · rw [hroot]
  · have hstep := leadsInto_light hlight hv hroot
    have hsource := hr.source_lt (hlight v hv hroot).lt_size
    exact ReflTransGen.head hstep (ih _ hsource (TransGen.single hstep))

/-- Without a cycle the lightest edges form a spanning arborescence. -/
theorem spanning_lightest (hr : InRange n edges)
    (hacyclic : Acyclic edges ((others n root).map light).toFinset) :
    SpanningArborescence n root edges ((others n root).map light).toFinset := by
  refine ⟨?_, ?_, ?_, fun v hv => leads_to_root hlight hr hacyclic hv⟩
  · intro e he
    obtain ⟨⟨hlt, hne⟩, heq⟩ := eq_light_of_mem hlight (List.mem_toFinset.1 he)
    rw [heq]
    exact (hlight _ hlt hne).lt_size
  · intro e he
    exact (eq_light_of_mem hlight (List.mem_toFinset.1 he)).1.2
  · intro v hv hne
    refine ⟨light v, ⟨?_, (hlight v hv hne).target_eq⟩, ?_⟩
    · exact List.mem_toFinset.2 (List.mem_map_of_mem (mem_others.2 ⟨hv, hne⟩))
    · rintro e ⟨he, rfl⟩
      exact (eq_light_of_mem hlight (List.mem_toFinset.1 he)).2

end Lightest

/-! ## Walks along lightest edges -/

/-- Walks from vertices below `k` have only taken lightest edges, and contracted
nothing. -/
structure Uncontracted (n root : Nat) (edges : Array WeightedEdge) (light : Nat → Nat) (k : Nat)
    (s : State) : Prop where
  classes_eq : s.classes = Classes.discrete n
  contractions_eq : s.contractions = []
  size_queues : s.queues.size = n
  size_seen : s.seen.size = n
  visited_root : s.visited root ≠ none
  seen_lt : ∀ v t, s.visited v = some t → t < k ∨ t = root
  queue_eq : ∀ v, s.visited v = none → queue s.queues v = queue (initialQueues n root edges) v
  path_light : ∀ step ∈ s.path, step.edge ∈ (others n root).map light

namespace Uncontracted
variable {s s' : State} {k start u : Nat}

theorem ne_root (h : Uncontracted n root edges light k s) (hu : s.visited u = none) :
    u ≠ root := by
  rintro rfl
  exact h.visited_root hu

theorem mono (h : Uncontracted n root edges light k s) {l : Nat} (hkl : k ≤ l) :
    Uncontracted n root edges light l s := by
  refine ⟨h.classes_eq, h.contractions_eq, h.size_queues, h.size_seen, h.visited_root, ?_,
    h.queue_eq, h.path_light⟩
  intro v t ht
  exact (h.seen_lt v t ht).imp_left fun hlt => Nat.lt_of_lt_of_le hlt hkl

theorem clearPath (h : Uncontracted n root edges light k s) :
    Uncontracted n root edges light k { s with path := [] } :=
  ⟨h.classes_eq, h.contractions_eq, h.size_queues, h.size_seen, h.visited_root, h.seen_lt,
    h.queue_eq, by simp⟩

/-- No walk has left the mark of a vertex that is not visited. -/
theorem fresh (h : Uncontracted n root edges light k s) (hk : s.visited k = none) (v : Nat) :
    s.visited v ≠ some k := by
  intro hv
  rcases h.seen_lt v k hv with hlt | hroot
  · exact Nat.lt_irrefl k hlt
  · exact h.ne_root hk hroot

/-- Before the first walk no heap has been touched. -/
theorem initial (hroot : root < n) (hr : InRange n edges) :
    Uncontracted n root edges light 0 (initial n root edges) := by
  have hrested := rested_initial hroot hr
  refine ⟨rfl, rfl, hrested.priced.size_queues, hrested.priced.size_seen, ?_, hrested.seen_lt,
    fun _ _ => rfl, by simp [Edmonds.initial]⟩
  rw [hrested.priced.visited_root]
  simp

section Walk

variable (hlight : ∀ v < n, v ≠ root → LightestInto edges v (light v))
include hlight

/-- A heap that is as it was at first gives out its lightest edge. -/
theorem edge_eq (h : Uncontracted n root edges light k s) (hlt : u < n)
    (hu : s.visited u = none) {e : Nat} {w : Int} {rest : EdgeHeap}
    (hd : Departure edges s.classes u e w (queue s.queues u) rest) : e = light u := by
  have hbest := hlight u hlt (h.ne_root hu)
  have hinto : ∀ f x, (f, x) ∈ (queue s.queues u).items ↔
      Candidate root edges f ∧ target edges f = u ∧ x = weight edges f := by
    intro f x
    rw [h.queue_eq u hu]
    exact mem_items_initialQueues hlt (f, x)
  have hfind : ∀ v, s.classes.find v = v := by
    intro v
    rw [h.classes_eq, Classes.find_discrete]
  obtain ⟨hcand, htarget, rfl⟩ := (hinto e w).1 hd.mem
  have hfirst := hd.precedes (light u, weight edges (light u))
    ((hinto _ _).2 ⟨hbest.candidate (h.ne_root hu), hbest.target_eq, rfl⟩)
    (by rw [hfind]; exact hbest.source_ne)
  have hsource : source edges e ≠ u := by
    rw [← htarget]
    exact hcand.source_ne_target
  exact eq_of_precedes hfirst (hbest.precedes e hcand.lt_size hsource htarget)

/-- A walk that leaves a vertex takes the lightest edge into it. -/
theorem leave (h : Uncontracted n root edges light (start + 1) s) (hlt : u < n)
    (hu : s.visited u = none) {e : Nat} {w : Int} (hleft : Left edges s s' start u e w) :
    e = light u ∧ Uncontracted n root edges light (start + 1) s' := by
  have hedge := h.edge_eq hlight hlt hu hleft.departure
  have hne := h.ne_root hu
  refine ⟨hedge, ?_, ?_, ?_, ?_, ?_, ?_, ?_, ?_⟩
  · rw [hleft.classes_eq, h.classes_eq]
  · rw [hleft.contractions_eq, h.contractions_eq]
  · rw [hleft.size_queues, h.size_queues]
  · rw [hleft.size_seen, h.size_seen]
  · rw [hleft.visited_eq, if_neg (Ne.symm hne)]
    exact h.visited_root
  · intro v t ht
    rw [hleft.visited_eq] at ht
    split at ht
    · obtain rfl := Option.some.inj ht
      exact Or.inl (Nat.lt_succ_self start)
    · exact h.seen_lt v t ht
  · intro v hv
    rw [hleft.visited_eq] at hv
    split at hv
    · exact absurd hv (by simp)
    · rename_i hvu
      rw [hleft.queue_ne v hvu]
      exact h.queue_eq v hv
  · intro step hstep
    rw [hleft.path_eq] at hstep
    rcases List.mem_cons.1 hstep with rfl | hold
    · rw [hedge]
      exact List.mem_map_of_mem (mem_others.2 ⟨hlt, hne⟩)
    · exact h.path_light step hold

/-- Without a cycle no walk meets itself: all that it has passed leads to the vertex at
which it has arrived, and on from there. -/
theorem walk (hroot : root < n) (hr : InRange n edges)
    (hacyclic : Acyclic edges ((others n root).map light).toFinset) {fuel : Nat}
    (h : Uncontracted n root edges light (start + 1) s) (hlt : u < n)
    (hbehind : ∀ v, s.visited v = some start →
      ReflTransGen (LeadsInto edges ((others n root).map light).toFinset) v u)
    (hend : Edmonds.walk edges start fuel u s = some s') :
    Uncontracted n root edges light (start + 1) s' := by
  induction fuel generalizing u s with
  | zero => simp [Edmonds.walk] at hend
  | succ fuel ih =>
    by_cases hu : s.visited u = none
    · cases hd : dropInternal edges s.classes u (queue s.queues u) with
      | nil =>
        rw [walk_of_nil hu hd] at hend
        exact absurd hend (by simp)
      | node e w d l r rank =>
        have hordered : (queue s.queues u).Ordered := by
          rw [h.queue_eq u hu]
          exact (rested_initial hroot hr).priced.ordered u
        have hleft : Left edges s (s.leave start u e w (.node e w d l r rank)) start u e w :=
          left_leave (by rw [h.size_queues]; exact hlt) (by rw [h.size_seen]; exact hlt)
            hordered hd
        obtain ⟨rfl, hnext⟩ := h.leave hlight hlt hu hleft
        rw [walk_of_node hu hd] at hend
        dsimp only at hend
        generalize s.leave start u (light u) w (.node (light u) w d l r rank) = s₁
          at hleft hnext hend
        have hstep := leadsInto_light hlight hlt (h.ne_root hu)
        have hsource := hr.source_lt (hlight u hlt (h.ne_root hu)).lt_size
        rw [h.classes_eq, Classes.find_discrete] at hend
        have hpassed : ∀ v, s₁.visited v = some start →
            ReflTransGen (LeadsInto edges ((others n root).map light).toFinset) v u := by
          intro v hv
          rw [hleft.visited_eq] at hv
          split at hv
          · rename_i heq
            rw [heq]
          · exact hbehind v hv
        have hfresh : s₁.visited (source edges (light u)) ≠ some start := by
          intro hmet
          exact hacyclic u (TransGen.head' hstep (hpassed _ hmet))
        rw [if_neg hfresh] at hend
        exact ih hnext hsource (fun v hv => (hpassed v hv).tail hstep) hend
    · rw [walk_of_visited hu] at hend
      rwa [← Option.some.inj hend]

end Walk

end Uncontracted

/-! ## All walks -/

/-- Every edge that is chosen is a lightest one. -/
def OnlyLight (light : Nat → Nat) (incoming : Array (Option Nat)) : Prop :=
  ∀ v e, entering incoming v = some e → e = light v

theorem OnlyLight.foldl_choose {incoming : Array (Option Nat)} (h : OnlyLight light incoming)
    (hlight : ∀ v < n, v ≠ root → LightestInto edges v (light v)) {chosen : List Nat}
    (hchosen : ∀ e ∈ chosen, e ∈ (others n root).map light) :
    OnlyLight light (chosen.foldl (choose edges (Classes.discrete n)) incoming) := by
  induction chosen generalizing incoming with
  | nil => exact h
  | cons f chosen ih =>
    refine ih ?_ fun e he => hchosen e (List.mem_cons_of_mem _ he)
    obtain ⟨-, hf⟩ := eq_light_of_mem hlight (hchosen f List.mem_cons_self)
    intro v e he
    by_cases htarget : target edges f = v
    · by_cases hv : v < incoming.size
      · rw [entering_choose_self (by rw [Classes.find_discrete, htarget]) hv] at he
        rw [← Option.some.inj he, ← htarget]
        exact hf
      · have hout : entering (choose edges (Classes.discrete n) incoming f) v = none := by
          rw [entering, Array.getElem?_eq_none (by rw [size_choose]; omega)]
          rfl
        rw [hout] at he
        exact absurd he (by simp)
    · rw [entering_choose_of_ne (by rwa [Classes.find_discrete])] at he
      exact h v e he

/-- All walks together contract nothing, and choose lightest edges only. -/
theorem Uncontracted.walkAll (hroot : root < n) (hr : InRange n edges)
    (hlight : ∀ v < n, v ≠ root → LightestInto edges v (light v))
    (hacyclic : Acyclic edges ((others n root).map light).toFinset) {m k : Nat}
    {s s' : State} {incoming incoming' : Array (Option Nat)}
    (h : Uncontracted n root edges light k s) (hlights : OnlyLight light incoming)
    (hk : k + m = n)
    (hall : Edmonds.walkAll edges (List.range' k m) s incoming = some (s', incoming')) :
    s'.contractions = [] ∧ OnlyLight light incoming' := by
  induction m generalizing k s incoming with
  | zero =>
    rw [List.range'_zero, Edmonds.walkAll] at hall
    obtain ⟨rfl, rfl⟩ := Prod.mk.inj (Option.some.inj hall)
    exact ⟨h.contractions_eq, hlights⟩
  | succ m ih =>
    rw [List.range'_succ, Edmonds.walkAll] at hall
    cases hend : Edmonds.walk edges k (edges.size + 1) k { s with path := [] } with
    | none =>
      rw [hend] at hall
      exact absurd hall (by simp)
    | some s₁ =>
      rw [hend] at hall
      have hstart := h.clearPath.mono (Nat.le_succ k)
      have hdone : Uncontracted n root edges light (k + 1) s₁ := by
        by_cases hu : ({ s with path := [] } : State).visited k = none
        · refine hstart.walk hlight hroot hr hacyclic (by omega) ?_ hend
          intro v hv
          exact absurd hv (h.clearPath.fresh hu v)
        · rw [walk_of_visited hu] at hend
          rwa [← Option.some.inj hend]
      refine ih hdone ?_ (by omega) hall
      rw [hdone.classes_eq]
      refine hlights.foldl_choose hlight ?_
      intro e he
      obtain ⟨step, hstep, rfl⟩ := List.mem_map.1 (List.mem_reverse.1 he)
      exact hdone.path_light step hstep

/-- What is listed are lightest edges. -/
theorem OnlyLight.chosen_eq {incoming : Array (Option Nat)} (h : OnlyLight light incoming)
    {l : List Nat} (hl : chosen n root incoming = some l) : l = (others n root).map light := by
  rw [chosen, ← others] at hl
  generalize others n root = vertices at hl ⊢
  induction vertices generalizing l with
  | nil => simpa using hl.symm
  | cons v vertices ih =>
    rw [List.mapM_cons] at hl
    obtain ⟨e, he, hrest⟩ := Option.bind_eq_some_iff.1 hl
    obtain ⟨edges, hedges, hcons⟩ := Option.bind_eq_some_iff.1 hrest
    rw [List.map_cons, ← ih hedges, ← h v e he]
    exact (Option.some.inj hcons).symm

end Edmonds

open Edmonds in
/-- When the lightest edges into the vertices other than the root contain no cycle, they
are the answer, in the order of the vertices that they enter.  Of equally light edges
the one with the lowest number is taken. -/
theorem edmonds_lightest {n root : Nat} {edges : Array WeightedEdge} {light : Nat → Nat}
    (hroot : root < n) (hr : InRange n edges)
    (hlight : ∀ v < n, v ≠ root → LightestInto edges v (light v))
    (hacyclic : Acyclic edges ((others n root).map light).toFinset) :
    edmonds n root edges = some ((others n root).map light) := by
  have hspanning := spanning_lightest hlight hr hacyclic
  rcases edmonds_spec hroot hr with ⟨-, v, hv, hmissed⟩ | ⟨l, hsome, -⟩
  · exact absurd (hspanning.reaches hv) hmissed
  · have hanswer := hsome
    rw [edmonds, if_pos hroot, List.range_eq_range'] at hanswer
    cases hall : walkAll edges (List.range' 0 n) (initial n root edges)
        (Array.replicate n none) with
    | none =>
      rw [hall] at hanswer
      exact absurd hanswer (by simp)
    | some result =>
      obtain ⟨s, incoming⟩ := result
      rw [hall] at hanswer
      have hnothing : OnlyLight light (Array.replicate n none) := by
        intro v e he
        rw [entering, Array.getElem?_replicate] at he
        split at he <;> exact absurd he (by simp)
      obtain ⟨hcontractions, hlights⟩ := (Uncontracted.initial hroot hr).walkAll hroot hr hlight
        hacyclic hnothing (Nat.zero_add n) hall
      dsimp only at hanswer
      rw [hcontractions, expand] at hanswer
      rw [hsome, hlights.chosen_eq hanswer]

namespace Edmonds

/-- A loop, and two vertices that are entered by two edges of the same weight each. -/
def tiedEdges : Array WeightedEdge := #[⟨2, 2, 0⟩, ⟨0, 1, 1⟩, ⟨0, 1, 1⟩, ⟨1, 2, 1⟩, ⟨0, 2, 1⟩]

end Edmonds

open Edmonds in
/-- The loop is the lightest edge, but enters its vertex from nowhere else; of the other
edges the first ones are taken. -/
theorem edmonds_lightest_tie :
    InRange 3 tiedEdges ∧ (∀ v < 3, v ≠ 0 → LightestInto tiedEdges v (2 * v - 1)) ∧
      edmonds 3 0 tiedEdges = some [1, 3] := by
  have hr : InRange 3 tiedEdges := by simp [InRange, tiedEdges]
  have hlight : ∀ v < 3, v ≠ 0 → LightestInto tiedEdges v (2 * v - 1) := by
    intro v hv hne
    obtain rfl | rfl : v = 1 ∨ v = 2 := by omega
    · refine ⟨by decide, by decide, by decide, ?_⟩
      unfold EdgeHeap.Precedes
      decide
    · refine ⟨by decide, by decide, by decide, ?_⟩
      unfold EdgeHeap.Precedes
      decide
  exact ⟨hr, hlight, edmonds_lightest (by decide) hr hlight (acyclic_of_lt (by decide))⟩

end FuzzCampaign

import FuzzCampaign.Arborescence.Edmonds
import Mathlib.Algebra.BigOperators.Group.Finset.Basic
import Mathlib.Algebra.Order.BigOperators.Group.Finset
import Mathlib.Logic.Relation
import Mathlib.Tactic.Linarith
import Mathlib.Tactic.Ring

/-!
# Spanning arborescences and what they cost at least

A spanning arborescence chooses one edge into every vertex other than the root,
such that following the chosen edges backwards always ends at the root.

A lower bound on its weight comes from charges: every charge asks an amount of
each edge that enters a given set of vertices without the root.  An arborescence
enters every such set, and a single vertex exactly once.  If no edge is asked
for more than its weight, and only single vertices are charged a negative
amount, then no arborescence weighs less than the charges together.

Main results:

- `SpanningArborescence.exists_entering`: an arborescence enters every set of
  vertices without the root.
- `SpanningArborescence.amounts_le_weight`: charges bound the weight from below.
- `weight_eq_amounts`: when every chosen edge is asked for
  exactly its weight and every set is entered once, the bound is met.
-/

namespace FuzzCampaign

namespace Edmonds

open Relation

variable {n root : Nat} {edges : Array WeightedEdge}

/-! ## Edges by number -/

/-- The weight of an edge, by number. -/
def weight (edges : Array WeightedEdge) (edge : Nat) : Int :=
  (edges[edge]?.map (·.weight)).getD 0

/-- All edges lead between the vertices `0, …, n - 1`. -/
def InRange (n : Nat) (edges : Array WeightedEdge) : Prop :=
  ∀ e ∈ edges, e.source < n ∧ e.target < n

theorem source_of_lt {e : Nat} (he : e < edges.size) : source edges e = edges[e].source := by
  simp [source, he]

theorem target_of_lt {e : Nat} (he : e < edges.size) : target edges e = edges[e].target := by
  simp [target, he]

theorem weight_of_lt {e : Nat} (he : e < edges.size) : weight edges e = edges[e].weight := by
  simp [weight, he]

theorem InRange.source_lt (h : InRange n edges) {e : Nat} (he : e < edges.size) :
    source edges e < n := by
  rw [source_of_lt he]
  exact (h _ (Array.getElem_mem he)).1

theorem InRange.target_lt (h : InRange n edges) {e : Nat} (he : e < edges.size) :
    target edges e < n := by
  rw [target_of_lt he]
  exact (h _ (Array.getElem_mem he)).2

/-- An edge that an arborescence may contain: no loop, and not into the root. -/
structure Candidate (root : Nat) (edges : Array WeightedEdge) (e : Nat) : Prop where
  lt_size : e < edges.size
  source_ne_target : source edges e ≠ target edges e
  target_ne_root : target edges e ≠ root

/-! ## Reachability and arborescences -/

/-- A vertex can be reached from another one along the edges. -/
def Reaches (edges : Array WeightedEdge) : Nat → Nat → Prop :=
  ReflTransGen fun a b => ∃ e ∈ edges, e.source = a ∧ e.target = b

/-- An edge of a set leads from `b` to `a`. -/
def LeadsInto (edges : Array WeightedEdge) (tree : Finset Nat) (a b : Nat) : Prop :=
  ∃ e ∈ tree, target edges e = a ∧ source edges e = b

/-- A set of edges, by number, that forms a spanning arborescence. -/
structure SpanningArborescence (n root : Nat) (edges : Array WeightedEdge)
    (tree : Finset Nat) : Prop where
  lt_size : ∀ e ∈ tree, e < edges.size
  target_ne_root : ∀ e ∈ tree, target edges e ≠ root
  existsUnique_into : ∀ v < n, v ≠ root → ∃! e, e ∈ tree ∧ target edges e = v
  leads_to_root : ∀ v < n, ReflTransGen (LeadsInto edges tree) v root

namespace SpanningArborescence
variable {tree : Finset Nat}

/-- An arborescence enters every set of vertices that does not contain the root. -/
theorem exists_entering (h : SpanningArborescence n root edges tree) (members : Finset Nat)
    {v : Nat} (hv : v < n) (hmem : v ∈ members) (hroot : root ∉ members) :
    ∃ e ∈ tree, target edges e ∈ members ∧ source edges e ∉ members := by
  have hchain := h.leads_to_root v hv
  clear hv
  induction hchain using ReflTransGen.head_induction_on with
  | refl => exact absurd hmem hroot
  | head hstep _ ih =>
    obtain ⟨e, he, rfl, rfl⟩ := hstep
    by_cases hsource : source edges e ∈ members
    · exact ih hsource
    · exact ⟨e, he, hmem, hsource⟩

/-- An arborescence contains no loop, since nothing else enters the vertex of a
loop. -/
theorem source_ne_target (h : SpanningArborescence n root edges tree) (hr : InRange n edges)
    {e : Nat} (he : e ∈ tree) : source edges e ≠ target edges e := by
  intro hloop
  have hlt := hr.target_lt (h.lt_size e he)
  have hne := h.target_ne_root e he
  obtain ⟨f, hf, htarget, hsource⟩ := h.exists_entering {target edges e} hlt
    (Finset.mem_singleton_self _) (by simpa using Ne.symm hne)
  rw [Finset.mem_singleton] at htarget hsource
  have hunique := (h.existsUnique_into _ hlt hne).unique ⟨hf, htarget⟩ ⟨he, rfl⟩
  subst hunique
  exact hsource hloop

/-- Every edge of an arborescence is a candidate. -/
theorem candidate (h : SpanningArborescence n root edges tree) (hr : InRange n edges)
    {e : Nat} (he : e ∈ tree) : Candidate root edges e :=
  ⟨h.lt_size e he, h.source_ne_target hr he, h.target_ne_root e he⟩

end SpanningArborescence

/-! ## Charges -/

/-- An amount that is asked of every edge that enters a set of vertices. -/
structure Charge where
  members : Finset Nat
  amount : Int

namespace Charge

/-- An edge enters the vertices of a charge from outside. -/
def Entered (c : Charge) (edges : Array WeightedEdge) (e : Nat) : Prop :=
  target edges e ∈ c.members ∧ source edges e ∉ c.members

instance (c : Charge) (edges : Array WeightedEdge) : DecidablePred (c.Entered edges) :=
  fun _ => inferInstanceAs (Decidable (_ ∧ _))

/-- A charge that bounds arborescences: its vertices are some of the graph
without the root, and it asks a negative amount for a single vertex only. -/
structure Sound (c : Charge) (n root : Nat) : Prop where
  exists_mem : ∃ v ∈ c.members, v < n
  root_not_mem : root ∉ c.members
  single_or_nonneg : (∃ v, c.members = {v}) ∨ 0 ≤ c.amount

end Charge

/-- What all charges together ask of an edge. -/
def asked (edges : Array WeightedEdge) (charges : List Charge) (e : Nat) : Int :=
  (charges.map fun c => if c.Entered edges e then c.amount else 0).sum

/-- The weight of an edge without what is asked of it. -/
def reduced (edges : Array WeightedEdge) (charges : List Charge) (e : Nat) : Int :=
  weight edges e - asked edges charges e

@[simp] theorem reduced_nil (e : Nat) : reduced edges [] e = weight edges e := by
  simp [reduced, asked]

theorem reduced_cons_of_entered {c : Charge} {charges : List Charge} {e : Nat}
    (h : c.Entered edges e) :
    reduced edges (c :: charges) e = reduced edges charges e - c.amount := by
  simp only [reduced, asked, List.map_cons, List.sum_cons, if_pos h]
  ring

theorem reduced_cons_of_not_entered {c : Charge} {charges : List Charge} {e : Nat}
    (h : ¬ c.Entered edges e) :
    reduced edges (c :: charges) e = reduced edges charges e := by
  simp only [reduced, asked, List.map_cons, List.sum_cons, if_neg h, zero_add]

/-- How often the edges of a set enter the vertices of a charge. -/
def entries (edges : Array WeightedEdge) (tree : Finset Nat) (c : Charge) : Nat :=
  (tree.filter (c.Entered edges)).card

/-- The weight of a set of edges splits into the reduced weights and the charges
paid at every entry. -/
theorem sum_weight_eq (charges : List Charge) (tree : Finset Nat) :
    ∑ e ∈ tree, weight edges e =
      ∑ e ∈ tree, reduced edges charges e +
        (charges.map fun c => (entries edges tree c : Int) * c.amount).sum := by
  have hasked : ∑ e ∈ tree, asked edges charges e =
      (charges.map fun c => (entries edges tree c : Int) * c.amount).sum := by
    induction charges with
    | nil => simp [asked]
    | cons c charges ih =>
      have hfirst : ∑ e ∈ tree, (if c.Entered edges e then c.amount else 0) =
          (entries edges tree c : Int) * c.amount := by
        rw [← Finset.sum_filter, Finset.sum_const, entries, nsmul_eq_mul]
      calc
        ∑ e ∈ tree, asked edges (c :: charges) e =
            ∑ e ∈ tree, (if c.Entered edges e then c.amount else 0) +
              ∑ e ∈ tree, asked edges charges e := by
          rw [← Finset.sum_add_distrib]
          simp [asked]
        _ = _ := by rw [hfirst, ih, List.map_cons, List.sum_cons]
  rw [← hasked, ← Finset.sum_add_distrib]
  simp [reduced]

namespace SpanningArborescence
variable {tree : Finset Nat}

/-- An arborescence pays every sound charge at least once in full. -/
theorem amount_le_entries_mul (h : SpanningArborescence n root edges tree) {c : Charge}
    (hc : c.Sound n root) : c.amount ≤ (entries edges tree c : Int) * c.amount := by
  obtain ⟨v, hv, hlt⟩ := hc.exists_mem
  obtain ⟨e, he, hin⟩ := h.exists_entering _ hlt hv hc.root_not_mem
  have hmem : e ∈ tree.filter (c.Entered edges) := Finset.mem_filter.2 ⟨he, hin⟩
  have hpos : 1 ≤ entries edges tree c := Finset.card_pos.2 ⟨e, hmem⟩
  rcases hc.single_or_nonneg with ⟨w, hw⟩ | hnonneg
  · -- a single vertex is entered once, whatever the sign of the amount
    have hvw : v = w := by simpa [hw] using hv
    subst hvw
    have hvroot : v ≠ root := by
      rintro rfl
      exact hc.root_not_mem hv
    have hone : entries edges tree c ≤ 1 := by
      refine Finset.card_le_one.2 ?_
      intro a ha b hb
      rw [Finset.mem_filter] at ha hb
      refine (h.existsUnique_into v hlt hvroot).unique ⟨ha.1, ?_⟩ ⟨hb.1, ?_⟩
      · simpa [hw] using ha.2.1
      · simpa [hw] using hb.2.1
    have hentries : entries edges tree c = 1 := by omega
    rw [hentries, Nat.cast_one, one_mul]
  · have hcast : (1 : Int) ≤ entries edges tree c := by exact_mod_cast hpos
    nlinarith

/-- Sound charges that leave no edge of an arborescence a negative weight bound
its weight from below. -/
theorem amounts_le_weight (h : SpanningArborescence n root edges tree) {charges : List Charge}
    (hsound : ∀ c ∈ charges, c.Sound n root) (hreduced : ∀ e ∈ tree, 0 ≤ reduced edges charges e) :
    (charges.map Charge.amount).sum ≤ ∑ e ∈ tree, weight edges e := by
  rw [sum_weight_eq charges tree]
  have hnonneg : 0 ≤ ∑ e ∈ tree, reduced edges charges e := Finset.sum_nonneg hreduced
  have hpaid : (charges.map Charge.amount).sum ≤
      (charges.map fun c => (entries edges tree c : Int) * c.amount).sum :=
    List.sum_le_sum fun c hc => h.amount_le_entries_mul (hsound c hc)
  linarith

end SpanningArborescence

/-- Edges that are asked for exactly their weight, and enter every charged set
once, weigh as much as the charges together. -/
theorem weight_eq_amounts {tree : Finset Nat} {charges : List Charge}
    (htight : ∀ e ∈ tree, reduced edges charges e = 0)
    (honce : ∀ c ∈ charges, ∃! e, e ∈ tree ∧ c.Entered edges e) :
    ∑ e ∈ tree, weight edges e = (charges.map Charge.amount).sum := by
  have hone : ∀ c ∈ charges, (entries edges tree c : Int) * c.amount = c.amount := by
    intro c hc
    obtain ⟨e, he, hunique⟩ := honce c hc
    have hsingle : tree.filter (c.Entered edges) = {e} := by
      ext f
      rw [Finset.mem_filter, Finset.mem_singleton]
      constructor
      · exact hunique f
      · rintro rfl
        exact he
    rw [entries, hsingle, Finset.card_singleton, Nat.cast_one, one_mul]
  rw [sum_weight_eq charges tree, Finset.sum_eq_zero htight, zero_add, List.map_congr_left hone]

end Edmonds

end FuzzCampaign

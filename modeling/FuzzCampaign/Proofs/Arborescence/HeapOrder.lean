import FuzzCampaign.Arborescence.Edmonds

/-!
# The order of an edge heap

An edge heap stands for the multiset of its items, the edges with their current
weights.  Items are compared by weight and then by edge number.  Merging,
shifting and taking the first item keep the heap order, in which the root comes
before everything below it; the pending amounts do not disturb the order, since
they move a whole subtree at once.

Main results:

- `items_merge` and `items_pop`: the operations on the multiset of items.
- `Ordered.merge`, `Ordered.pop`, `Ordered.shift`: they keep the heap order.
- `Ordered.precedes_top`: the first item comes before all others.
- `Edmonds.dropInternal_spec`: what is left of a heap after edges from inside a
  class were dropped.
- `Edmonds.departure_of_dropInternal`: the first edge from outside a class is
  taken out, and the weights of the others fall by its weight.
-/

namespace FuzzCampaign

namespace EdgeHeap

/-! ## The multiset of items -/

@[simp] theorem items_nil : nil.items = [] := rfl

/-- The amount pending at the root is added to every weight of the heap. -/
theorem items_node (e : Nat) (k d : Int) (l r : EdgeHeap) (n : Nat) :
    (node e k d l r n).items =
      (e, k + d) :: ((l.shift d).items ++ (r.shift d).items) := by
  simp [items, itemsUnder, itemsUnder_shift]

/-- The heap of one edge holds that edge. -/
@[simp] theorem items_singleton (e : Nat) (w : Int) : (singleton e w).items = [(e, w)] := by
  simp [singleton, items_node, shift]

/-- A heap has as many items as nodes. -/
theorem length_items (h : EdgeHeap) : h.items.length = h.size := by
  suffices key : ∀ a : Int, (h.itemsUnder a).length = h.size from key 0
  induction h with
  | nil => intro a; rfl
  | node e k d l r n ihl ihr =>
    intro a
    simp [itemsUnder, size, ihl, ihr]

/-- A root that is joined with two heaps is added to their items. -/
theorem items_join (e : Nat) (k : Int) (a b : EdgeHeap) :
    (join e k a b).items.Perm ((e, k) :: (a.items ++ b.items)) := by
  have hzero : ∀ h : EdgeHeap, (h.shift 0).items = h.items := by
    intro h
    simp [items_shift]
  unfold join
  split
  · rw [items_node, hzero, hzero, Int.add_zero]
    exact List.Perm.cons _ List.perm_append_comm
  · rw [items_node, hzero, hzero, Int.add_zero]

/-- Merging two heaps gives the union of their items. -/
theorem items_merge (a b : EdgeHeap) : (merge a b).items.Perm (a.items ++ b.items) := by
  fun_induction merge a b with
  | case1 b => simp
  | case2 e k d l r n => simp
  | case3 e k d l r n e' k' d' l' r' n' h ih =>
    have hfirst : (node e (k + d) 0 (l.shift d) (r.shift d) n).items =
        (node e k d l r n).items := items_settle (node e k d l r n)
    rw [hfirst] at ih
    have hjoin := (items_join e' (k' + d') (l'.shift d') _).trans
      (List.Perm.cons _ (List.Perm.append_left _ ih))
    rw [← List.append_assoc, ← List.cons_append, ← items_node e' k' d' l' r' n'] at hjoin
    exact hjoin.trans List.perm_append_comm
  | case4 e k d l r n e' k' d' l' r' n' h ih =>
    have hsecond : (node e' (k' + d') 0 (l'.shift d') (r'.shift d') n').items =
        (node e' k' d' l' r' n').items := items_settle (node e' k' d' l' r' n')
    rw [hsecond] at ih
    have hjoin := (items_join e (k + d) (l.shift d) _).trans
      (List.Perm.cons _ (List.Perm.append_left _ ih))
    rwa [← List.append_assoc, ← List.cons_append, ← items_node e k d l r n] at hjoin

/-- Taking the first item leaves all others. -/
theorem items_pop {h : EdgeHeap} {item : Nat × Int} (htop : h.top? = some item) :
    h.items.Perm (item :: h.pop.items) := by
  cases h with
  | nil => simp [top?] at htop
  | node e k d l r n =>
    simp only [top?, Option.some.injEq] at htop
    subst htop
    rw [items_node]
    exact List.Perm.cons _ (items_merge _ _).symm

/-! ## Heap order -/

/-- Items are compared by weight and then by edge number. -/
def Precedes (a b : Nat × Int) : Prop := a.2 < b.2 ∨ a.2 = b.2 ∧ a.1 ≤ b.1

/-- Every item precedes itself. -/
theorem Precedes.refl (a : Nat × Int) : Precedes a a := Or.inr ⟨rfl, Nat.le_refl _⟩

/-- Precedence is transitive. -/
theorem Precedes.trans {a b c : Nat × Int} (hab : Precedes a b) (hbc : Precedes b c) :
    Precedes a c := by
  simp only [Precedes] at *
  omega

/-- What precedes is not heavier. -/
theorem Precedes.weight_le {a b : Nat × Int} (h : Precedes a b) : a.2 ≤ b.2 := by
  simp only [Precedes] at h
  omega

/-- The test of the merge decides which of two roots comes first. -/
theorem before_eq_true_iff {x y : Int} {a b : Nat} :
    before x a y b = true ↔ x < y ∨ x = y ∧ a < b := by
  simp [before]

/-- The item at every root comes before all items below it. -/
def Ordered : EdgeHeap → Prop
  | nil => True
  | node e k _ l r _ =>
    (∀ item ∈ l.items, Precedes (e, k) item) ∧ (∀ item ∈ r.items, Precedes (e, k) item) ∧
      l.Ordered ∧ r.Ordered

/-- The empty heap is ordered. -/
theorem ordered_nil : nil.Ordered := trivial

/-- The heap of one edge is ordered. -/
theorem ordered_singleton (e : Nat) (w : Int) : (singleton e w).Ordered := by
  simp [singleton, Ordered]

/-- A shift moves all items alike, so it keeps the order. -/
theorem Ordered.shift {h : EdgeHeap} (ho : h.Ordered) (amount : Int) :
    (h.shift amount).Ordered := by
  cases h with
  | nil => trivial
  | node e k d l r n => exact ho

/-- Shifting all weights of a heap shifts those of its root. -/
theorem precedes_shift_iff {h : EdgeHeap} {e : Nat} {k amount : Int} :
    (∀ item ∈ (h.shift amount).items, Precedes (e, k + amount) item) ↔
      ∀ item ∈ h.items, Precedes (e, k) item := by
  simp only [items_shift, List.forall_mem_map, Precedes]
  refine forall_congr' fun item => ?_
  refine imp_congr_right fun _ => ?_
  omega

/-- Settling the root keeps a heap ordered. -/
theorem Ordered.settle {h : EdgeHeap} (ho : h.Ordered) : h.settle.Ordered := by
  cases h with
  | nil => trivial
  | node e k d l r n =>
    rcases ho with ⟨hl, hr, hol, hor⟩
    exact ⟨precedes_shift_iff.2 hl, precedes_shift_iff.2 hr, hol.shift d, hor.shift d⟩

/-- Two ordered heaps are joined below a root that precedes them both. -/
theorem Ordered.join {e : Nat} {k : Int} {a b : EdgeHeap} (ha : a.Ordered) (hb : b.Ordered)
    (hka : ∀ item ∈ a.items, Precedes (e, k) item)
    (hkb : ∀ item ∈ b.items, Precedes (e, k) item) : (join e k a b).Ordered := by
  unfold EdgeHeap.join
  split
  · exact ⟨hkb, hka, hb, ha⟩
  · exact ⟨hka, hkb, ha, hb⟩

/-- The first item of an ordered heap comes before all its items. -/
theorem Ordered.precedes_top {h : EdgeHeap} {top item : Nat × Int} (ho : h.Ordered)
    (htop : h.top? = some top) (hitem : item ∈ h.items) : Precedes top item := by
  cases h with
  | nil => simp [top?] at htop
  | node e k d l r n =>
    simp only [top?, Option.some.injEq] at htop
    subst htop
    rcases ho with ⟨hl, hr, -, -⟩
    rw [items_node, List.mem_cons, List.mem_append] at hitem
    rcases hitem with rfl | hleft | hright
    · exact Precedes.refl _
    · exact precedes_shift_iff.2 hl item hleft
    · exact precedes_shift_iff.2 hr item hright

/-- Merging keeps the heap order. -/
theorem Ordered.merge {a b : EdgeHeap} (ha : a.Ordered) (hb : b.Ordered) :
    (merge a b).Ordered := by
  fun_induction EdgeHeap.merge a b with
  | case1 b => exact hb
  | case2 e k d l r n => exact ha
  | case3 e k d l r n e' k' d' l' r' n' h ih =>
    have hsa : (node e (k + d) 0 (l.shift d) (r.shift d) n).Ordered := ha.settle
    rcases hb with ⟨hl', hr', hol', hor'⟩
    have hroot : Precedes (e', k' + d') (e, k + d) := by
      have hlt := before_eq_true_iff.1 h
      simp only [Precedes]
      omega
    refine (hol'.shift d').join (ih (hor'.shift d') hsa) (precedes_shift_iff.2 hl') ?_
    intro item hitem
    rw [(items_merge _ _).mem_iff, List.mem_append] at hitem
    rcases hitem with hright | hother
    · exact precedes_shift_iff.2 hr' item hright
    · exact hroot.trans (hsa.precedes_top (by simp [top?]) hother)
  | case4 e k d l r n e' k' d' l' r' n' h ih =>
    have hsb : (node e' (k' + d') 0 (l'.shift d') (r'.shift d') n').Ordered := hb.settle
    rcases ha with ⟨hl, hr, hol, hor⟩
    have hroot : Precedes (e, k + d) (e', k' + d') := by
      have hnot := mt before_eq_true_iff.2 h
      simp only [Precedes]
      omega
    refine (hol.shift d).join (ih (hor.shift d) hsb) (precedes_shift_iff.2 hl) ?_
    intro item hitem
    rw [(items_merge _ _).mem_iff, List.mem_append] at hitem
    rcases hitem with hright | hother
    · exact precedes_shift_iff.2 hr item hright
    · exact hroot.trans (hsb.precedes_top (by simp [top?]) hother)

/-- Without its first item an ordered heap is still ordered. -/
theorem Ordered.pop {h : EdgeHeap} (ho : h.Ordered) : h.pop.Ordered := by
  cases h with
  | nil => trivial
  | node e k d l r n =>
    rcases ho with ⟨-, -, hol, hor⟩
    exact (hol.shift d).merge (hor.shift d)

end EdgeHeap

namespace Edmonds

/-! ## Dropping the edges from inside a class -/

/-- What is left of a heap after edges from inside the class `u` were dropped: a
settled heap without some internal edges, whose first edge comes from outside. -/
structure Dropped (edges : Array WeightedEdge) (classes : Classes) (u : Nat)
    (before after : EdgeHeap) : Prop where
  ordered : after.Ordered
  items : ∃ gone : List (Nat × Int), before.items.Perm (gone ++ after.items) ∧
    ∀ item ∈ gone, classes.find (source edges item.1) = u
  external : ∀ e k d l r n, after = .node e k d l r n →
    d = 0 ∧ classes.find (source edges e) ≠ u

/-- Dropping stops at the first edge from outside, and everything before it came from inside. -/
theorem dropInternal_spec (edges : Array WeightedEdge) (classes : Classes) (u : Nat)
    {h : EdgeHeap} (ho : h.Ordered) :
    Dropped edges classes u h (dropInternal edges classes u h) := by
  fun_induction dropInternal edges classes u h with
  | case1 h hs =>
    refine ⟨EdgeHeap.ordered_nil, ⟨[], ?_, by simp⟩, by simp⟩
    rw [← EdgeHeap.items_settle, hs]
    rfl
  | case2 h e k d l r n hs hin ih =>
    have hos : (EdgeHeap.node e k d l r n).Ordered := hs ▸ ho.settle
    rcases ih hos.pop with ⟨hord, ⟨gone, hperm, hgone⟩, hext⟩
    refine ⟨hord, ⟨(e, k + d) :: gone, ?_, ?_⟩, hext⟩
    · rw [← EdgeHeap.items_settle, hs]
      exact (EdgeHeap.items_pop rfl).trans (List.Perm.cons _ hperm)
    · simpa [hin] using hgone
  | case3 h e k d l r n hs hout =>
    have hos : (EdgeHeap.node e k d l r n).Ordered := hs ▸ ho.settle
    refine ⟨hos, ⟨[], ?_, by simp⟩, ?_⟩
    · rw [← EdgeHeap.items_settle, hs]
      rfl
    · intro e' k' d' l' r' n' heq
      cases heq
      refine ⟨?_, hout⟩
      cases h with
      | nil => cases hs
      | node => cases hs; rfl

/-- Nothing is left only if all edges come from inside the class. -/
theorem source_of_dropInternal_eq_nil {edges : Array WeightedEdge} {classes : Classes} {u : Nat}
    {h : EdgeHeap} (ho : h.Ordered) (hnil : dropInternal edges classes u h = .nil) :
    ∀ item ∈ h.items, classes.find (source edges item.1) = u := by
  obtain ⟨gone, hperm, hgone⟩ := (dropInternal_spec edges classes u ho).items
  rw [hnil, EdgeHeap.items_nil, List.append_nil] at hperm
  intro item hitem
  exact hgone item (hperm.mem_iff.1 hitem)

/-- The edge `e` is taken out of the heap of the class `u` at the price `k`, which
all other edges into the class get off their weights.  Edges from inside the
class may be lost. -/
structure Departure (edges : Array WeightedEdge) (classes : Classes) (u e : Nat) (k : Int)
    (heap rest : EdgeHeap) : Prop where
  ordered : rest.Ordered
  mem : (e, k) ∈ heap.items
  external : classes.find (source edges e) ≠ u
  precedes : ∀ item ∈ heap.items, classes.find (source edges item.1) ≠ u →
    EdgeHeap.Precedes (e, k) item
  of_mem_rest : ∀ item ∈ rest.items, (item.1, item.2 + k) ∈ heap.items
  mem_rest : ∀ item ∈ heap.items, classes.find (source edges item.1) ≠ u →
    item.1 = e ∨ (item.1, item.2 - k) ∈ rest.items
  size_lt : rest.size < heap.size

/-- The edge that a walk follows leaves its class and is the least that does. -/
theorem departure_of_dropInternal {edges : Array WeightedEdge} {classes : Classes} {u e : Nat}
    {k d : Int} {l r heap : EdgeHeap} {rank : Nat} (ho : heap.Ordered)
    (hd : dropInternal edges classes u heap = .node e k d l r rank) :
    Departure edges classes u e k heap (((EdgeHeap.node e k d l r rank).shift (-k)).pop) := by
  have hspec := dropInternal_spec edges classes u ho
  rw [hd] at hspec
  obtain ⟨gone, hperm, hgone⟩ := hspec.items
  obtain ⟨rfl, hout⟩ := hspec.external e k d l r rank rfl
  generalize hafter : EdgeHeap.node e k 0 l r rank = after at hspec hperm
  have htop : after.top? = some (e, k) := by simp [← hafter, EdgeHeap.top?]
  have htop' : (after.shift (-k)).top? = some (e, 0) := by
    have hzero : k + (0 + -k) = 0 := by omega
    rw [← hafter]
    exact congrArg (fun weight => some (e, weight)) hzero
  have hpop := EdgeHeap.items_pop htop'
  have hkept : ∀ item ∈ heap.items, classes.find (source edges item.1) ≠ u →
      item ∈ after.items := by
    intro item hitem hext
    rcases List.mem_append.1 (hperm.mem_iff.1 hitem) with hg | ha
    · exact absurd (hgone item hg) hext
    · exact ha
  refine ⟨(hspec.ordered.shift (-k)).pop, ?_, hout, ?_, ?_, ?_, ?_⟩
  · refine hperm.mem_iff.2 (List.mem_append_right _ ?_)
    exact (EdgeHeap.items_pop htop).mem_iff.2 List.mem_cons_self
  · intro item hitem hext
    exact hspec.ordered.precedes_top htop (hkept item hitem hext)
  · intro item hitem
    have hshift := hpop.mem_iff.2 (List.mem_cons_of_mem _ hitem)
    rw [EdgeHeap.items_shift, List.mem_map] at hshift
    obtain ⟨old, hold, rfl⟩ := hshift
    have hback : old.2 + -k + k = old.2 := by omega
    rw [hback]
    exact hperm.mem_iff.2 (List.mem_append_right _ hold)
  · intro item hitem hext
    have hshift : (item.1, item.2 - k) ∈ (after.shift (-k)).items := by
      rw [EdgeHeap.items_shift, List.mem_map]
      exact ⟨item, hkept item hitem hext, rfl⟩
    rcases List.mem_cons.1 (hpop.mem_iff.1 hshift) with heq | hrest
    · exact Or.inl (congrArg Prod.fst heq)
    · exact Or.inr hrest
  · have hlength := hperm.length_eq
    have hlength' := hpop.length_eq
    simp only [List.length_append, List.length_cons, EdgeHeap.length_items,
      EdgeHeap.size_shift] at hlength hlength'
    omega

end Edmonds

end FuzzCampaign

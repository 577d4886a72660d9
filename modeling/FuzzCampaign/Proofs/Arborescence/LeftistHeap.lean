import FuzzCampaign.Proofs.Arborescence.HeapOrder
import Mathlib

/-!
# Leftist heaps

The rank that is recorded at a node is the length of its right spine, and the left of two
heaps below a node has the longer one.  So a heap doubles with each step down its right
spine, and the spine of a heap of `n` edges is at most as long as the binary logarithm of
`n + 1`.  Merging puts the heaps that it joins into this shape again.

Main definitions:

- `EdgeHeap.bag`: the multiset of the edges of a heap with their weights.
- `EdgeHeap.spine`: the length of the right spine.
- `EdgeHeap.Leftist`: every node has the shape of a leftist heap.
- `EdgeHeap.extent`: how large the numbers in a heap are.
- `EdgeHeap.Tame`: the numbers of a heap are within a bound, and its weights only fell.

Main results:

- `bag_merge`, `bag_shift`, `bag_pop`: the operations on the multiset.
- `Leftist.merge`, `Leftist.shift`, `Leftist.settle`: they keep the shape.
- `Leftist.spine_le_log2`: how long a right spine can be.
- `extent_merge_le`, `extent_pop_le`, `extent_shift_le`: only a shift makes the numbers
  larger, and by no more than its amount.
- `Tame.merge`, `Tame.shift_top`: the bound is kept when the first weight is taken off all
  weights, and nothing else.
-/

namespace FuzzCampaign

namespace EdgeHeap

/-! ## The multiset of edges -/

/-- The edges of a heap with their current weights. -/
def bag (h : EdgeHeap) : Multiset (Nat × Int) := h.items

/-- The bag of a heap has as many items as the heap has nodes. -/
theorem card_bag (h : EdgeHeap) : h.bag.card = h.size := length_items h

/-- The bag of a heap of one node. -/
theorem bag_singleton (e : Nat) (w : Int) : (singleton e w).bag = {(e, w)} := by
  rw [bag, items_singleton]
  rfl

@[simp] theorem bag_settle (h : EdgeHeap) : h.settle.bag = h.bag := by
  rw [bag, items_settle, bag]

/-- Shifting a heap shifts the weights in its bag. -/
theorem bag_shift (amount : Int) (h : EdgeHeap) :
    (h.shift amount).bag = h.bag.map fun item => (item.1, item.2 + amount) := by
  rw [bag, items_shift]
  rfl

/-- The bag of a merged heap is the sum of the bags. -/
theorem bag_merge (a b : EdgeHeap) : (merge a b).bag = a.bag + b.bag :=
  Multiset.coe_eq_coe.2 (items_merge a b)

/-- Taking the first item removes exactly that. -/
theorem bag_pop {h : EdgeHeap} {item : Nat × Int} (htop : h.top? = some item) :
    h.pop.bag = h.bag.erase item := by
  have hbag : h.bag = item ::ₘ h.pop.bag := Multiset.coe_eq_coe.2 (items_pop htop)
  rw [hbag, Multiset.erase_cons_head]

/-- What is on top is in the bag. -/
theorem mem_bag_of_top? {h : EdgeHeap} {item : Nat × Int} (htop : h.top? = some item) :
    item ∈ h.bag :=
  (items_pop htop).mem_iff.2 List.mem_cons_self

/-- To shift by nothing changes nothing. -/
theorem shift_zero (h : EdgeHeap) : h.shift 0 = h := by
  cases h with
  | nil => rfl
  | node e k d l r n => rw [shift, Int.add_zero]

/-- Where nothing is pending, settling changes nothing. -/
theorem settle_node_zero (e : Nat) (k : Int) (l r : EdgeHeap) (n : Nat) :
    (node e k 0 l r n).settle = node e k 0 l r n := by
  rw [settle, Int.add_zero, shift_zero, shift_zero]

theorem top?_node_zero (e : Nat) (k : Int) (l r : EdgeHeap) (n : Nat) :
    (node e k 0 l r n).top? = some (e, k) := by
  rw [top?, Int.add_zero]

/-! ## Leftist heaps -/

/-- The length of the right spine. -/
def spine : EdgeHeap → Nat
  | nil => 0
  | node _ _ _ _ r _ => r.spine + 1

/-- At every node, the rank on the left is not below the one on the right, and the rank that
is recorded is one more than the latter. -/
def Leftist : EdgeHeap → Prop
  | nil => True
  | node _ _ _ l r n => r.rank ≤ l.rank ∧ n = r.rank + 1 ∧ l.Leftist ∧ r.Leftist

/-- The spine is one node longer than that of the right child. -/
theorem spine_node (e : Nat) (k d : Int) (l r : EdgeHeap) (n : Nat) :
    (node e k d l r n).spine = r.spine + 1 := rfl

/-- Shifting does not change the spine, which depends on the shape only. -/
@[simp] theorem spine_shift (amount : Int) (h : EdgeHeap) : (h.shift amount).spine = h.spine := by
  cases h <;> rfl

/-- A single node is leftist. -/
theorem leftist_singleton (e : Nat) (w : Int) : (singleton e w).Leftist :=
  ⟨Nat.le_refl _, rfl, trivial, trivial⟩

/-- Shifting keeps the shape. -/
theorem Leftist.shift {h : EdgeHeap} (hl : h.Leftist) (amount : Int) :
    (h.shift amount).Leftist := by
  cases h with
  | nil => trivial
  | node e k d l r n => exact hl

/-- Settling the pending amount of the root keeps the shape. -/
theorem Leftist.settle {h : EdgeHeap} (hl : h.Leftist) : h.settle.Leftist := by
  cases h with
  | nil => trivial
  | node e k d l r n =>
    obtain ⟨hranks, hrank, hleft, hright⟩ := hl
    exact ⟨by simpa using hranks, by simpa using hrank, hleft.shift d, hright.shift d⟩

/-- The longer spine goes to the left. -/
theorem Leftist.join {a b : EdgeHeap} (ha : a.Leftist) (hb : b.Leftist) (e : Nat) (k : Int) :
    (join e k a b).Leftist := by
  unfold EdgeHeap.join
  split
  · exact ⟨by omega, rfl, hb, ha⟩
  · exact ⟨by omega, rfl, ha, hb⟩

/-- Merging keeps the shape. -/
theorem Leftist.merge {a b : EdgeHeap} (ha : a.Leftist) (hb : b.Leftist) :
    (merge a b).Leftist := by
  fun_induction EdgeHeap.merge a b with
  | case1 b => exact hb
  | case2 e k d l r n => exact ha
  | case3 e k d l r n e' k' d' l' r' n' h ih =>
    obtain ⟨-, -, hleft, hright⟩ := hb
    exact (hleft.shift d').join (ih (hright.shift d') ha.settle) e' (k' + d')
  | case4 e k d l r n e' k' d' l' r' n' h ih =>
    obtain ⟨-, -, hleft, hright⟩ := ha
    exact (hleft.shift d).join (ih (hright.shift d) hb.settle) e (k + d)

/-- The rank that is recorded is the length of the right spine. -/
theorem Leftist.rank_eq {h : EdgeHeap} (hl : h.Leftist) : h.rank = h.spine := by
  induction h with
  | nil => rfl
  | node e k d l r n ihl ihr =>
    obtain ⟨-, hrank, -, hright⟩ := hl
    rw [rank, hrank, ihr hright, spine]

/-- A heap doubles with each step down its right spine. -/
theorem Leftist.two_pow_le {h : EdgeHeap} (hl : h.Leftist) : 2 ^ h.spine ≤ h.size + 1 := by
  induction h with
  | nil => exact Nat.le_refl 1
  | node e k d l r n ihl ihr =>
    obtain ⟨hranks, -, hleft, hright⟩ := hl
    rw [hleft.rank_eq, hright.rank_eq] at hranks
    have hdouble : 2 ^ r.spine ≤ 2 ^ l.spine := Nat.pow_le_pow_right (by decide) hranks
    have hl' := ihl hleft
    have hr' := ihr hright
    rw [spine, Nat.pow_succ, size]
    omega

/-- The spine of a leftist heap is logarithmic in its size. -/
theorem Leftist.spine_le_log2 {h : EdgeHeap} (hl : h.Leftist) :
    h.spine ≤ Nat.log2 (h.size + 1) :=
  (Nat.le_log2 (Nat.succ_ne_zero _)).2 hl.two_pow_le

/-! ## The numbers in a heap -/

/-- A bound on the numbers in a heap: the largest sum of an absolute key and the absolute
amounts pending on the way to it. -/
def extent : EdgeHeap → Nat
  | nil => 0
  | node _ k d l r _ => d.natAbs + max k.natAbs (max l.extent r.extent)

/-- A bound for a node bounds its key and its children, together with the amount that
is pending. -/
theorem extent_node_le_iff {e n bound : Nat} {k d : Int} {l r : EdgeHeap} :
    (node e k d l r n).extent ≤ bound ↔ d.natAbs + k.natAbs ≤ bound ∧
      d.natAbs + l.extent ≤ bound ∧ d.natAbs + r.extent ≤ bound := by
  rw [extent, ← Nat.add_max_add_left, ← Nat.add_max_add_left, Nat.max_le, Nat.max_le]

/-- The extent of a heap whose root is settled. -/
theorem extent_node_zero_le_iff {e n bound : Nat} {k : Int} {l r : EdgeHeap} :
    (node e k 0 l r n).extent ≤ bound ↔
      k.natAbs ≤ bound ∧ l.extent ≤ bound ∧ r.extent ≤ bound := by
  rw [extent_node_le_iff, Int.natAbs_zero, Nat.zero_add, Nat.zero_add, Nat.zero_add]

/-- Shifting enlarges the extent by the amount at most. -/
theorem extent_shift_le (amount : Int) (h : EdgeHeap) :
    (h.shift amount).extent ≤ h.extent + amount.natAbs := by
  cases h with
  | nil => exact Nat.zero_le _
  | node e k d l r n =>
    have hsum := Int.natAbs_add_le d amount
    obtain ⟨hk, hl, hr⟩ := extent_node_le_iff.1 (Nat.le_refl (node e k d l r n).extent)
    exact extent_node_le_iff.2 ⟨by omega, by omega, by omega⟩

/-- Settling does not enlarge the extent. -/
theorem extent_settle_le (h : EdgeHeap) : h.settle.extent ≤ h.extent := by
  cases h with
  | nil => exact Nat.le_refl 0
  | node e k d l r n =>
    have hsum := Int.natAbs_add_le k d
    have hleft := extent_shift_le d l
    have hright := extent_shift_le d r
    obtain ⟨hk, hl, hr⟩ := extent_node_le_iff.1 (Nat.le_refl (node e k d l r n).extent)
    exact extent_node_le_iff.2 ⟨by omega, by omega, by omega⟩

/-- A root that is joined with two heaps keeps their bound. -/
theorem extent_join_le {e bound : Nat} {k : Int} {a b : EdgeHeap} (hk : k.natAbs ≤ bound)
    (ha : a.extent ≤ bound) (hb : b.extent ≤ bound) : (join e k a b).extent ≤ bound := by
  unfold join
  split
  · exact extent_node_zero_le_iff.2 ⟨hk, hb, ha⟩
  · exact extent_node_zero_le_iff.2 ⟨hk, ha, hb⟩

/-- Merging keeps a bound of both heaps. -/
theorem extent_merge_le {a b : EdgeHeap} {bound : Nat} (ha : a.extent ≤ bound)
    (hb : b.extent ≤ bound) : (merge a b).extent ≤ bound := by
  fun_induction merge a b with
  | case1 b => exact hb
  | case2 e k d l r n => exact ha
  | case3 e k d l r n e' k' d' l' r' n' h ih =>
    have hother := (extent_settle_le (node e k d l r n)).trans ha
    obtain ⟨hk, hleft, hright⟩ :=
      extent_node_zero_le_iff.1 ((extent_settle_le (node e' k' d' l' r' n')).trans hb)
    exact extent_join_le hk hleft (ih hright hother)
  | case4 e k d l r n e' k' d' l' r' n' h ih =>
    have hother := (extent_settle_le (node e' k' d' l' r' n')).trans hb
    obtain ⟨hk, hleft, hright⟩ :=
      extent_node_zero_le_iff.1 ((extent_settle_le (node e k d l r n)).trans ha)
    exact extent_join_le hk hleft (ih hright hother)

/-- Taking out the top does not enlarge the extent. -/
theorem extent_pop_le (h : EdgeHeap) : h.pop.extent ≤ h.extent := by
  cases h with
  | nil => exact Nat.le_refl 0
  | node e k d l r n =>
    obtain ⟨-, hleft, hright⟩ :=
      extent_node_zero_le_iff.1 (extent_settle_le (node e k d l r n))
    exact extent_merge_le hleft hright

/-! ## Amounts that only fall -/

/-- The amounts that are pending are not positive, and no key is above the weight that its edge
had at first, which is not above a bound. -/
def Falling (weigh : Nat → Int) (bound : Nat) : EdgeHeap → Prop
  | nil => True
  | node e k d l r _ => (k ≤ weigh e ∧ weigh e ≤ bound ∧ d ≤ 0) ∧ l.Falling weigh bound ∧
      r.Falling weigh bound

namespace Falling
variable {weigh : Nat → Int} {bound : Nat}

/-- A heap goes on falling when it is shifted downwards. -/
theorem shift {h : EdgeHeap} (hf : h.Falling weigh bound) {amount : Int} (ha : amount ≤ 0) :
    (h.shift amount).Falling weigh bound := by
  cases h with
  | nil => trivial
  | node e k d l r n =>
    obtain ⟨⟨hk, hw, hd⟩, hbelow⟩ := hf
    exact ⟨⟨hk, hw, by omega⟩, hbelow⟩

/-- Settling keeps a heap falling. -/
theorem settle {h : EdgeHeap} (hf : h.Falling weigh bound) : h.settle.Falling weigh bound := by
  cases h with
  | nil => trivial
  | node e k d l r n =>
    obtain ⟨⟨hk, hw, hd⟩, hl, hr⟩ := hf
    exact ⟨⟨by omega, hw, Int.le_refl 0⟩, hl.shift hd, hr.shift hd⟩

/-- A root whose key is small enough may be joined with falling heaps. -/
theorem join {e : Nat} {k : Int} {a b : EdgeHeap} (hk : k ≤ weigh e) (hw : weigh e ≤ bound)
    (ha : a.Falling weigh bound) (hb : b.Falling weigh bound) :
    (join e k a b).Falling weigh bound := by
  unfold EdgeHeap.join
  split
  · exact ⟨⟨hk, hw, Int.le_refl 0⟩, hb, ha⟩
  · exact ⟨⟨hk, hw, Int.le_refl 0⟩, ha, hb⟩

/-- Merging keeps heaps falling. -/
theorem merge {a b : EdgeHeap} (ha : a.Falling weigh bound) (hb : b.Falling weigh bound) :
    (merge a b).Falling weigh bound := by
  fun_induction EdgeHeap.merge a b with
  | case1 b => exact hb
  | case2 e k d l r n => exact ha
  | case3 e k d l r n e' k' d' l' r' n' h ih =>
    obtain ⟨⟨hk, hw, -⟩, hleft, hright⟩ := hb.settle
    exact join hk hw hleft (ih hright ha.settle)
  | case4 e k d l r n e' k' d' l' r' n' h ih =>
    obtain ⟨⟨hk, hw, -⟩, hleft, hright⟩ := ha.settle
    exact join hk hw hleft (ih hright hb.settle)

/-- No weight is above the one that the edge had at first. -/
theorem le_weigh {h : EdgeHeap} (hf : h.Falling weigh bound) {above : Int} (ha : above ≤ 0) :
    ∀ item ∈ h.itemsUnder above, item.2 ≤ weigh item.1 := by
  induction h generalizing above with
  | nil => simp [itemsUnder]
  | node e k d l r n ihl ihr =>
    obtain ⟨⟨hk, -, hd⟩, hl, hr⟩ := hf
    rw [itemsUnder, List.forall_mem_cons, List.forall_mem_append]
    exact ⟨by simp only; omega, ihl hl (by omega), ihr hr (by omega)⟩

end Falling

/-- If there is a bound on the weights, then they only fall, and not below zero. -/
def Tame (bound : Option Nat) (weigh : Nat → Int) (h : EdgeHeap) : Prop :=
  ∀ b ∈ bound, h.Falling weigh b ∧ ∀ item ∈ h.items, 0 ≤ item.2

namespace Tame
variable {bound : Option Nat} {weigh : Nat → Int} {h h' : EdgeHeap}

/-- Without a bound every heap is tame. -/
theorem unbounded (weigh : Nat → Int) (h : EdgeHeap) : h.Tame none weigh :=
  fun _ hb => nomatch hb

/-- The empty heap is tame for every bound. -/
theorem nil (bound : Option Nat) (weigh : Nat → Int) : EdgeHeap.nil.Tame bound weigh :=
  fun _ _ => ⟨trivial, by simp⟩

/-- A single node is tame if it has the weight of its edge, and that is within the bound. -/
theorem singleton {e : Nat} {w : Int} (hw : ∀ b ∈ bound, w = weigh e ∧ 0 ≤ w ∧ w ≤ b) :
    (singleton e w).Tame bound weigh := by
  intro b hb
  obtain ⟨heq, hpos, hle⟩ := hw b hb
  rw [items_singleton, List.forall_mem_singleton]
  exact ⟨⟨⟨Int.le_of_eq heq, heq ▸ hle, Int.le_refl 0⟩, trivial, trivial⟩, hpos⟩

/-- Settling keeps a heap tame. -/
theorem settle (ht : h.Tame bound weigh) : h.settle.Tame bound weigh := by
  intro b hb
  rw [items_settle]
  exact ⟨(ht b hb).1.settle, (ht b hb).2⟩

/-- Merging keeps heaps tame. -/
theorem merge (ht : h.Tame bound weigh) (ht' : h'.Tame bound weigh) :
    (merge h h').Tame bound weigh := by
  intro b hb
  refine ⟨(ht b hb).1.merge (ht' b hb).1, fun item hitem => ?_⟩
  rcases List.mem_append.1 ((items_merge h h').mem_iff.1 hitem) with hitem | hitem
  · exact (ht b hb).2 item hitem
  · exact (ht' b hb).2 item hitem

/-- The heaps below a node, with and without the amount that is pending above them. -/
theorem below {e n : Nat} {k d : Int} {l r : EdgeHeap} (ht : (node e k d l r n).Tame bound weigh) :
    (l.shift d).Tame bound weigh ∧ (r.shift d).Tame bound weigh ∧ l.Tame bound weigh ∧
      r.Tame bound weigh := by
  have hparts : ∀ b ∈ bound, d ≤ 0 ∧ ∀ c ∈ [l, r], c.Falling weigh b ∧
      ∀ item ∈ (c.shift d).items, 0 ≤ item.2 := by
    intro b hb
    obtain ⟨⟨⟨-, -, hd⟩, hl, hr⟩, hpos⟩ := ht b hb
    rw [items_node, List.forall_mem_cons, List.forall_mem_append] at hpos
    simpa using ⟨hd, ⟨hl, by simpa using hpos.2.1⟩, hr, by simpa using hpos.2.2⟩
  have hchild : ∀ c ∈ [l, r], (c.shift d).Tame bound weigh ∧ c.Tame bound weigh := by
    intro c hc
    refine ⟨fun b hb => ?_, fun b hb => ?_⟩
    · obtain ⟨hd, hall⟩ := hparts b hb
      exact ⟨(hall c hc).1.shift hd, (hall c hc).2⟩
    · obtain ⟨hd, hall⟩ := hparts b hb
      refine ⟨(hall c hc).1, fun item hitem => ?_⟩
      have hpos := (hall c hc).2 (item.1, item.2 + d)
        (by rw [items_shift]; exact List.mem_map_of_mem hitem)
      simp only at hpos
      omega
  obtain ⟨hls, hl⟩ := hchild l (by simp)
  obtain ⟨hrs, hr⟩ := hchild r (by simp)
  exact ⟨hls, hrs, hl, hr⟩

/-- The first weight may be taken off all weights. -/
theorem shift_top (ht : h.Tame bound weigh) (ho : h.Ordered) {item : Nat × Int}
    (htop : h.top? = some item) : (h.shift (-item.2)).Tame bound weigh := by
  intro b hb
  have hpos := (ht b hb).2 item ((items_pop htop).mem_iff.2 List.mem_cons_self)
  refine ⟨(ht b hb).1.shift (by omega), ?_⟩
  rw [items_shift, List.forall_mem_map]
  intro other hother
  have hle := (ho.precedes_top htop hother).weight_le
  simp only
  omega

/-- The numbers at the root, and the first weight, are within the bound. -/
theorem natAbs_le {e n : Nat} {k d : Int} {l r : EdgeHeap}
    (ht : (node e k d l r n).Tame bound weigh) :
    ∀ b ∈ bound, k.natAbs ≤ b ∧ d.natAbs ≤ b ∧ (k + d).natAbs ≤ b := by
  intro b hb
  obtain ⟨⟨⟨hk, hw, hd⟩, -, -⟩, hpos⟩ := ht b hb
  have hroot := hpos (e, k + d) (by rw [items_node]; exact List.mem_cons_self)
  simp only at hroot
  omega

end Tame

end EdgeHeap

end FuzzCampaign

import FuzzCampaign.Proofs.Arborescence.LeftistHeap

/-!
# Leftist heaps in a store

A root in a store holds a heap when following the links from it unfolds to that heap; the
nodes that are met on the way are its footprint.  If no number occurs twice among the
footprints of some roots, their heaps share no nodes and each of them is a tree.  A call
writes only into the footprints of the heaps that it is given.  So the other heaps stay
what they are, and what becomes of the given ones is what the operations on edge heaps
make of them.  Merging goes down the right spines only, with one nested call for each step.

Main definitions:

- `HeapStore.Holds`: a root holds a heap, on a footprint.
- `HeapStore.Within`: only some nodes were written.
- `HeapStore.Keeps`: a root holds a leftist heap in heap order.
- `HeapStore.Held`: a root holds a heap whose numbers are within a bound.

Main results:

- `Holds.within`: a heap stays when something else is written.
- `Holds.mergeIn`: merging, with as many nested calls as the right spines have nodes.
- `Keeps.shift`, `Keeps.merge`, `Keeps.top`, `Keeps.pop`: the calls do in the store what the
  operations do to heaps.
- `Held.shiftIn`, `Held.mergeIn`, `Held.topIn`, `Held.popIn`: they keep to the bound when the
  first weight is taken off all weights, and nothing else.
-/

namespace FuzzCampaign

namespace HeapStore

variable {s s' s'' : HeapStore} {root : Option Nat} {i : Nat} {heap : EdgeHeap}
  {marks marks' : List Nat}

/-! ## Footprints -/

/-- Following the links from a root unfolds to a heap and meets the nodes of the footprint. -/
inductive Holds (s : HeapStore) : Option Nat → EdgeHeap → List Nat → Prop
  | nil : Holds s none .nil []
  | node {i : Nat} {node : HeapNode} {l r : EdgeHeap} {ls rs : List Nat} :
      s.node? i = some node → Holds s node.left l ls → Holds s node.right r rs →
      Holds s (some i) (.node node.edge node.key node.pending l r node.rank) (i :: (ls ++ rs))

/-- Nothing but the nodes with the given numbers was written. -/
def Within (marks : List Nat) (s s' : HeapStore) : Prop :=
  ∀ j, j ∉ marks → s'.node? j = s.node? j

/-- A store differs from itself nowhere. -/
theorem Within.refl (marks : List Nat) (s : HeapStore) : Within marks s s := fun _ _ => rfl

/-- Changes at marked nodes, one after the other. -/
theorem Within.trans (h : Within marks s s') (h' : Within marks s' s'') : Within marks s s'' :=
  fun j hj => (h' j hj).trans (h j hj)

/-- Changes at some nodes are changes at more of them. -/
theorem Within.mono (h : Within marks s s') (hsub : marks ⊆ marks') : Within marks' s s' :=
  fun j hj => h j fun hmem => hj (hsub hmem)

/-- The numbers of a store are within a bound, if there is one. -/
def Fits (bound : Option Nat) (s : HeapStore) : Prop :=
  ∀ b ∈ bound, ∀ j, ∀ node ∈ s.node? j, node.key.natAbs ≤ b ∧ node.pending.natAbs ≤ b

/-- All numbers within a bound, if there is one, are allowed. -/
def Allows (bound : Option Nat) (allowed : Int → Bool) : Prop :=
  ∀ x : Int, (∀ b ∈ bound, x.natAbs ≤ b) → allowed x = true

/-- Without a bound every store fits. -/
theorem Fits.unbounded (s : HeapStore) : s.Fits none := fun _ hb => nomatch hb

/-- A check that accepts everything allows every bound. -/
theorem Allows.all (bound : Option Nat) : Allows bound fun _ => true := fun _ _ => rfl

/-- A store that fits a bound passes every check that allows it. -/
theorem Fits.fits {bound : Option Nat} {allowed : Int → Bool} (hs : s.Fits bound)
    (hallows : Allows bound allowed) : s.fits allowed = true := by
  rw [HeapStore.fits, Array.all_eq_true_iff_forall_mem]
  intro node hnode
  obtain ⟨j, hj⟩ := Array.mem_iff_getElem?.1 hnode
  rw [Bool.and_eq_true]
  exact ⟨hallows _ fun b hb => (hs b hb j node hj).1, hallows _ fun b hb => (hs b hb j node hj).2⟩

/-- Writing a node changes that node only. -/
theorem within_write (s : HeapStore) (i : Nat) (node : HeapNode) : Within [i] s (s.write i node) :=
  fun j hj => node?_write_of_ne (by simpa [eq_comm] using hj) s node

namespace Holds

/-- A heap stays when nothing of its footprint is written. -/
theorem within (h : Holds s root heap marks) (hw : Within marks' s s')
    (hdisjoint : marks.Disjoint marks') : Holds s' root heap marks := by
  induction h with
  | nil => exact .nil
  | @node i node l r ls rs hread _ _ ihl ihr =>
    rw [List.disjoint_cons_left, List.disjoint_append_left] at hdisjoint
    obtain ⟨hi, hls, hrs⟩ := hdisjoint
    exact .node ((hw i hi).trans hread) (ihl hls) (ihr hrs)

/-- A footprint has one node for each edge. -/
theorem length_eq (h : Holds s root heap marks) : marks.length = heap.size := by
  induction h with
  | nil => rfl
  | node _ _ _ ihl ihr => rw [List.length_cons, List.length_append, ihl, ihr, EdgeHeap.size]

/-- The nodes of a heap are in the store. -/
theorem mem_lt (h : Holds s root heap marks) : ∀ j ∈ marks, j < s.nodes.size := by
  induction h with
  | nil => simp
  | node hread _ _ ihl ihr =>
    rw [List.forall_mem_cons, List.forall_mem_append]
    exact ⟨(Array.getElem?_eq_some_iff.1 hread).1, ihl, ihr⟩

/-- The root of a heap is one of its nodes. -/
theorem root_mem (h : Holds s (some i) heap marks) : i ∈ marks := by
  cases h
  exact List.mem_cons_self

/-- A heap has at most as many edges as the store has nodes. -/
theorem size_le (h : Holds s root heap marks) (hnodup : marks.Nodup) :
    heap.size ≤ s.nodes.size := by
  have hsub : marks ⊆ List.range s.nodes.size := fun j hj => List.mem_range.2 (h.mem_lt j hj)
  have hle := (hnodup.subperm hsub).length_le
  rwa [List.length_range, h.length_eq] at hle

/-- The rank of a heap is read off its root. -/
theorem rankOf_eq (h : Holds s root heap marks) : s.rankOf root = some heap.rank := by
  cases h with
  | nil => rfl
  | node hread _ _ => rw [rankOf, hread]; rfl

/-- The numbers at the nodes of a heap are as small as its extent is. -/
theorem natAbs_le (h : Holds s root heap marks) {bound : Nat} (hbound : heap.extent ≤ bound) :
    ∀ j ∈ marks, ∀ node ∈ s.node? j, node.key.natAbs ≤ bound ∧ node.pending.natAbs ≤ bound := by
  induction h with
  | nil => simp
  | @node i node l r ls rs hread _ _ ihl ihr =>
    obtain ⟨hkey, hleft, hright⟩ := EdgeHeap.extent_node_le_iff.1 hbound
    rw [List.forall_mem_cons, List.forall_mem_append]
    refine ⟨fun other hother => ?_, ihl (by omega), ihr (by omega)⟩
    obtain rfl : node = other := Option.some.inj (hread.symm.trans hother)
    omega

/-- The node at the root of a heap that is not empty. -/
theorem exists_node {e n : Nat} {k d : Int} {l r : EdgeHeap}
    (h : Holds s (some i) (.node e k d l r n) marks) : ∃ left right ls rs,
      marks = i :: (ls ++ rs) ∧ s.node? i = some ⟨e, k, d, left, right, n⟩ ∧
      Holds s left l ls ∧ Holds s right r rs := by
  cases h with
  | node hread hl hr => exact ⟨_, _, _, _, rfl, hread, hl, hr⟩

/-- The numbers at the nodes of a tame heap are within the bound. -/
theorem fits {bound : Option Nat} {weigh : Nat → Int} (h : Holds s' root heap marks)
    (ht : heap.Tame bound weigh) (hw : Within marks' s s') (hsub : marks' ⊆ marks)
    (hs : s.Fits bound) : s'.Fits bound := by
  have hmarks : ∀ b ∈ bound, ∀ j ∈ marks, ∀ node ∈ s'.node? j,
      node.key.natAbs ≤ b ∧ node.pending.natAbs ≤ b := by
    intro b hb
    clear hw hsub
    induction h with
    | nil => simp
    | @node i node l r ls rs hread _ _ ihl ihr =>
      obtain ⟨-, -, hl, hr⟩ := ht.below
      rw [List.forall_mem_cons, List.forall_mem_append]
      refine ⟨fun other hother => ?_, ihl hl, ihr hr⟩
      obtain rfl : node = other := Option.some.inj (hread.symm.trans hother)
      exact ⟨(ht.natAbs_le b hb).1, (ht.natAbs_le b hb).2.1⟩
  intro b hb j node hnode
  by_cases hj : j ∈ marks
  · exact hmarks b hb j hj node hnode
  · exact hs b hb j node ((hw j fun hmem => hj (hsub hmem)).symm.trans hnode)

/-- A heap that is not empty has a root. -/
theorem exists_root {e n : Nat} {k d : Int} {l r : EdgeHeap}
    (h : Holds s root (.node e k d l r n) marks) : ∃ i, root = some i := by
  cases h
  exact ⟨_, rfl⟩

/-- A heap without a root is empty. -/
theorem eq_nil (h : Holds s none heap marks) : heap = .nil := by
  cases h
  rfl

/-! ## Pending amounts -/

/-- Shifting a heap writes its root. -/
theorem shift (h : Holds s (some i) heap marks) (hnodup : marks.Nodup) (amount : Int) :
    ∃ s', s.shift i amount = some s' ∧ Holds s' (some i) (heap.shift amount) marks ∧
      Within marks s s' := by
  cases h with
  | @node _ node l r ls rs hread hl hr =>
    obtain ⟨hi, -⟩ := List.nodup_cons.1 hnodup
    rw [List.mem_append, not_or] at hi
    have hw := within_write s i { node with pending := node.pending + amount }
    have hread' := node?_write hread { node with pending := node.pending + amount }
    refine ⟨_, by rw [HeapStore.shift, hread]; rfl, ?_, hw.mono (by simp)⟩
    exact .node hread' (hl.within hw (by simpa using hi.1)) (hr.within hw (by simpa using hi.2))

/-- Shifting all that hangs from a place is answered, and what it finds there is shifted. -/
theorem shiftBelow (h : Holds s root heap marks) (hnodup : marks.Nodup) (amount : Int) :
    ∃ s', s.shiftBelow root amount = some s' ∧ Holds s' root (heap.shift amount) marks ∧
      Within marks s s' := by
  cases root with
  | none =>
    cases h
    exact ⟨s, rfl, .nil, .refl [] s⟩
  | some i => exact h.shift hnodup amount

/-- Settling a heap writes its root and the roots below it. -/
theorem settle (h : Holds s (some i) heap marks) (hnodup : marks.Nodup) :
    ∃ s', s.settle i = some s' ∧ Holds s' (some i) heap.settle marks ∧ Within marks s s' := by
  cases h with
  | @node _ node l r ls rs hread hl hr =>
    obtain ⟨hi, hbelow⟩ := List.nodup_cons.1 hnodup
    obtain ⟨hnodupl, hnodupr, hapart⟩ := List.nodup_append'.1 hbelow
    rw [List.mem_append, not_or] at hi
    by_cases hzero : node.pending = 0
    · refine ⟨s, ?_, ?_, .refl _ s⟩
      · rw [HeapStore.settle, hread]
        simp only [Option.bind_eq_bind, Option.bind_some, if_pos hzero]
      · have hsettle := EdgeHeap.settle_node_zero node.edge node.key l r node.rank
        rw [← hzero] at hsettle
        rw [hsettle]
        exact .node hread hl hr
    · have hw := within_write s i { node with key := node.key + node.pending, pending := 0 }
      have hwrite := node?_write hread { node with key := node.key + node.pending, pending := 0 }
      obtain ⟨s₁, hs₁, hl₁, hw₁⟩ :=
        (hl.within hw (by simpa using hi.1)).shiftBelow hnodupl node.pending
      obtain ⟨s₂, hs₂, hr₂, hw₂⟩ := ((hr.within hw (by simpa using hi.2)).within hw₁
        (List.disjoint_comm.1 hapart)).shiftBelow hnodupr node.pending
      refine ⟨s₂, ?_, ?_, ?_⟩
      · rw [HeapStore.settle, hread]
        simp only [Option.bind_eq_bind, Option.bind_some, if_neg hzero, hs₁, hs₂]
      · have hread' := (hw₂ i hi.2).trans ((hw₁ i hi.1).trans hwrite)
        exact .node hread' (hl₁.within hw₂ hapart) hr₂
      · exact ((hw.mono (by simp)).trans (hw₁.mono (by simp))).trans (hw₂.mono (by simp))

/-! ## Merging -/

/-- A settled node is put on top of two heaps by writing it. -/
theorem relink {edge rank : Nat} {key : Int} {left old right : Option Nat} {l r : EdgeHeap}
    {ls rs : List Nat} (hread : s.node? i = some ⟨edge, key, 0, left, old, rank⟩)
    (hl : Holds s left l ls) (hr : Holds s right r rs) (hnodup : (i :: (ls ++ rs)).Nodup) :
    ∃ s' marks, s.relink i right = some s' ∧
      Holds s' (some i) (EdgeHeap.join edge key l r) marks ∧
      marks.Perm (i :: (ls ++ rs)) ∧ Within [i] s s' := by
  obtain ⟨hi, -⟩ := List.nodup_cons.1 hnodup
  rw [List.mem_append, not_or] at hi
  have hls : ls.Disjoint [i] := by simpa using hi.1
  have hrs : rs.Disjoint [i] := by simpa using hi.2
  have hw := within_write s i
  rw [HeapStore.relink, hread]
  simp only [Option.bind_eq_bind, Option.bind_some, hl.rankOf_eq, hr.rankOf_eq]
  unfold EdgeHeap.join
  split
  · exact ⟨_, _, rfl, .node (node?_write hread ⟨edge, key, 0, right, left, l.rank + 1⟩)
      (hr.within (hw _) hrs) (hl.within (hw _) hls),
      List.Perm.cons i List.perm_append_comm, hw _⟩
  · exact ⟨_, _, rfl, .node (node?_write hread ⟨edge, key, 0, left, right, r.rank + 1⟩)
      (hl.within (hw _) hls) (hr.within (hw _) hrs), List.Perm.refl _, hw _⟩

/-- What is left to do when the heap on the right of a settled node was merged with another
one. -/
theorem absorb {edge rank : Nat} {key : Int} {left old right : Option Nat} {l r : EdgeHeap}
    {ls rest merged : List Nat} (hread : s.node? i = some ⟨edge, key, 0, left, old, rank⟩)
    (hl : Holds s left l ls) (hr : Holds s' right r merged) (hperm : merged.Perm rest)
    (hw : Within rest s s') (hnodup : (i :: (ls ++ rest)).Nodup) :
    ∃ s'' marks, s'.relink i right = some s'' ∧
      Holds s'' (some i) (EdgeHeap.join edge key l r) marks ∧
      marks.Perm (i :: (ls ++ rest)) ∧ Within (i :: (ls ++ rest)) s s'' := by
  obtain ⟨hi, hbelow⟩ := List.nodup_cons.1 hnodup
  have hread' := (hw i fun hmem => hi (List.mem_append_right ls hmem)).trans hread
  have hl' := hl.within hw (List.disjoint_of_nodup_append hbelow)
  have hall : (i :: (ls ++ merged)).Perm (i :: (ls ++ rest)) :=
    List.Perm.cons i (List.Perm.append_left ls hperm)
  obtain ⟨s'', marks, hlink, hheap, hmarks, hw'⟩ :=
    relink hread' hl' hr (hall.nodup_iff.2 hnodup)
  exact ⟨s'', marks, hlink, hheap, hmarks.trans hall,
    (hw.mono (by simp)).trans (hw'.mono (by simp))⟩

section Limits

variable {bound : Option Nat} {weigh : Nat → Int} {allowed : Int → Bool}

/-- Settling a tame heap keeps to the allowed numbers. -/
theorem settleIn (h : Holds s (some i) heap marks) (hnodup : marks.Nodup)
    (ht : heap.Tame bound weigh) (hs : s.Fits bound) (hallows : Allows bound allowed) :
    ∃ s', s.settleIn allowed i = some s' ∧ Holds s' (some i) heap.settle marks ∧
      Within marks s s' ∧ s'.Fits bound := by
  obtain ⟨s', hsettle, hheap, hw⟩ := h.settle hnodup
  have hfits := hheap.fits ht.settle hw (List.Subset.refl _) hs
  refine ⟨s', ?_, hheap, hw, hfits⟩
  rw [HeapStore.settleIn, hsettle, Option.filter_some, if_pos (hfits.fits hallows)]

/-- Two heaps that share no nodes are settled one after the other. -/
theorem settle_both {j : Nat} {h h' : EdgeHeap} {as bs : List Nat} (ha : Holds s (some i) h as)
    (hb : Holds s (some j) h' bs) (hnodup : (as ++ bs).Nodup) (ht : h.Tame bound weigh)
    (ht' : h'.Tame bound weigh) (hs : s.Fits bound) (hallows : Allows bound allowed) :
    ∃ s₁ s₂, s.settleIn allowed i = some s₁ ∧ s₁.settleIn allowed j = some s₂ ∧
      Holds s₂ (some i) h.settle as ∧ Holds s₂ (some j) h'.settle bs ∧
      Within (as ++ bs) s s₂ ∧ s₂.Fits bound := by
  obtain ⟨hnodupa, hnodupb, hapart⟩ := List.nodup_append'.1 hnodup
  obtain ⟨s₁, hsettle, hfirst, hw₁, hs₁⟩ := ha.settleIn hnodupa ht hs hallows
  obtain ⟨s₂, hsettle', hsecond, hw₂, hs₂⟩ :=
    (hb.within hw₁ (List.disjoint_comm.1 hapart)).settleIn hnodupb ht' hs₁ hallows
  exact ⟨s₁, s₂, hsettle, hsettle', hfirst.within hw₂ hapart, hsecond,
    (hw₁.mono (List.subset_append_left _ _)).trans (hw₂.mono (List.subset_append_right _ _)), hs₂⟩

/-- Merging two tame heaps that share no nodes merges them as heaps, if as many nested calls are
allowed as there are nodes on the two right spines. -/
theorem mergeIn {a b : Option Nat} {h h' : EdgeHeap} {as bs : List Nat} {depth : Nat}
    (ha : Holds s a h as) (hb : Holds s b h' bs) (hnodup : (as ++ bs).Nodup)
    (hdepth : h.spine + h'.spine ≤ depth) (ht : h.Tame bound weigh) (ht' : h'.Tame bound weigh)
    (hs : s.Fits bound) (hallows : Allows bound allowed) :
    ∃ root s' marks, HeapStore.mergeIn allowed depth s a b = some (root, s') ∧
      Holds s' root (h.merge h') marks ∧ marks.Perm (as ++ bs) ∧ Within (as ++ bs) s s' := by
  fun_induction EdgeHeap.merge h h' generalizing s a b as bs depth with
  | case1 h' =>
    cases ha
    exact ⟨b, s, bs, mergeIn_none allowed depth s b, hb, List.Perm.refl _, .refl _ s⟩
  | case2 e k d l r n =>
    cases hb
    obtain ⟨i, rfl⟩ := ha.exists_root
    exact ⟨some i, s, as, mergeIn_some_none allowed depth s i, ha, by simp, .refl _ s⟩
  | case3 e k d l r n e' k' d' l' r' n' hbefore ih =>
    obtain ⟨depth, rfl⟩ : ∃ rest, depth = rest + 1 :=
      Nat.exists_eq_add_one.2 (by simp only [EdgeHeap.spine_node] at hdepth; omega)
    obtain ⟨i, rfl⟩ := ha.exists_root
    obtain ⟨j, rfl⟩ := hb.exists_root
    obtain ⟨s₁, s₂, hsettle, hsettle', hfirst, hsecond, hw, hs₂⟩ :=
      ha.settle_both hb hnodup ht ht' hs hallows
    obtain ⟨_, _, _, _, -, hread, -, -⟩ := hfirst.exists_node
    obtain ⟨left, right, ls, rs, rfl, hread', hl, hr⟩ := hsecond.exists_node
    -- the second root is on top, and the first heap is merged with what is on its right
    have hswap : (j :: (ls ++ (rs ++ as))).Perm (as ++ j :: (ls ++ rs)) := by
      rw [← List.append_assoc, ← List.cons_append]
      exact List.perm_append_comm
    have hnodup' := hswap.nodup_iff.2 hnodup
    have hdepth' : (r'.shift d').spine +
        (EdgeHeap.node e (k + d) 0 (l.shift d) (r.shift d) n).spine ≤ depth := by
      simp only [EdgeHeap.spine_node, EdgeHeap.spine_shift] at hdepth ⊢
      omega
    obtain ⟨root, s₃, marks, hmerge, hheap, hperm, hw'⟩ :=
      ih hr hfirst (hnodup'.sublist (by simp)) hdepth' ht'.below.2.1 ht.settle hs₂
    obtain ⟨s₄, marks', hlink, hheap', hperm', hw''⟩ := absorb hread' hl hheap hperm hw' hnodup'
    refine ⟨some j, s₄, marks', ?_, hheap', hperm'.trans hswap, hw.trans (hw''.mono hswap.subset)⟩
    rw [HeapStore.mergeIn]
    simp only [Option.bind_eq_bind, Option.bind_some, hsettle, hsettle', hread, hread',
      if_pos hbefore, hmerge, hlink]
    rfl
  | case4 e k d l r n e' k' d' l' r' n' hbefore ih =>
    obtain ⟨depth, rfl⟩ : ∃ rest, depth = rest + 1 :=
      Nat.exists_eq_add_one.2 (by simp only [EdgeHeap.spine_node] at hdepth; omega)
    obtain ⟨i, rfl⟩ := ha.exists_root
    obtain ⟨j, rfl⟩ := hb.exists_root
    obtain ⟨s₁, s₂, hsettle, hsettle', hfirst, hsecond, hw, hs₂⟩ :=
      ha.settle_both hb hnodup ht ht' hs hallows
    obtain ⟨_, _, _, _, -, hread', -, -⟩ := hsecond.exists_node
    obtain ⟨left, right, ls, rs, rfl, hread, hl, hr⟩ := hfirst.exists_node
    -- the first root is on top, and the second heap is merged with what is on its right
    rw [List.cons_append, List.append_assoc] at hnodup hw ⊢
    have hdepth' : (r.shift d).spine +
        (EdgeHeap.node e' (k' + d') 0 (l'.shift d') (r'.shift d') n').spine ≤ depth := by
      simp only [EdgeHeap.spine_node, EdgeHeap.spine_shift] at hdepth ⊢
      omega
    obtain ⟨root, s₃, marks, hmerge, hheap, hperm, hw'⟩ :=
      ih hr hsecond (hnodup.sublist (by simp)) hdepth' ht.below.2.1 ht'.settle hs₂
    obtain ⟨s₄, marks', hlink, hheap', hperm', hw''⟩ := absorb hread hl hheap hperm hw' hnodup
    refine ⟨some i, s₄, marks', ?_, hheap', hperm', hw.trans hw''⟩
    rw [HeapStore.mergeIn]
    simp only [Option.bind_eq_bind, Option.bind_some, hsettle, hsettle', hread, hread',
      if_neg hbefore, hmerge, hlink]
    rfl

end Limits

/-- With enough depth for both spines, merging is answered, and its result holds the merged heap
on the nodes of both. -/
theorem mergeWithin {a b : Option Nat} {h h' : EdgeHeap} {as bs : List Nat} {depth : Nat}
    (ha : Holds s a h as) (hb : Holds s b h' bs) (hnodup : (as ++ bs).Nodup)
    (hdepth : h.spine + h'.spine ≤ depth) :
    ∃ root s' marks, HeapStore.mergeWithin depth s a b = some (root, s') ∧
      Holds s' root (h.merge h') marks ∧ marks.Perm (as ++ bs) ∧ Within (as ++ bs) s s' := by
  rw [← mergeIn_true]
  exact ha.mergeIn hb hnodup hdepth (.unbounded (fun _ => 0) h) (.unbounded _ h') (.unbounded s)
    (.all none)

end Holds

/-! ## Leftist heaps in a store -/

/-- A root holds a leftist heap in heap order, and no node occurs twice in it. -/
structure Keeps (s : HeapStore) (root : Option Nat) (heap : EdgeHeap) (marks : List Nat) :
    Prop where
  holds : s.Holds root heap marks
  nodup : marks.Nodup
  ordered : heap.Ordered
  leftist : heap.Leftist

namespace Keeps

/-- No root, no heap. -/
theorem nil (s : HeapStore) : Keeps s none .nil [] :=
  ⟨.nil, List.nodup_nil, EdgeHeap.ordered_nil, trivial⟩

/-- Changes at other nodes do not matter to a heap. -/
theorem within (h : Keeps s root heap marks) (hw : Within marks' s s')
    (hdisjoint : marks.Disjoint marks') : Keeps s' root heap marks :=
  ⟨h.holds.within hw hdisjoint, h.nodup, h.ordered, h.leftist⟩

/-- A new node is put behind all others. -/
theorem singleton (s : HeapStore) (edge : Nat) (key : Int) :
    Keeps (s.singleton edge key).2 (some s.nodes.size) (.singleton edge key) [s.nodes.size] ∧
      Within [s.nodes.size] s (s.singleton edge key).2 := by
  have hread : (s.singleton edge key).2.node? s.nodes.size = some { edge := edge, key := key } := by
    simp [HeapStore.singleton, node?]
  refine ⟨⟨.node hread .nil .nil, List.nodup_singleton _, EdgeHeap.ordered_singleton edge key,
    EdgeHeap.leftist_singleton edge key⟩, fun j hj => ?_⟩
  have hne : j ≠ s.nodes.size := by simpa using hj
  simp [HeapStore.singleton, node?, Array.getElem?_push, hne]

/-- Shifting a heap that is kept is answered, and the heap stays kept. -/
theorem shift (h : Keeps s (some i) heap marks) (amount : Int) :
    ∃ s', s.shift i amount = some s' ∧ Keeps s' (some i) (heap.shift amount) marks ∧
      Within marks s s' := by
  obtain ⟨s', hshift, hheap, hw⟩ := h.holds.shift h.nodup amount
  exact ⟨s', hshift, ⟨hheap, h.nodup, h.ordered.shift amount, h.leftist.shift amount⟩, hw⟩

/-- The binary logarithms of the sizes of two heaps are within the limit of the store. -/
theorem log2_add_log2_le {a b : Option Nat} {h h' : EdgeHeap} {as bs : List Nat}
    (ha : Keeps s a h as) (hb : Keeps s b h' bs) :
    Nat.log2 (h.size + 1) + Nat.log2 (h'.size + 1) ≤ s.depthLimit := by
  have hlog : ∀ n ≤ s.nodes.size, Nat.log2 (n + 1) ≤ Nat.log2 (s.nodes.size + 1) := fun n hn =>
    (Nat.le_log2 (Nat.succ_ne_zero _)).2
      ((Nat.log2_self_le (Nat.succ_ne_zero n)).trans (Nat.add_le_add_right hn 1))
  have hlog₁ := hlog _ (ha.holds.size_le ha.nodup)
  have hlog₂ := hlog _ (hb.holds.size_le hb.nodup)
  rw [depthLimit]
  omega

/-- Two heaps that share no nodes are merged by calls that are nested no deeper than the
binary logarithms of their sizes. -/
theorem merge {a b : Option Nat} {h h' : EdgeHeap} {as bs : List Nat} (ha : Keeps s a h as)
    (hb : Keeps s b h' bs) (hapart : as.Disjoint bs) :
    ∃ root s' marks, HeapStore.mergeWithin (Nat.log2 (h.size + 1) + Nat.log2 (h'.size + 1))
        s a b = some (root, s') ∧
      s.merge a b = some (root, s') ∧ Keeps s' root (h.merge h') marks ∧
      marks.Perm (as ++ bs) ∧ Within (as ++ bs) s s' := by
  have hnodup : (as ++ bs).Nodup := List.nodup_append'.2 ⟨ha.nodup, hb.nodup, hapart⟩
  obtain ⟨root, s', marks, hmerge, hheap, hperm, hw⟩ := ha.holds.mergeWithin hb.holds hnodup
    (Nat.add_le_add ha.leftist.spine_le_log2 hb.leftist.spine_le_log2)
  exact ⟨root, s', marks, hmerge, mergeWithin_mono (ha.log2_add_log2_le hb) hmerge,
    ⟨hheap, hperm.nodup_iff.2 hnodup, ha.ordered.merge hb.ordered, ha.leftist.merge hb.leftist⟩,
    hperm, hw⟩

end Keeps

/-! ## Heaps with small numbers -/

/-- A root holds a heap whose numbers are within a bound, if there is one. -/
structure Held (bound : Option Nat) (weigh : Nat → Int) (s : HeapStore) (root : Option Nat)
    (heap : EdgeHeap) (marks : List Nat) : Prop extends Keeps s root heap marks where
  tame : heap.Tame bound weigh

namespace Held

variable {bound : Option Nat} {weigh : Nat → Int} {allowed : Int → Bool}

/-- No root, no heap. -/
theorem nil (bound : Option Nat) (weigh : Nat → Int) (s : HeapStore) :
    Held bound weigh s none .nil [] :=
  ⟨.nil s, .nil bound weigh⟩

/-- What is kept is held without a bound. -/
theorem of_keeps (h : Keeps s root heap marks) : Held none (fun _ => 0) s root heap marks :=
  ⟨h, .unbounded _ heap⟩

/-- Changes at other nodes do not matter to a heap. -/
theorem within (h : Held bound weigh s root heap marks) (hw : Within marks' s s')
    (hdisjoint : marks.Disjoint marks') : Held bound weigh s' root heap marks :=
  ⟨h.toKeeps.within hw hdisjoint, h.tame⟩

/-- Two heaps apart from each other are merged, as long as the store fits the bound. -/
theorem mergeIn {a b : Option Nat} {h h' : EdgeHeap} {as bs : List Nat}
    (ha : Held bound weigh s a h as) (hb : Held bound weigh s b h' bs) (hapart : as.Disjoint bs)
    (hs : s.Fits bound) (hallows : Allows bound allowed) :
    ∃ root s' marks, HeapStore.mergeIn allowed s.depthLimit s a b = some (root, s') ∧
      Held bound weigh s' root (h.merge h') marks ∧ marks.Perm (as ++ bs) ∧
      Within (as ++ bs) s s' ∧ s'.Fits bound := by
  have hnodup : (as ++ bs).Nodup := List.nodup_append'.2 ⟨ha.nodup, hb.nodup, hapart⟩
  have hdepth := (Nat.add_le_add ha.leftist.spine_le_log2 hb.leftist.spine_le_log2).trans
    (ha.toKeeps.log2_add_log2_le hb.toKeeps)
  obtain ⟨root, s', marks, hmerge, hheap, hperm, hw⟩ :=
    ha.holds.mergeIn hb.holds hnodup hdepth ha.tame hb.tame hs hallows
  exact ⟨root, s', marks, hmerge, ⟨⟨hheap, hperm.nodup_iff.2 hnodup, ha.ordered.merge hb.ordered,
    ha.leftist.merge hb.leftist⟩, ha.tame.merge hb.tame⟩, hperm, hw,
    hheap.fits (ha.tame.merge hb.tame) hw hperm.symm.subset hs⟩

/-- The first edge is at the root, and its weight is the key there once the root is settled. -/
theorem topIn (h : Held bound weigh s (some i) heap marks) (hs : s.Fits bound)
    (hallows : Allows bound allowed) :
    ∃ e k l r n s', s.topIn allowed i = some ((e, k), s') ∧ heap.settle = .node e k 0 l r n ∧
      heap.top? = some (e, k) ∧ Held bound weigh s' (some i) heap.settle marks ∧
      Within marks s s' ∧ s'.Fits bound := by
  obtain ⟨s', hsettle, hheap, hw, hs'⟩ := h.holds.settleIn h.nodup h.tame hs hallows
  cases heap with
  | nil => cases hheap
  | node e k d l r n =>
    obtain ⟨_, _, _, _, -, hread, -, -⟩ := hheap.exists_node
    refine ⟨e, k + d, _, _, n, s', ?_, rfl, rfl, ⟨⟨hheap, h.nodup, h.ordered.settle,
      h.leftist.settle⟩, h.tame.settle⟩, hw, hs'⟩
    rw [HeapStore.topIn, hsettle]
    simp only [Option.bind_eq_bind, Option.bind_some, hread]
    rfl

/-- The first weight can be taken off all weights. -/
theorem shiftIn (h : Held bound weigh s (some i) heap marks) (hs : s.Fits bound)
    (hallows : Allows bound allowed) {item : Nat × Int} (htop : heap.top? = some item) :
    ∃ s', s.shiftIn allowed i (-item.2) = some s' ∧
      Held bound weigh s' (some i) (heap.shift (-item.2)) marks ∧ Within marks s s' ∧
      s'.Fits bound := by
  obtain ⟨s', hshift, hkeeps, hw⟩ := h.toKeeps.shift (-item.2)
  have htame := h.tame.shift_top h.ordered htop
  have hfits := hkeeps.holds.fits htame hw (List.Subset.refl _) hs
  have hamount : allowed (-item.2) = true := by
    refine hallows _ fun b hb => ?_
    cases heap with
    | nil => cases htop
    | node e k d l r n =>
      obtain rfl := Option.some.inj htop
      have hle := (h.tame.natAbs_le b hb).2.2
      simp only
      omega
  refine ⟨s', ?_, ⟨hkeeps, htame⟩, hw, hfits⟩
  rw [HeapStore.shiftIn, if_pos hamount, hshift, Option.filter_some, if_pos (hfits.fits hallows)]

/-- The node of the edge that is taken off belongs to no heap any more. -/
theorem popIn (h : Held bound weigh s (some i) heap marks) (hs : s.Fits bound)
    (hallows : Allows bound allowed) :
    ∃ root s' marks', s.popIn allowed i = some (root, s') ∧
      Held bound weigh s' root heap.pop marks' ∧ marks.Perm (i :: marks') ∧
      Within marks s s' ∧ s'.Fits bound := by
  obtain ⟨⟨hheap, hnodup, hordered, hleftist⟩, htame⟩ := h
  obtain ⟨s₁, hsettle, hheap, hw, hs₁⟩ := hheap.settleIn hnodup htame hs hallows
  cases heap with
  | nil => cases hheap
  | node e k d l r n =>
    obtain ⟨left, right, ls, rs, rfl, hread, hl, hr⟩ := hheap.exists_node
    obtain ⟨-, -, hol, hor⟩ := hordered
    obtain ⟨-, -, hll, hlr⟩ := hleftist
    obtain ⟨htl, htr, -, -⟩ := htame.below
    obtain ⟨hnodupl, hnodupr, hapart⟩ := List.nodup_append'.1 (List.nodup_cons.1 hnodup).2
    have hleft : Held bound weigh s₁ left (l.shift d) ls :=
      ⟨⟨hl, hnodupl, hol.shift d, hll.shift d⟩, htl⟩
    have hright : Held bound weigh s₁ right (r.shift d) rs :=
      ⟨⟨hr, hnodupr, hor.shift d, hlr.shift d⟩, htr⟩
    obtain ⟨root, s', marks', hmerge, hheap, hperm, hw', hs'⟩ :=
      hleft.mergeIn hright hapart hs₁ hallows
    refine ⟨root, s', marks', ?_, hheap, List.Perm.cons i hperm.symm,
      hw.trans (hw'.mono (List.subset_cons_self _ _)), hs'⟩
    rw [HeapStore.popIn, hsettle]
    simp only [Option.bind_eq_bind, Option.bind_some, hread]
    exact hmerge

end Held

namespace Keeps

/-- Looking at the top of a heap is answered with its top, and settles its root. -/
theorem top (h : Keeps s (some i) heap marks) :
    ∃ item s', s.top i = some (item, s') ∧ heap.top? = some item ∧
      Keeps s' (some i) heap.settle marks ∧ Within marks s s' := by
  obtain ⟨e, k, l, r, n, s', htop, -, hitem, hheld, hw, -⟩ :=
    (Held.of_keeps h).topIn (.unbounded s) (.all none)
  rw [topIn_true] at htop
  exact ⟨(e, k), s', htop, hitem, hheld.toKeeps, hw⟩

/-- Taking out the top is answered, and frees the node of the root. -/
theorem pop (h : Keeps s (some i) heap marks) :
    ∃ root s' marks', s.pop i = some (root, s') ∧ Keeps s' root heap.pop marks' ∧
      marks.Perm (i :: marks') ∧ Within marks s s' := by
  obtain ⟨root, s', marks', hpop, hheld, hperm, hw, -⟩ :=
    (Held.of_keeps h).popIn (.unbounded s) (.all none)
  rw [popIn_true] at hpop
  exact ⟨root, s', marks', hpop, hheld.toKeeps, hperm, hw⟩

end Keeps

end HeapStore

end FuzzCampaign

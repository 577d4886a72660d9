/-!
# Mergeable heaps of edges

A leftist heap holds the candidate edges into a vertex, ordered by weight and
then by edge number.  Adding an amount to all weights is lazy: every node
carries a pending amount for its whole subtree, which moves down one level when
the node is settled.  Merging walks down right spines only.

All heaps of a search are kept in one store.  A node is known there by its number,
and a heap by the number of its root; an absent number stands for the empty heap.
Merging links the nodes of two heaps anew, in place.  Nodes are never removed: one
that was taken off a heap stays where it is, and no heap links to it any more.
There is no answer where a number has no node, and none where the calls of a merge
would be nested deeper than they may be.  The operations whose names end in `In` have no
answer either where an amount, or a number that they leave in the store, is not allowed.

Main definitions:

- `EdgeHeap.merge`, `EdgeHeap.pop`, `EdgeHeap.shift`: the operations on heaps.
- `HeapStore.mergeWithin`: merge two heaps of a store with calls nested to a given
  depth.
- `HeapStore.mergeIn`, `HeapStore.topIn`, `HeapStore.popIn`, `HeapStore.shiftIn`: the
  operations with numbers that are allowed only.
- `HeapStore.call` and `HeapStore.run`: a call of a store, and one call after another.

Main results:

- `size_merge` and `size_pop_lt`: merging keeps all edges and taking the top
  removes one.
- `items_shift`: a shift adds its amount to the weight of every edge.
- `mergeWithin_mono`: what is merged at some depth is merged in the same way at a
  greater one.
-/

namespace FuzzCampaign

/-- A leftist heap of edges with pending weight changes. -/
inductive EdgeHeap where
  | nil
  /-- An edge with its key, the amount pending for the whole subtree, and the
  length of the right spine. -/
  | node (edge : Nat) (key : Int) (pending : Int) (left right : EdgeHeap) (rank : Nat)
  deriving Repr, DecidableEq, Inhabited

namespace EdgeHeap

/-- The length of the right spine, as recorded at the root. -/
def rank : EdgeHeap → Nat
  | nil => 0
  | node _ _ _ _ _ r => r

/-- How many edges a heap holds. -/
def size : EdgeHeap → Nat
  | nil => 0
  | node _ _ _ l r _ => l.size + r.size + 1

/-- The edges of a heap with their current weights, given the amount pending
above it. -/
def itemsUnder (above : Int) : EdgeHeap → List (Nat × Int)
  | nil => []
  | node e k d l r _ =>
    (e, k + (above + d)) :: (l.itemsUnder (above + d) ++ r.itemsUnder (above + d))

/-- The edges of a heap with their current weights. -/
def items (h : EdgeHeap) : List (Nat × Int) := h.itemsUnder 0

/-- The heap of a single edge. -/
def singleton (edge : Nat) (weight : Int) : EdgeHeap := node edge weight 0 nil nil 1

/-- Add an amount to the weights of all edges. -/
def shift (amount : Int) : EdgeHeap → EdgeHeap
  | nil => nil
  | node e k d l r n => node e k (d + amount) l r n

@[simp] theorem size_shift (amount : Int) (h : EdgeHeap) : (h.shift amount).size = h.size := by
  cases h <;> rfl

@[simp] theorem rank_shift (amount : Int) (h : EdgeHeap) : (h.shift amount).rank = h.rank := by
  cases h <;> rfl

theorem itemsUnder_shift (above amount : Int) (h : EdgeHeap) :
    (h.shift amount).itemsUnder above = h.itemsUnder (above + amount) := by
  cases h with
  | nil => rfl
  | node e k d l r n =>
    have hsum : above + (d + amount) = above + amount + d := by omega
    simp only [shift, itemsUnder, hsum]

theorem itemsUnder_eq_map (above : Int) (h : EdgeHeap) :
    h.itemsUnder above = h.items.map fun item => (item.1, item.2 + above) := by
  suffices key : ∀ a b : Int,
      h.itemsUnder (a + b) = (h.itemsUnder a).map fun item => (item.1, item.2 + b) by
    have h0 := key 0 above
    rwa [Int.zero_add] at h0
  induction h with
  | nil => intro a b; rfl
  | node e k d l r n ihl ihr =>
    intro a b
    have hsum : a + b + d = a + d + b := by omega
    simp only [itemsUnder, hsum, ihl, ihr, List.map_cons, List.map_append, List.cons.injEq,
      Prod.mk.injEq, and_true, true_and]
    omega

/-- A shift adds its amount to the weight of every edge. -/
theorem items_shift (amount : Int) (h : EdgeHeap) :
    (h.shift amount).items = h.items.map fun item => (item.1, item.2 + amount) := by
  rw [items, itemsUnder_shift, Int.zero_add, itemsUnder_eq_map]

/-- Move the amount pending at the root one level down. -/
def settle : EdgeHeap → EdgeHeap
  | nil => nil
  | node e k d l r n => node e (k + d) 0 (l.shift d) (r.shift d) n

@[simp] theorem size_settle (h : EdgeHeap) : h.settle.size = h.size := by
  cases h <;> simp [settle, size]

/-- Settling the root changes no weight. -/
@[simp] theorem items_settle (h : EdgeHeap) : h.settle.items = h.items := by
  cases h with
  | nil => rfl
  | node e k d l r n => simp [settle, items, itemsUnder, itemsUnder_shift]

/-- A root over two heaps, the one with the longer right spine on the left. -/
def join (edge : Nat) (key : Int) (a b : EdgeHeap) : EdgeHeap :=
  if a.rank < b.rank then node edge key 0 b a (a.rank + 1) else node edge key 0 a b (b.rank + 1)

@[simp] theorem size_join (edge : Nat) (key : Int) (a b : EdgeHeap) :
    (join edge key a b).size = a.size + b.size + 1 := by
  unfold join
  split <;> simp only [size]
  omega

/-- Whether the edge `a` with weight `x` comes strictly before the edge `b`
with weight `y`. -/
def before (x : Int) (a : Nat) (y : Int) (b : Nat) : Bool :=
  decide (x < y) || (decide (x = y) && decide (a < b))

/-- The heap of all edges of two heaps. -/
def merge : EdgeHeap → EdgeHeap → EdgeHeap
  | nil, b => b
  | node e k d l r n, nil => node e k d l r n
  | node e k d l r n, node e' k' d' l' r' n' =>
    if before (k' + d') e' (k + d) e then
      join e' (k' + d') (l'.shift d')
        (merge (r'.shift d') (node e (k + d) 0 (l.shift d) (r.shift d) n))
    else
      join e (k + d) (l.shift d)
        (merge (r.shift d) (node e' (k' + d') 0 (l'.shift d') (r'.shift d') n'))
termination_by a b => a.size + b.size
decreasing_by
  · simp only [size, size_shift]; omega
  · simp only [size, size_shift]; omega

@[simp] theorem nil_merge (b : EdgeHeap) : merge nil b = b := by
  simp [merge]

@[simp] theorem merge_nil (a : EdgeHeap) : merge a nil = a := by
  cases a <;> simp [merge]

/-- Merging keeps all edges. -/
@[simp] theorem size_merge (a b : EdgeHeap) : (merge a b).size = a.size + b.size := by
  fun_induction merge a b with
  | case1 => simp [size]
  | case2 => simp [size]
  | case3 e k d l r n e' k' d' l' r' n' h ih =>
    rw [size_join, ih]
    simp only [size, size_shift]
    omega
  | case4 e k d l r n e' k' d' l' r' n' h ih =>
    rw [size_join, ih]
    simp only [size, size_shift]
    omega

/-- The first edge of a heap and its weight. -/
def top? : EdgeHeap → Option (Nat × Int)
  | nil => none
  | node e k d _ _ _ => some (e, k + d)

/-- A heap without its first edge. -/
def pop : EdgeHeap → EdgeHeap
  | nil => nil
  | node _ _ d l r _ => merge (l.shift d) (r.shift d)

/-- Taking the first edge of a heap leaves one edge less. -/
theorem size_pop_lt {h : EdgeHeap} (hne : h ≠ nil) : h.pop.size < h.size := by
  cases h with
  | nil => exact absurd rfl hne
  | node e k d l r n =>
    simp only [pop, size_merge, size_shift, size]
    omega

end EdgeHeap

/-! ## Heaps in a store -/

/-- A node: an edge with its key, the amount pending for the node and all below it, the
roots of two heaps, and the length of the right spine. -/
structure HeapNode where
  edge : Nat
  key : Int
  pending : Int := 0
  left : Option Nat := none
  right : Option Nat := none
  rank : Nat := 1
  deriving Repr, DecidableEq

/-- The nodes of all heaps, by number. -/
structure HeapStore where
  nodes : Array HeapNode := #[]
  deriving Repr, DecidableEq

/-- A call of a store. -/
inductive HeapCall where
  | singleton (edge : Nat) (key : Int)
  | merge (a b : Option Nat)
  | top (root : Nat)
  | pop (root : Nat)
  | shift (root : Nat) (amount : Int)
  deriving Repr, DecidableEq

/-- What a store answers. -/
inductive HeapAnswer where
  /-- The root of a heap. -/
  | root (root : Option Nat)
  /-- An edge and its weight. -/
  | item (item : Nat × Int)
  | done
  deriving Repr, DecidableEq

namespace HeapStore

/-- The node with a number. -/
def node? (s : HeapStore) (i : Nat) : Option HeapNode := s.nodes[i]?

/-- Replace the node with a number. -/
def write (s : HeapStore) (i : Nat) (node : HeapNode) : HeapStore :=
  ⟨s.nodes.setIfInBounds i node⟩

theorem node?_write {s : HeapStore} {i : Nat} {old : HeapNode} (h : s.node? i = some old)
    (node : HeapNode) : (s.write i node).node? i = some node := by
  obtain ⟨hi, -⟩ := Array.getElem?_eq_some_iff.1 h
  simp [write, node?, hi]

theorem node?_write_of_ne {i j : Nat} (h : i ≠ j) (s : HeapStore) (node : HeapNode) :
    (s.write i node).node? j = s.node? j := by
  simp [write, node?, h]

/-- The rank of a heap, as recorded at its root. -/
def rankOf (s : HeapStore) : Option Nat → Option Nat
  | none => some 0
  | some i => (s.node? i).map (·.rank)

/-- The heap of a single edge. -/
def singleton (s : HeapStore) (edge : Nat) (key : Int) : Nat × HeapStore :=
  (s.nodes.size, ⟨s.nodes.push { edge := edge, key := key }⟩)

/-- Add an amount to the weights of all edges of a heap. -/
def shift (s : HeapStore) (root : Nat) (amount : Int) : Option HeapStore :=
  (s.node? root).map fun node => s.write root { node with pending := node.pending + amount }

/-- Add an amount to the weights of all edges of a heap that may be empty. -/
def shiftBelow (s : HeapStore) (root : Option Nat) (amount : Int) : Option HeapStore :=
  match root with
  | none => some s
  | some root => s.shift root amount

/-- Move the amount pending at a node one level down. -/
def settle (s : HeapStore) (i : Nat) : Option HeapStore := do
  let node ← s.node? i
  if node.pending = 0 then some s
  else
    let settled := s.write i { node with key := node.key + node.pending, pending := 0 }
    let settled ← settled.shiftBelow node.left node.pending
    settled.shiftBelow node.right node.pending

/-- Put a heap below a node, in place of its right one; of the two heaps below the node
the one with the longer right spine goes to the left. -/
def relink (s : HeapStore) (top : Nat) (right : Option Nat) : Option HeapStore := do
  let node ← s.node? top
  let leftRank ← s.rankOf node.left
  let rightRank ← s.rankOf right
  if leftRank < rightRank then
    s.write top { node with left := right, right := node.left, rank := leftRank + 1 }
  else s.write top { node with right := right, rank := rightRank + 1 }

/-- Merge two heaps, with calls that are nested at most to a given depth. -/
def mergeWithin : Nat → HeapStore → Option Nat → Option Nat → Option (Option Nat × HeapStore)
  | _, s, none, b => some (b, s)
  | _, s, some a, none => some (some a, s)
  | 0, _, some _, some _ => none
  | depth + 1, s, some a, some b => do
    let s ← s.settle a
    let s ← s.settle b
    let first ← s.node? a
    let second ← s.node? b
    let (top, right, other) :=
      if EdgeHeap.before second.key second.edge first.key first.edge then (b, second.right, a)
      else (a, first.right, b)
    let (right, s) ← mergeWithin depth s right (some other)
    let s ← s.relink top right
    return (some top, s)

/-- How deep the calls of a merge may be nested: twice the binary logarithm of the number of
nodes. -/
def depthLimit (s : HeapStore) : Nat := 2 * Nat.log2 (s.nodes.size + 1)

/-- Merge two heaps. -/
def merge (s : HeapStore) (a b : Option Nat) : Option (Option Nat × HeapStore) :=
  mergeWithin s.depthLimit s a b

/-- The first edge of a heap and its weight. -/
def top (s : HeapStore) (root : Nat) : Option ((Nat × Int) × HeapStore) := do
  let s ← s.settle root
  let node ← s.node? root
  return ((node.edge, node.key), s)

/-- Take the first edge off a heap. -/
def pop (s : HeapStore) (root : Nat) : Option (Option Nat × HeapStore) := do
  let s ← s.settle root
  let node ← s.node? root
  s.merge node.left node.right

/-- Whether all numbers of a store are allowed. -/
def fits (allowed : Int → Bool) (s : HeapStore) : Bool :=
  s.nodes.all fun node => allowed node.key && allowed node.pending

/-- Settle a node, and keep to the allowed numbers. -/
def settleIn (allowed : Int → Bool) (s : HeapStore) (i : Nat) : Option HeapStore :=
  (s.settle i).filter (·.fits allowed)

/-- Add an amount to the weights of all edges of a heap, and keep to the allowed numbers. -/
def shiftIn (allowed : Int → Bool) (s : HeapStore) (root : Nat) (amount : Int) :
    Option HeapStore :=
  if allowed amount then (s.shift root amount).filter (·.fits allowed) else none

/-- Merge two heaps, and keep to the allowed numbers. -/
def mergeIn (allowed : Int → Bool) :
    Nat → HeapStore → Option Nat → Option Nat → Option (Option Nat × HeapStore)
  | _, s, none, b => some (b, s)
  | _, s, some a, none => some (some a, s)
  | 0, _, some _, some _ => none
  | depth + 1, s, some a, some b => do
    let s ← s.settleIn allowed a
    let s ← s.settleIn allowed b
    let first ← s.node? a
    let second ← s.node? b
    let (top, right, other) :=
      if EdgeHeap.before second.key second.edge first.key first.edge then (b, second.right, a)
      else (a, first.right, b)
    let (right, s) ← mergeIn allowed depth s right (some other)
    let s ← s.relink top right
    return (some top, s)

/-- The first edge of a heap and its weight, by allowed numbers. -/
def topIn (allowed : Int → Bool) (s : HeapStore) (root : Nat) :
    Option ((Nat × Int) × HeapStore) := do
  let s ← s.settleIn allowed root
  let node ← s.node? root
  return ((node.edge, node.key), s)

/-- Take the first edge off a heap, and keep to the allowed numbers. -/
def popIn (allowed : Int → Bool) (s : HeapStore) (root : Nat) :
    Option (Option Nat × HeapStore) := do
  let s ← s.settleIn allowed root
  let node ← s.node? root
  mergeIn allowed s.depthLimit s node.left node.right

theorem mergeWithin_none (depth : Nat) (s : HeapStore) (b : Option Nat) :
    mergeWithin depth s none b = some (b, s) := by
  cases depth <;> cases b <;> rfl

theorem mergeWithin_some_none (depth : Nat) (s : HeapStore) (a : Nat) :
    mergeWithin depth s (some a) none = some (some a, s) := by
  cases depth <;> rfl

theorem mergeIn_none (allowed : Int → Bool) (depth : Nat) (s : HeapStore) (b : Option Nat) :
    mergeIn allowed depth s none b = some (b, s) := by
  cases depth <;> cases b <;> rfl

theorem mergeIn_some_none (allowed : Int → Bool) (depth : Nat) (s : HeapStore) (a : Nat) :
    mergeIn allowed depth s (some a) none = some (some a, s) := by
  cases depth <;> rfl

/-! Where all numbers are allowed, nothing is different. -/

@[simp] theorem settleIn_true (s : HeapStore) (i : Nat) :
    s.settleIn (fun _ => true) i = s.settle i := by
  rw [settleIn]
  cases s.settle i <;> simp [fits]

@[simp] theorem mergeIn_true (depth : Nat) (s : HeapStore) (a b : Option Nat) :
    mergeIn (fun _ => true) depth s a b = mergeWithin depth s a b := by
  induction depth generalizing s a b with
  | zero => cases a <;> cases b <;> rfl
  | succ depth ih =>
    match a, b with
    | none, b => rw [mergeIn_none, mergeWithin_none]
    | some a, none => rw [mergeIn_some_none, mergeWithin_some_none]
    | some a, some b => simp only [mergeIn, mergeWithin, settleIn_true, ih]

@[simp] theorem topIn_true (s : HeapStore) (root : Nat) :
    s.topIn (fun _ => true) root = s.top root := by
  simp only [topIn, top, settleIn_true]

@[simp] theorem popIn_true (s : HeapStore) (root : Nat) :
    s.popIn (fun _ => true) root = s.pop root := by
  simp only [popIn, pop, merge, settleIn_true, mergeIn_true]

/-- What is merged at some depth is merged in the same way at a greater one. -/
theorem mergeWithin_mono {depth depth' : Nat} (hle : depth ≤ depth') {s : HeapStore}
    {a b : Option Nat} {result : Option Nat × HeapStore}
    (h : mergeWithin depth s a b = some result) : mergeWithin depth' s a b = some result := by
  induction depth generalizing depth' s a b result with
  | zero =>
    match a, b with
    | none, b => rwa [mergeWithin_none] at h ⊢
    | some a, none => rwa [mergeWithin_some_none] at h ⊢
    | some a, some b => cases h
  | succ depth ih =>
    match a, b with
    | none, b => rwa [mergeWithin_none] at h ⊢
    | some a, none => rwa [mergeWithin_some_none] at h ⊢
    | some a, some b =>
      obtain ⟨more, rfl⟩ := Nat.exists_eq_add_of_le hle
      rw [Nat.add_right_comm, mergeWithin]
      rw [mergeWithin] at h
      simp only [Option.bind_eq_bind, Option.bind_eq_some_iff] at h ⊢
      obtain ⟨s₁, h₁, s₂, h₂, first, hfirst, second, hsecond, ⟨root, s₃⟩, h₃, hrest⟩ := h
      exact ⟨s₁, h₁, s₂, h₂, first, hfirst, second, hsecond, ⟨root, s₃⟩,
        ih (Nat.le_add_right depth more) h₃, hrest⟩

/-- Answer a call. -/
def call (s : HeapStore) : HeapCall → Option (HeapAnswer × HeapStore)
  | .singleton edge key =>
    let (root, s) := s.singleton edge key
    some (.root (some root), s)
  | .merge a b => (s.merge a b).map fun (root, s) => (.root root, s)
  | .top root => (s.top root).map fun (item, s) => (.item item, s)
  | .pop root => (s.pop root).map fun (root, s) => (.root root, s)
  | .shift root amount => (s.shift root amount).map fun s => (.done, s)

/-- Answer one call after another. -/
def run (s : HeapStore) : List HeapCall → Option (List HeapAnswer × HeapStore)
  | [] => some ([], s)
  | call :: calls => do
    let (answer, s) ← s.call call
    let (answers, s) ← s.run calls
    return (answer :: answers, s)

end HeapStore

end FuzzCampaign

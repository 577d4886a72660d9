import FuzzCampaign.Proofs.Arborescence.HeapStore

/-!
# The ledger of a store of heaps

A ledger says for every root in use which heap it stands for.  A call is admissible if it is
given roots in use, and no root twice.  Then it is answered, it changes the multisets of the
heaps it is given as it should, and it leaves those of all others alone.

Main definitions:

- `HeapLedger.after`: the ledger after a call.
- `HeapCall.Law`: what a call does to the multisets of edges.
- `HeapCall.Effect`: what a call does to the ledger.
- `HeapStore.Stands`: the store keeps what the ledger says.
- `HeapStore.Proper`: each call is admissible when it is its turn.

Main results:

- `Stands.call`: what one admissible call does.
- `run_stands`: what is true after any number of them.
-/

namespace FuzzCampaign

/-- The roots in use, with the heaps that they stand for. -/
structure HeapLedger where
  live : List Nat := []
  entry : Nat → EdgeHeap := fun _ => .nil

namespace HeapLedger

/-- The heap of a root that may be absent. -/
def heap (L : HeapLedger) : Option Nat → EdgeHeap
  | none => .nil
  | some i => L.entry i

/-- The edges of a heap with their current weights. -/
def bag (L : HeapLedger) (root : Option Nat) : Multiset (Nat × Int) := (L.heap root).bag

/-- Some roots go out of use, and a root comes into use, which may be one of them. -/
def replace (L : HeapLedger) (gone : List Nat) (root : Option Nat) (heap : EdgeHeap) :
    HeapLedger where
  live := root.toList ++ L.live.filter (· ∉ gone)
  entry j := if some j = root then heap else if j ∈ gone then .nil else L.entry j

@[simp] theorem heap_some (L : HeapLedger) (i : Nat) : L.heap (some i) = L.entry i := rfl

/-- After a replacement the new root is live and what is gone is not. -/
theorem mem_live_replace {L : HeapLedger} {gone : List Nat} {root : Option Nat}
    {heap : EdgeHeap} {j : Nat} : j ∈ (L.replace gone root heap).live ↔
      some j = root ∨ j ∈ L.live ∧ j ∉ gone := by
  rw [replace, List.mem_append, Option.mem_toList, List.mem_filter, decide_eq_true_eq, eq_comm]

/-- The new root has the new heap. -/
theorem entry_replace_self (L : HeapLedger) (gone : List Nat) (i : Nat) (heap : EdgeHeap) :
    (L.replace gone (some i) heap).entry i = heap :=
  if_pos rfl

/-- A replacement leaves the heaps of the other roots alone. -/
theorem entry_replace_of_ne {j : Nat} {root : Option Nat} (hj : some j ≠ root) (L : HeapLedger)
    (gone : List Nat) (heap : EdgeHeap) :
    (L.replace gone root heap).entry j = if j ∈ gone then .nil else L.entry j :=
  if_neg hj

end HeapLedger

/-! ## Calls -/

namespace HeapCall

/-- The roots that are given to a call. -/
def roots : HeapCall → List Nat
  | singleton _ _ => []
  | merge a b => a.toList ++ b.toList
  | top root => [root]
  | pop root => [root]
  | shift root _ => [root]

/-- A call is given roots in use, and no root twice. -/
def Admissible (c : HeapCall) (L : HeapLedger) : Prop :=
  c.roots.Nodup ∧ ∀ i ∈ c.roots, i ∈ L.live

instance (c : HeapCall) (L : HeapLedger) : Decidable (c.Admissible L) :=
  inferInstanceAs (Decidable (_ ∧ _))

/-- The first root of an admissible merge is live. -/
theorem Admissible.left {a b : Option Nat} {L : HeapLedger} (h : (merge a b).Admissible L) :
    ∀ i ∈ a, i ∈ L.live :=
  fun i hi => h.2 i (List.mem_append_left _ (Option.mem_toList.2 hi))

/-- The second root of an admissible merge is live. -/
theorem Admissible.right {a b : Option Nat} {L : HeapLedger} (h : (merge a b).Admissible L) :
    ∀ i ∈ b, i ∈ L.live :=
  fun i hi => h.2 i (List.mem_append_right _ (Option.mem_toList.2 hi))

/-- Where the heap is that a call leaves. -/
def place : HeapCall → HeapAnswer → Option Nat
  | top root, _ => some root
  | shift root _, _ => some root
  | _, .root root => root
  | _, _ => none

/-- The heap that a call leaves. -/
def result (L : HeapLedger) : HeapCall → EdgeHeap
  | singleton edge key => .singleton edge key
  | merge a b => (L.heap a).merge (L.heap b)
  | top root => (L.entry root).settle
  | pop root => (L.entry root).pop
  | shift root amount => (L.entry root).shift amount

/-- How much larger a call can make the numbers in a heap. -/
def amount : HeapCall → Nat
  | singleton _ key => key.natAbs
  | shift _ amount => amount.natAbs
  | _ => 0

/-- A call makes no weight larger than its amount allows. -/
theorem extent_result_le {L : HeapLedger} {bound : Nat}
    (hbound : ∀ i, (L.entry i).extent ≤ bound) (c : HeapCall) :
    (c.result L).extent ≤ bound + c.amount := by
  have hheap : ∀ root, (L.heap root).extent ≤ bound := fun root => by
    cases root with
    | none => exact Nat.zero_le _
    | some i => exact hbound i
  cases c with
  | singleton edge key =>
    simp [result, amount, EdgeHeap.singleton, EdgeHeap.extent]
  | merge a b => exact EdgeHeap.extent_merge_le (hheap a) (hheap b)
  | top i => exact (EdgeHeap.extent_settle_le _).trans (hbound i)
  | pop i => exact (EdgeHeap.extent_pop_le _).trans (hbound i)
  | shift i amount =>
    exact (EdgeHeap.extent_shift_le amount _).trans (Nat.add_le_add_right (hbound i) _)

/-- The item comes before all items. -/
def Least (bag : Multiset (Nat × Int)) (item : Nat × Int) : Prop :=
  item ∈ bag ∧ ∀ other ∈ bag, EdgeHeap.Precedes item other

/-- What a call answers and which multiset it leaves. -/
def Law (L : HeapLedger) (answer : HeapAnswer) (bag : Multiset (Nat × Int)) : HeapCall → Prop
  | singleton edge key => bag = {(edge, key)}
  | merge a b => bag = L.bag a + L.bag b
  | top root => bag = L.bag (some root) ∧
    ∃ item, answer = .item item ∧ Least (L.bag (some root)) item
  | pop root => ∃ item, Least (L.bag (some root)) item ∧ bag = (L.bag (some root)).erase item
  | shift root amount => bag = (L.bag (some root)).map fun item => (item.1, item.2 + amount)

end HeapCall

/-- The ledger after a call. -/
def HeapLedger.after (L : HeapLedger) (c : HeapCall) (answer : HeapAnswer) : HeapLedger :=
  L.replace c.roots (c.place answer) (c.result L)

/-- What a call does: the heap it leaves is at a root it was given or at one that was not in
use; the other roots it was given are not in use any more; the other heaps stay. -/
structure HeapCall.Effect (L : HeapLedger) (c : HeapCall) (answer : HeapAnswer)
    (L' : HeapLedger) : Prop where
  law : c.Law L answer (L'.bag (c.place answer))
  own : ∀ i ∈ c.place answer, i ∈ c.roots ∨ i ∉ L.live
  rest : ∀ j, some j ≠ c.place answer →
    (j ∈ L'.live ↔ j ∈ L.live ∧ j ∉ c.roots) ∧
      L'.bag (some j) = if j ∈ c.roots then 0 else L.bag (some j)

namespace HeapStore

/-- A store keeps what a ledger says, given the nodes of each heap, and no two heaps share a
node. -/
structure Stands (s : HeapStore) (L : HeapLedger) (nodes : Nat → List Nat) : Prop where
  keeps : ∀ i ∈ L.live, s.Keeps (some i) (L.entry i) (nodes i)
  apart : ∀ i ∈ L.live, ∀ j ∈ L.live, i ≠ j → (nodes i).Disjoint (nodes j)

variable {s s' : HeapStore} {L : HeapLedger} {nodes : Nat → List Nat} {c : HeapCall}

/-- An empty store stands for the empty ledger. -/
theorem stands_empty (nodes : Nat → List Nat) : Stands {} {} nodes :=
  ⟨by simp, by simp⟩

namespace Stands

/-! ## The heaps that a call is given -/

/-- A live root holds its heap of the ledger. -/
theorem keeps_heap (h : Stands s L nodes) {root : Option Nat} (hroot : ∀ i ∈ root, i ∈ L.live) :
    s.Keeps root (L.heap root) (root.toList.flatMap nodes) := by
  cases root with
  | none => exact .nil s
  | some i => simpa using h.keeps i (hroot i rfl)

/-- Different heaps share no nodes. -/
theorem disjoint_flatMap (h : Stands s L nodes) {front back : List Nat}
    (hroots : (front ++ back).Nodup) (hlive : ∀ i ∈ front ++ back, i ∈ L.live) :
    (front.flatMap nodes).Disjoint (back.flatMap nodes) := by
  intro x hfront hback
  obtain ⟨i, hi, hxi⟩ := List.mem_flatMap.1 hfront
  obtain ⟨j, hj, hxj⟩ := List.mem_flatMap.1 hback
  have hne : i ≠ j := fun heq => (List.disjoint_of_nodup_append hroots) hi (heq ▸ hj)
  exact h.apart i (hlive i (List.mem_append_left _ hi)) j (hlive j (List.mem_append_right _ hj))
    hne hxi hxj

/-- The numbers of the nodes that a call may write: those of the heaps it is given and the
next one that is free. -/
def region (s : HeapStore) (nodes : Nat → List Nat) (c : HeapCall) : List Nat :=
  s.nodes.size :: c.roots.flatMap nodes

/-- The nodes of a call's roots are in its region. -/
theorem subset_region {i : Nat} (hi : i ∈ c.roots) : nodes i ⊆ region s nodes c :=
  fun _ hx => List.mem_cons_of_mem _ (List.mem_flatMap_of_mem hi hx)

/-- What a call writes belongs to no other heap. -/
theorem disjoint_region (h : Stands s L nodes) (hc : c.Admissible L) {j : Nat} (hj : j ∈ L.live)
    (hother : j ∉ c.roots) : (nodes j).Disjoint (region s nodes c) := by
  intro x hx hregion
  rcases List.mem_cons.1 hregion with rfl | hroots
  · exact Nat.lt_irrefl _ ((h.keeps j hj).holds.mem_lt _ hx)
  · obtain ⟨i, hi, hxi⟩ := List.mem_flatMap.1 hroots
    have hne : j ≠ i := fun heq => hother (heq ▸ hi)
    exact h.apart j hj i (hc.2 i hi) hne hx hxi

/-- The ledger is right again when a call has left a heap in the nodes that it may write. -/
theorem after (h : Stands s L nodes) (hc : c.Admissible L) {answer : HeapAnswer}
    {marks : List Nat} (hw : Within (region s nodes c) s s')
    (hheap : s'.Keeps (c.place answer) (c.result L) marks) (hmarks : marks ⊆ region s nodes c) :
    s'.Stands (L.after c answer) fun j => if some j = c.place answer then marks else nodes j := by
  have hother : ∀ j ∈ (L.after c answer).live, some j ≠ c.place answer →
      j ∈ L.live ∧ (nodes j).Disjoint (region s nodes c) ∧
        (L.after c answer).entry j = L.entry j := by
    intro j hj hplace
    obtain ⟨hlive, hroots⟩ := (HeapLedger.mem_live_replace.1 hj).resolve_left hplace
    refine ⟨hlive, h.disjoint_region hc hlive hroots, ?_⟩
    rw [HeapLedger.after, HeapLedger.entry_replace_of_ne hplace, if_neg hroots]
  refine ⟨fun j hj => ?_, fun j hj k hk hne => ?_⟩
  · by_cases hplace : some j = c.place answer
    · rw [if_pos hplace, HeapLedger.after, ← hplace, HeapLedger.entry_replace_self, hplace]
      exact hheap
    · obtain ⟨hlive, hapart, hentry⟩ := hother j hj hplace
      rw [if_neg hplace, hentry]
      exact (h.keeps j hlive).within hw hapart
  · by_cases hplace : some j = c.place answer
    · have hplace' : some k ≠ c.place answer := fun heq =>
        hne (Option.some.inj (hplace.trans heq.symm))
      rw [if_pos hplace, if_neg hplace']
      exact List.disjoint_of_subset_left hmarks
        (List.disjoint_comm.1 (hother k hk hplace').2.1)
    · rw [if_neg hplace]
      split
      · exact List.disjoint_of_subset_right hmarks (hother j hj hplace).2.1
      · rename_i hplace'
        exact h.apart j (hother j hj hplace).1 k (hother k hk hplace').1 hne

/-- The rest of what a call does follows from where it left its heap. -/
theorem effect (h : Stands s L nodes) (hc : c.Admissible L) {answer : HeapAnswer}
    {marks : List Nat} (hheap : s'.Holds (c.place answer) (c.result L) marks)
    (hmarks : marks ⊆ region s nodes c) (hlaw : c.Law L answer (c.result L).bag) :
    c.Effect L answer (L.after c answer) := by
  refine ⟨?_, fun i hi => ?_, fun j hj => ⟨?_, ?_⟩⟩
  · have hbag : (L.after c answer).bag (c.place answer) = (c.result L).bag := by
      rw [HeapLedger.after, HeapLedger.bag]
      generalize c.place answer = place, c.result L = heap at hheap
      cases hheap with
      | nil => rfl
      | node => rw [HeapLedger.heap_some, HeapLedger.entry_replace_self]
    rwa [hbag]
  · rw [Option.mem_def] at hi
    rw [hi] at hheap
    by_contra! hused
    have hnode := (h.keeps i hused.2).holds.root_mem
    exact h.disjoint_region hc hused.2 hused.1 hnode (hmarks hheap.root_mem)
  · rw [HeapLedger.after, HeapLedger.mem_live_replace, or_iff_right hj]
  · rw [HeapLedger.bag, HeapLedger.heap_some, HeapLedger.after,
      HeapLedger.entry_replace_of_ne hj]
    split <;> rfl

/-! ## One call -/

/-- The top of a live heap is the least of its bag. -/
theorem least_top (h : Stands s L nodes) {i : Nat} (hi : i ∈ L.live) {item : Nat × Int}
    (htop : (L.entry i).top? = some item) : HeapCall.Least (L.bag (some i)) item :=
  ⟨EdgeHeap.mem_bag_of_top? htop, fun _ hother =>
    (h.keeps i hi).ordered.precedes_top htop hother⟩

/-- Two heaps are merged by calls that are nested no deeper than the binary logarithms of their
sizes. -/
theorem merge {a b : Option Nat} (h : Stands s L nodes)
    (hc : (HeapCall.merge a b).Admissible L) :
    ∃ root s' marks, s.merge a b = some (root, s') ∧
      mergeWithin (Nat.log2 ((L.bag a).card + 1) + Nat.log2 ((L.bag b).card + 1)) s a b =
        some (root, s') ∧
      s'.Keeps root ((L.heap a).merge (L.heap b)) marks ∧
      marks ⊆ region s nodes (.merge a b) ∧ Within (region s nodes (.merge a b)) s s' := by
  obtain ⟨root, s', marks, hwithin, hmerge, hheap, hperm, hw⟩ :=
    (h.keeps_heap hc.left).merge (h.keeps_heap hc.right) (h.disjoint_flatMap hc.1 hc.2)
  rw [← EdgeHeap.card_bag, ← EdgeHeap.card_bag] at hwithin
  rw [← List.flatMap_append] at hperm hw
  exact ⟨root, s', marks, hmerge, hwithin, hheap, List.subset_cons_of_subset _ hperm.subset,
    hw.mono (List.subset_cons_self _ _)⟩

/-- An admissible call is answered, and the heap it leaves is in the nodes that it may write. -/
theorem answered (h : Stands s L nodes) (hc : c.Admissible L) :
    ∃ answer s' marks, s.call c = some (answer, s') ∧
      s'.Keeps (c.place answer) (c.result L) marks ∧ marks ⊆ region s nodes c ∧
      Within (region s nodes c) s s' ∧ c.Law L answer (c.result L).bag := by
  cases c with
  | singleton edge key =>
    obtain ⟨hheap, hw⟩ := Keeps.singleton s edge key
    refine ⟨_, _, [s.nodes.size], rfl, hheap, ?_, hw.mono ?_, EdgeHeap.bag_singleton edge key⟩
    all_goals simp [region]
  | merge a b =>
    obtain ⟨root, s', marks, hmerge, -, hheap, hmarks, hw⟩ := h.merge hc
    exact ⟨.root root, s', marks, by rw [HeapStore.call, hmerge]; rfl, hheap, hmarks, hw,
      EdgeHeap.bag_merge _ _⟩
  | top i =>
    have hi : i ∈ L.live := hc.2 i List.mem_cons_self
    have hregion : nodes i ⊆ region s nodes (.top i) := subset_region List.mem_cons_self
    obtain ⟨item, s', hcall, htop, hheap, hw⟩ := (h.keeps i hi).top
    exact ⟨.item item, s', nodes i, by rw [HeapStore.call, hcall]; rfl, hheap, hregion,
      hw.mono hregion, EdgeHeap.bag_settle _, item, rfl, h.least_top hi htop⟩
  | pop i =>
    have hi : i ∈ L.live := hc.2 i List.mem_cons_self
    have hregion : nodes i ⊆ region s nodes (.pop i) := subset_region List.mem_cons_self
    obtain ⟨item, -, -, htop, -⟩ := (h.keeps i hi).top
    obtain ⟨root, s', marks, hcall, hheap, hperm, hw⟩ := (h.keeps i hi).pop
    exact ⟨.root root, s', marks, by rw [HeapStore.call, hcall]; rfl, hheap,
      fun x hx => hregion (hperm.symm.subset (List.mem_cons_of_mem i hx)), hw.mono hregion, item,
      h.least_top hi htop, EdgeHeap.bag_pop htop⟩
  | shift i amount =>
    have hi : i ∈ L.live := hc.2 i List.mem_cons_self
    have hregion : nodes i ⊆ region s nodes (.shift i amount) := subset_region List.mem_cons_self
    obtain ⟨s', hcall, hheap, hw⟩ := (h.keeps i hi).shift amount
    exact ⟨.done, s', nodes i, by rw [HeapStore.call, hcall]; rfl, hheap, hregion,
      hw.mono hregion, EdgeHeap.bag_shift amount _⟩

/-- An admissible call is answered and does what it should. -/
theorem call (h : Stands s L nodes) (hc : c.Admissible L) :
    ∃ answer s' nodes', s.call c = some (answer, s') ∧ c.Effect L answer (L.after c answer) ∧
      s'.Stands (L.after c answer) nodes' := by
  obtain ⟨answer, s', marks, hcall, hheap, hmarks, hw, hlaw⟩ := h.answered hc
  exact ⟨answer, s', _, hcall, h.effect hc hheap.holds hmarks hlaw, h.after hc hw hheap hmarks⟩

end Stands

/-! ## Many calls -/

/-- Each call is admissible when it is its turn. -/
def Proper : HeapStore → HeapLedger → List HeapCall → Prop
  | _, _, [] => True
  | s, L, c :: calls =>
    c.Admissible L ∧ ∀ next ∈ s.call c, Proper next.2 (L.after c next.1) calls

instance decidableProper : (s : HeapStore) → (L : HeapLedger) → (calls : List HeapCall) →
    Decidable (Proper s L calls)
  | _, _, [] => isTrue trivial
  | s, L, c :: calls =>
    have (next : HeapAnswer × HeapStore) := decidableProper next.2 (L.after c next.1) calls
    inferInstanceAs (Decidable (_ ∧ ∀ next ∈ s.call c, Proper next.2 (L.after c next.1) calls))

end HeapStore

/-- Each call did what it should, one after another. -/
inductive HeapLedger.History : HeapLedger → List HeapCall → List HeapAnswer → HeapLedger → Prop
  | nil (L : HeapLedger) : History L [] [] L
  | cons {L L' : HeapLedger} {c : HeapCall} {calls : List HeapCall} {answer : HeapAnswer}
      {answers : List HeapAnswer} : c.Effect L answer (L.after c answer) →
      History (L.after c answer) calls answers L' → History L (c :: calls) (answer :: answers) L'

/-- The numbers in all heaps together grow by no more than what the calls are given. -/
theorem HeapLedger.History.extent_le {L L' : HeapLedger} {calls : List HeapCall}
    {answers : List HeapAnswer} (h : History L calls answers L') {bound : Nat}
    (hbound : ∀ i, (L.entry i).extent ≤ bound) (i : Nat) :
    (L'.entry i).extent ≤ bound + (calls.map HeapCall.amount).sum := by
  induction h generalizing bound with
  | nil => exact hbound i
  | @cons L L' c calls answer answers _ _ ih =>
    rw [List.map_cons, List.sum_cons, ← Nat.add_assoc]
    refine ih fun j => ?_
    rw [after, replace]
    dsimp only
    split
    · exact c.extent_result_le hbound
    · split
      · exact Nat.zero_le _
      · exact Nat.le_add_right_of_le (hbound j)

namespace HeapStore

variable {s s' : HeapStore} {L : HeapLedger} {nodes : Nat → List Nat} {c : HeapCall}

namespace Stands

/-- Proper calls are answered as the ledger answers them, and the store stands for the
new ledger. -/
theorem run (h : Stands s L nodes) {calls : List HeapCall} (hproper : Proper s L calls) :
    ∃ answers s' L' nodes', s.run calls = some (answers, s') ∧
      L.History calls answers L' ∧ s'.Stands L' nodes' := by
  induction calls generalizing s L nodes with
  | nil => exact ⟨[], s, L, nodes, rfl, .nil L, h⟩
  | cons c calls ih =>
    obtain ⟨hc, hrest⟩ := hproper
    obtain ⟨answer, s₁, nodes₁, hcall, heffect, hstands⟩ := h.call hc
    obtain ⟨answers, s', L', nodes', hrun, hhistory, hstands'⟩ :=
      ih hstands (hrest (answer, s₁) hcall)
    refine ⟨answer :: answers, s', L', nodes', ?_, .cons heffect hhistory, hstands'⟩
    rw [HeapStore.run, hcall]
    simp only [Option.bind_eq_bind, Option.bind_some, hrun]
    rfl

end Stands

/-- Proper calls on a store that is empty at first are all answered, and each of them does what
it should.  Afterwards the heaps in use are disjoint leftist heaps in heap order; the rank at a
root is the length of its right spine, and it is logarithmic in the number of edges, as is the
depth of nested calls when two of the heaps are merged.  The numbers at their nodes do not
exceed the sum of the keys and amounts that were given. -/
theorem run_stands {calls : List HeapCall} (hproper : Proper {} {} calls) :
    ∃ answers s L nodes, HeapStore.run {} calls = some (answers, s) ∧
      HeapLedger.History {} calls answers L ∧ s.Stands L nodes ∧
      (∀ i ∈ L.live, s.rankOf (some i) = some (L.entry i).spine ∧
        2 ^ (L.entry i).spine - 1 ≤ (L.bag (some i)).card) ∧
      (∀ a b, (HeapCall.merge a b).Admissible L → ∃ merged, s.merge a b = some merged ∧
        mergeWithin (Nat.log2 ((L.bag a).card + 1) + Nat.log2 ((L.bag b).card + 1)) s a b =
          some merged) ∧
      ∀ i ∈ L.live, ∀ j ∈ nodes i, ∀ node ∈ s.node? j,
        node.key.natAbs ≤ (calls.map HeapCall.amount).sum ∧
          node.pending.natAbs ≤ (calls.map HeapCall.amount).sum := by
  obtain ⟨answers, s, L, nodes, hrun, hhistory, hstands⟩ :=
    (stands_empty fun _ => []).run hproper
  refine ⟨answers, s, L, nodes, hrun, hhistory, hstands, fun i hi => ⟨?_, ?_⟩,
    fun a b hc => ?_, fun i hi => (hstands.keeps i hi).holds.natAbs_le ?_⟩
  · rw [(hstands.keeps i hi).holds.rankOf_eq, (hstands.keeps i hi).leftist.rank_eq]
  · have hsize := (hstands.keeps i hi).leftist.two_pow_le
    rw [HeapLedger.bag, HeapLedger.heap_some, EdgeHeap.card_bag]
    omega
  · obtain ⟨root, s', -, hmerge, hwithin, -⟩ := hstands.merge hc
    exact ⟨(root, s'), hmerge, hwithin⟩
  · have hextent := hhistory.extent_le (fun _ => Nat.le_refl 0) i
    rwa [Nat.zero_add] at hextent

/-- Two edges of weight seven are merged, three is taken off both weights, and the edge with the
lower number goes first; the other one is left with weight four. -/
theorem run_stands_shift : ∃ s L nodes,
    HeapStore.run {} [.singleton 4 7, .singleton 2 7, .merge (some 0) (some 1), .shift 1 (-3),
      .pop 1, .top 0] = some ([.root (some 0), .root (some 1), .root (some 1), .done,
        .root (some 0), .item (4, 4)], s) ∧
      HeapLedger.History {} [.singleton 4 7, .singleton 2 7, .merge (some 0) (some 1),
        .shift 1 (-3), .pop 1, .top 0] [.root (some 0), .root (some 1), .root (some 1), .done,
          .root (some 0), .item (4, 4)] L ∧ s.Stands L nodes := by
  obtain ⟨answers, s, L, nodes, hrun, hhistory, hstands, -⟩ :=
    @run_stands [.singleton 4 7, .singleton 2 7, .merge (some 0) (some 1), .shift 1 (-3),
      .pop 1, .top 0] (by decide)
  have hanswers : (HeapStore.run {} [.singleton 4 7, .singleton 2 7, .merge (some 0) (some 1),
      .shift 1 (-3), .pop 1, .top 0]).map (·.1) = some [.root (some 0), .root (some 1),
        .root (some 1), .done, .root (some 0), .item (4, 4)] := by decide
  rw [hrun] at hanswers
  obtain rfl : answers = _ := Option.some.inj hanswers
  exact ⟨s, L, nodes, hrun, hhistory, hstands⟩

end HeapStore

end FuzzCampaign

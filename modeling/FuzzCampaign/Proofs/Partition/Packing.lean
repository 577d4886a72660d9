import FuzzCampaign.Proofs.Partition.Load
import Mathlib.Algebra.Order.BigOperators.Group.List
import Mathlib.Algebra.Order.Ring.Nat
import Mathlib.Data.List.MinMax
import Mathlib.Data.List.Permutation

/-!
# Packings are level and depend on weights only

A packing puts every item into a bin that is lightest at that moment.  So no bin is
heavier than any other one together with the item that came to it last: when this item
came, the bin was no heavier than the others, and bins only grow.  The lightest bin
weighs at most the average, which bounds all of them.

Items come to the bins from the heaviest to the lightest, and items of one weight come in
their given order.  A bin receives some of them and keeps them as they came.

Where an item goes is decided by the weights of the bins, not by the items they hold.
Packing items is therefore packing their weights, and sorted weights do not tell in which
order they were given.

Main definitions:

- `Packing.Level`: no bin exceeds another by more than its last item.
- `Packing.Packs`: what a packing of items promises while nothing is cut off.
- `Packing.largest`: the largest of some weights.

Main results:

- `level_balance`: packings are level.
- `balance_packs`: what packings promise.
- `map_weighed_balance`: packing items is packing their weights.
- `balance_order_free`: rearranged items are packed to the same weights.
-/

namespace FuzzCampaign

namespace Packing

variable {α : Type} {weigh : α → Nat}

/-! ## Level packings -/

/-- No bin exceeds another by more than the item that came to it last, and without items a
bin weighs nothing. -/
structure Level (weigh : α → Nat) (bins : List (Bin α)) : Prop where
  le_add_last : ∀ bin ∈ bins, ∀ last, bin.items.getLast? = some last →
    ∀ other ∈ bins, bin.weight ≤ other.weight + weigh last
  weight_of_empty : ∀ bin ∈ bins, bin.items = [] → bin.weight = 0
  le_ceiling : ∀ bin ∈ bins, bin.weight ≤ Weight.ceiling

/-- Placing into the lightest bin keeps the bins level. -/
theorem Level.place {bins : List (Bin α)} (h : Level weigh bins) (item : α) :
    Level weigh (place weigh bins item) := by
  -- bins only grow, since no bin is above the ceiling
  have hgrown : ∀ bin ∈ Packing.place weigh bins item, ∃ old ∈ bins, old.weight ≤ bin.weight := by
    intro bin hbin
    rcases mem_place hbin with hold | ⟨old, hold, -, rfl⟩
    · exact ⟨bin, hold, Nat.le_refl _⟩
    · exact ⟨old, hold, Weight.le_add_right (h.le_ceiling old hold) _⟩
  refine ⟨?_, ?_, ?_⟩
  · intro bin hbin last hlast other hother
    obtain ⟨before, hbefore, hle⟩ := hgrown other hother
    rcases mem_place hbin with hold | ⟨old, hold, hlightest, rfl⟩
    · have hbound := h.le_add_last bin hold last hlast before hbefore
      omega
    · rw [Bin.items_push, List.getLast?_concat, Option.some.injEq] at hlast
      subst hlast
      have hpushed := weight_push_le old item (weigh item)
      have hleast := hlightest before hbefore
      omega
  · intro bin hbin hempty
    rcases mem_place hbin with hold | ⟨old, hold, -, rfl⟩
    · exact h.weight_of_empty bin hold hempty
    · simp at hempty
  · intro bin hbin
    rcases mem_place hbin with hold | ⟨old, hold, -, rfl⟩
    · exact h.le_ceiling bin hold
    · exact Weight.add_le_ceiling _ _

/-- Placing items one after the other keeps the bins level. -/
theorem Level.foldl_place {bins : List (Bin α)} (h : Level weigh bins) (items : List α) :
    Level weigh (items.foldl (Packing.place weigh) bins) := by
  induction items generalizing bins with
  | nil => exact h
  | cons item items ih => exact ih (h.place item)

/-- Where no item is heavier than `heaviest`, no bin is heavier than another one by more
than that. -/
theorem Level.weight_le {bins : List (Bin α)} (h : Level weigh bins) {heaviest : Nat}
    (hitems : ∀ bin ∈ bins, ∀ item ∈ bin.items, weigh item ≤ heaviest) {bin other : Bin α}
    (hbin : bin ∈ bins) (hother : other ∈ bins) : bin.weight ≤ other.weight + heaviest := by
  cases hlast : bin.items.getLast? with
  | none =>
    rw [List.getLast?_eq_none_iff] at hlast
    rw [h.weight_of_empty bin hbin hlast]
    exact Nat.zero_le _
  | some last =>
    have hbound := h.le_add_last bin hbin last hlast other hother
    have hweight := hitems bin hbin last (List.mem_of_getLast? hlast)
    omega

end Packing

open Packing

/-- Packings are level. -/
theorem level_balance {α : Type} (weigh : α → Nat) (items : List α) (k : Nat) :
    Level weigh (balance weigh items k) := by
  have hempty : Level weigh (List.replicate k ({} : Bin α)) := by
    refine ⟨?_, ?_, ?_⟩
    · intro bin hbin last hlast
      rw [List.eq_of_mem_replicate hbin] at hlast
      cases hlast
    · intro bin hbin _
      rw [List.eq_of_mem_replicate hbin]
    · intro bin hbin
      rw [List.eq_of_mem_replicate hbin]
      exact Nat.zero_le _
  exact hempty.foldl_place (heaviestFirst weigh items)

/-- A number that exceeds none of some numbers by more than `slack` is at most their average
and `slack`. -/
theorem le_average_add {numbers : List Nat} (hne : numbers ≠ []) {number slack : Nat}
    (h : ∀ other ∈ numbers, number ≤ other + slack) :
    number ≤ numbers.sum / numbers.length + slack := by
  have hsum : numbers.length • (number - slack) ≤ numbers.sum := by
    refine List.card_nsmul_le_sum numbers _ ?_
    intro other hother
    have hle := h other hother
    omega
  have haverage : number - slack ≤ numbers.sum / numbers.length := by
    rw [Nat.le_div_iff_mul_le (List.length_pos_iff.2 hne), Nat.mul_comm]
    exact hsum
  omega

namespace Packing

variable {α : Type} {weigh : α → Nat}

/-! ## The order of arrival -/

/-- What a bin receives comes after what it holds, in the order of placement. -/
theorem exists_sublist_foldl_place {bins : List (Bin α)} {items : List α} {bin : Bin α}
    (h : bin ∈ items.foldl (place weigh) bins) :
    ∃ old ∈ bins, ∃ received, received.Sublist items ∧ bin.items = old.items ++ received := by
  induction items generalizing bins with
  | nil => exact ⟨bin, h, [], List.Sublist.refl _, (List.append_nil _).symm⟩
  | cons item items ih =>
    obtain ⟨middle, hmiddle, received, hsub, heq⟩ := ih h
    rcases mem_place hmiddle with hold | ⟨old, hold, -, rfl⟩
    · exact ⟨middle, hold, received, hsub.cons item, heq⟩
    · refine ⟨old, hold, item :: received, hsub.cons_cons item, ?_⟩
      rw [heq, Bin.items_push, List.append_assoc, List.singleton_append]

/-- A bin holds some of the items, in the order of placement. -/
theorem sublist_heaviestFirst {items : List α} {k : Nat} {bin : Bin α}
    (h : bin ∈ balance weigh items k) : bin.items.Sublist (heaviestFirst weigh items) := by
  obtain ⟨old, hold, received, hsub, heq⟩ := exists_sublist_foldl_place h
  rw [List.eq_of_mem_replicate hold, List.nil_append] at heq
  rwa [heq]

/-- The items come in the order of falling weights. -/
theorem pairwise_heaviestFirst (weigh : α → Nat) (items : List α) :
    (heaviestFirst weigh items).Pairwise fun a b => weigh b ≤ weigh a := by
  have hsorted : (heaviestFirst weigh items).Pairwise
      fun a b => decide (weigh b ≤ weigh a) = true :=
    List.pairwise_mergeSort (by simp only [decide_eq_true_eq]; omega)
      (by simp only [Bool.or_eq_true, decide_eq_true_eq]; omega) items
  simpa only [decide_eq_true_eq] using hsorted

/-- Items of one weight are placed in their given order. -/
theorem filter_heaviestFirst (weigh : α → Nat) (items : List α) (w : Nat) :
    (heaviestFirst weigh items).filter (weigh · = w) = items.filter (weigh · = w) := by
  have hequal : (items.filter (weigh · = w)).Pairwise
      fun a b => decide (weigh b ≤ weigh a) = true := by
    refine List.pairwise_of_forall_mem_list ?_
    intro a ha b hb
    simp only [List.mem_filter, decide_eq_true_eq] at ha hb ⊢
    omega
  have hstable : (items.filter (weigh · = w)).Sublist (heaviestFirst weigh items) :=
    List.sublist_mergeSort (by simp only [decide_eq_true_eq]; omega)
      (by simp only [Bool.or_eq_true, decide_eq_true_eq]; omega) hequal List.filter_sublist
  have hkept := hstable.filter (weigh · = w)
  rw [List.filter_filter] at hkept
  simp only [Bool.and_self] at hkept
  exact (hkept.eq_of_length ((heaviestFirst_perm weigh items).filter _).length_eq.symm).symm

/-! ## What a packing promises -/

/-- The largest of some weights. -/
def largest (weights : List Nat) : Nat := weights.foldr max 0

theorem le_largest {weights : List Nat} {w : Nat} (h : w ∈ weights) : w ≤ largest weights :=
  List.le_max_of_le h (Nat.le_refl w)

theorem largest_le {weights : List Nat} {bound : Nat} (h : ∀ w ∈ weights, w ≤ bound) :
    largest weights ≤ bound :=
  List.max_le_of_forall_le weights bound h

/-- Items are packed into `k` level bins: every item is in one bin, bins weigh what they
hold, and items lie from the heaviest to the lightest, those of one weight in their given
order. -/
structure Packs (weigh : α → Nat) (items : List α) (k : Nat) (bins : List (Bin α)) : Prop
    extends Level weigh bins where
  length_eq : bins.length = k
  items_perm : (bins.flatMap (·.items)).Perm items
  weight_eq : ∀ bin ∈ bins, bin.weight = (bin.items.map weigh).sum
  heaviest_first : ∀ bin ∈ bins, bin.items.Pairwise fun a b => weigh b ≤ weigh a
  given_order : ∀ bin ∈ bins, ∀ w, (bin.items.filter (weigh · = w)).Sublist items

namespace Packs

variable {items : List α} {k : Nat} {bins : List (Bin α)}

/-- The bins together weigh what all items weigh. -/
theorem sum_weights (h : Packs weigh items k bins) :
    (bins.map (·.weight)).sum = (items.map weigh).sum := by
  rw [← (h.items_perm.map weigh).sum_eq, sum_map_flatMap, List.map_congr_left h.weight_eq]

/-- No bin weighs more than the average of the bins and the heaviest item. -/
theorem weight_le_average (h : Packs weigh items k bins) {bin : Bin α} (hbin : bin ∈ bins) :
    bin.weight ≤ (items.map weigh).sum / k + largest (items.map weigh) := by
  have hitems : ∀ holder ∈ bins, ∀ item ∈ holder.items,
      weigh item ≤ largest (items.map weigh) := by
    intro holder hholder item hmem
    refine le_largest (List.mem_map_of_mem ?_)
    exact h.items_perm.mem_iff.1 (List.mem_flatMap.2 ⟨holder, hholder, hmem⟩)
  have hothers : ∀ other ∈ bins.map (·.weight),
      bin.weight ≤ other + largest (items.map weigh) := by
    intro other hother
    obtain ⟨otherBin, hotherBin, rfl⟩ := List.mem_map.1 hother
    exact h.toLevel.weight_le hitems hbin hotherBin
  have haverage := le_average_add (List.ne_nil_of_mem (List.mem_map_of_mem hbin)) hothers
  rwa [h.sum_weights, List.length_map, h.length_eq] at haverage

end Packs

/-- While all items fit into a word together, no weight is cut off. -/
theorem exact_of_mem_balance {items : List α} {k : Nat}
    (hfits : (items.map weigh).sum < 2 ^ 64) {bin : Bin α} (hbin : bin ∈ balance weigh items k) :
    bin.weight = (bin.items.map weigh).sum := by
  have hitem : ∀ item ∈ items, weigh item ≤ Weight.ceiling := by
    intro item hmem
    have hle := List.le_sum_of_mem (List.mem_map_of_mem (f := weigh) hmem)
    rw [Weight.ceiling]
    omega
  have hle := ((sublist_heaviestFirst hbin).map weigh).sum_le_sum fun _ _ => Nat.zero_le _
  rw [((heaviestFirst_perm weigh items).map weigh).sum_eq] at hle
  rw [weight_of_mem_balance hitem hbin]
  refine Weight.sum_eq_of_le ?_
  rw [Weight.ceiling]
  omega

end Packing

/-- Items whose weights fit into a word together are packed into as many level bins as asked
for, and no bin weighs more than the average and the heaviest item. -/
theorem balance_packs {α : Type} (weigh : α → Nat) (items : List α) {k : Nat} (hk : 1 ≤ k)
    (hfits : (items.map weigh).sum < 2 ^ 64) :
    Packs weigh items k (balance weigh items k) ∧ ∀ bin ∈ balance weigh items k,
      bin.weight ≤ (items.map weigh).sum / k + largest (items.map weigh) := by
  have hpacks : Packs weigh items k (balance weigh items k) := by
    refine ⟨level_balance weigh items k, length_balance weigh items k,
      balance_perm (Nat.ne_of_gt hk) items, fun bin hbin => exact_of_mem_balance hfits hbin, ?_, ?_⟩
    · intro bin hbin
      exact (pairwise_heaviestFirst weigh items).sublist (sublist_heaviestFirst hbin)
    · intro bin hbin w
      have hsub := (sublist_heaviestFirst hbin).filter (weigh · = w)
      rw [filter_heaviestFirst] at hsub
      exact hsub.trans List.filter_sublist
  exact ⟨hpacks, fun bin hbin => hpacks.weight_le_average hbin⟩

/-- Five items are packed into two bins of the same weight. -/
theorem balance_packs_five :
    1 ≤ 2 ∧ ([("a", 5), ("b", 7), ("c", 3), ("d", 3), ("e", 2)].map Prod.snd).sum < 2 ^ 64 ∧
      Packs Prod.snd [("a", 5), ("b", 7), ("c", 3), ("d", 3), ("e", 2)] 2
        [⟨[("b", 7), ("d", 3)], 10⟩, ⟨[("a", 5), ("c", 3), ("e", 2)], 10⟩] ∧
      10 ≤ 20 / 2 + 7 := by
  have hbins : balance Prod.snd [("a", 5), ("b", 7), ("c", 3), ("d", 3), ("e", 2)] 2 =
      [⟨[("b", 7), ("d", 3)], 10⟩, ⟨[("a", 5), ("c", 3), ("e", 2)], 10⟩] := by cbv
  obtain ⟨hpacks, haverage⟩ := balance_packs Prod.snd
    [("a", 5), ("b", 7), ("c", 3), ("d", 3), ("e", 2)] (k := 2) (by decide) (by decide)
  rw [hbins] at hpacks haverage
  exact ⟨by decide, by decide, hpacks, haverage _ List.mem_cons_self⟩

namespace Packing

variable {α : Type} {weigh : α → Nat}

/-! ## Packing weights -/

/-- A bin with the weights of its items in their place. -/
def weighed (weigh : α → Nat) (bin : Bin α) : Bin Nat := ⟨bin.items.map weigh, bin.weight⟩

/-- Weighing a bin after an item was put in, or before. -/
theorem weighed_push (bin : Bin α) (item : α) :
    weighed weigh (bin.push item (weigh item)) =
      (weighed weigh bin).push (weigh item) (weigh item) := by
  simp [weighed, Bin.push]

/-- Which bin is lightest does not depend on what the bins hold. -/
theorem lightest_map_weighed (bins : List (Bin α)) :
    lightest (bins.map (weighed weigh)) = lightest bins := by
  induction bins with
  | nil => rfl
  | cons bin rest ih =>
    cases rest with
    | nil => rfl
    | cons next rest =>
      rw [List.map_cons] at ih
      rw [List.map_cons, List.map_cons, lightest, lightest, ih, ← List.map_cons, List.getElem?_map]
      cases (next :: rest)[lightest (next :: rest)]? with
      | none => rfl
      | some best => rfl

/-- Placing an item, seen on the weights alone. -/
theorem map_weighed_place (bins : List (Bin α)) (item : α) :
    (place weigh bins item).map (weighed weigh) =
      place id (bins.map (weighed weigh)) (weigh item) := by
  refine List.ext_getElem? ?_
  intro i
  simp only [place, lightest_map_weighed, List.getElem?_map, List.getElem?_modify]
  cases bins[i]? with
  | none => split <;> rfl
  | some bin =>
    split
    · exact congrArg some (weighed_push bin item)
    · rfl

/-- Placing items, seen on the weights alone. -/
theorem map_weighed_foldl_place (bins : List (Bin α)) (items : List α) :
    (items.foldl (place weigh) bins).map (weighed weigh) =
      (items.map weigh).foldl (place id) (bins.map (weighed weigh)) := by
  induction items generalizing bins with
  | nil => rfl
  | cons item items ih =>
    rw [List.foldl_cons, ih, map_weighed_place, List.map_cons, List.foldl_cons]

/-- Sorting the items sorts their weights. -/
theorem map_heaviestFirst (weigh : α → Nat) (items : List α) :
    (heaviestFirst weigh items).map weigh = heaviestFirst id (items.map weigh) :=
  List.map_mergeSort fun _ _ _ _ => rfl

/-- Sorted weights do not tell in which order they were given. -/
theorem heaviestFirst_congr {a b : List Nat} (h : a.Perm b) :
    heaviestFirst id a = heaviestFirst id b := by
  refine List.Perm.eq_of_pairwise ?_ (pairwise_heaviestFirst id a) (pairwise_heaviestFirst id b) ?_
  · intro x y _ _ hyx hxy
    exact Nat.le_antisymm hxy hyx
  · exact (heaviestFirst_perm id a).trans (h.trans (heaviestFirst_perm id b).symm)

end Packing

/-- Packing items is packing their weights. -/
theorem map_weighed_balance {α : Type} (weigh : α → Nat) (items : List α) (k : Nat) :
    (balance weigh items k).map (weighed weigh) = balance id (items.map weigh) k := by
  rw [balance, map_weighed_foldl_place, map_heaviestFirst, List.map_replicate]
  rfl

/-- The balance of weights does not depend on their order. -/
theorem balance_congr {a b : List Nat} (h : a.Perm b) (k : Nat) :
    balance id a k = balance id b k := by
  rw [balance, heaviestFirst_congr h, balance]

/-- Rearranged items are packed to bins of the same weights, and items in the same place of
a bin have the same weight. -/
theorem balance_order_free {α : Type} (weigh : α → Nat) {a b : List α} (h : a.Perm b) (k : Nat) :
    (balance weigh a k).map (·.weight) = (balance weigh b k).map (·.weight) ∧
      (balance weigh a k).map (fun bin => bin.items.map weigh) =
        (balance weigh b k).map (fun bin => bin.items.map weigh) := by
  have hsame : (balance weigh a k).map (weighed weigh) =
      (balance weigh b k).map (weighed weigh) := by
    rw [map_weighed_balance, map_weighed_balance, balance_congr (h.map weigh)]
  have hweights := congrArg (List.map Bin.weight) hsame
  have hitems := congrArg (List.map Bin.items) hsame
  rw [List.map_map, List.map_map] at hweights hitems
  exact ⟨hweights, hitems⟩

/-- Two items of one weight are exchanged between bins, of which one is filled up. -/
theorem balance_order_free_exchanged :
    [("x", Weight.ceiling), ("y", Weight.ceiling), ("z", 1)].Perm
      [("y", Weight.ceiling), ("z", 1), ("x", Weight.ceiling)] ∧
    balance Prod.snd [("x", Weight.ceiling), ("y", Weight.ceiling), ("z", 1)] 2 =
      [⟨[("x", Weight.ceiling), ("z", 1)], Weight.ceiling⟩,
        ⟨[("y", Weight.ceiling)], Weight.ceiling⟩] ∧
    (balance Prod.snd [("y", Weight.ceiling), ("z", 1), ("x", Weight.ceiling)] 2).map (·.weight) =
      [Weight.ceiling, Weight.ceiling] ∧
    (balance Prod.snd [("y", Weight.ceiling), ("z", 1), ("x", Weight.ceiling)] 2).map
      (fun bin => bin.items.map Prod.snd) = [[Weight.ceiling, 1], [Weight.ceiling]] := by
  have hperm : [("x", Weight.ceiling), ("y", Weight.ceiling), ("z", 1)].Perm
      [("y", Weight.ceiling), ("z", 1), ("x", Weight.ceiling)] := by decide
  have hbins : balance Prod.snd [("x", Weight.ceiling), ("y", Weight.ceiling), ("z", 1)] 2 =
      [⟨[("x", Weight.ceiling), ("z", 1)], Weight.ceiling⟩,
        ⟨[("y", Weight.ceiling)], Weight.ceiling⟩] := by cbv
  obtain ⟨hweights, hitems⟩ := balance_order_free Prod.snd hperm 2
  rw [hbins] at hweights hitems
  exact ⟨hperm, hbins, hweights.symm, hitems.symm⟩

end FuzzCampaign

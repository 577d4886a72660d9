import FuzzCampaign.Proofs.Partition.Packing
import Mathlib.Algebra.BigOperators.Ring.List
import Mathlib.Algebra.Group.Action.Defs
import Mathlib.Tactic.Ring

/-!
# Packings are close to the best division

The heaviest bin of a packing is compared with the heaviest part of any other division of
the same items into as many parts.  Say that no part exceeds a limit.

An item of at most a third of the limit goes to a bin that weighs at most the average of
what is placed, and the item itself is missing from that average.  This leaves a third of
the limit at most by which the bin can exceed it.

A heavier item comes to bins that hold only items at least as heavy.  Three of them exceed
the limit.  Let an item of this kind earn two credits if it exceeds the limit together with
the one to be placed, and one credit otherwise.  A part earns two credits at most, since an
item that earns two is alone, and a bin without room for the item earns at least two.  So
there is room in some bin, because the item earns a credit as well.

Main definitions:

- `Packing.credit`: what an item earns.
- `Packing.Underway`: the state in which some items are placed and lighter ones are to come.

Main results:

- `Packing.Underway.exists_room`: a bin has room for an item of more than a third of the
  limit.
- `Packing.Underway.lightest_le`: the next item keeps the bound.
- `balance_near_best`: the heaviest bin exceeds the heaviest part of any division by less
  than a third.
-/

namespace FuzzCampaign

namespace Packing

/-! ## Credits -/

/-- What an item of some weight earns when one of weight `w` is to be placed. -/
def credit (limit w weight : Nat) : Nat :=
  if weight < w then 0 else if limit < weight + w then 2 else 1

section Credits

variable {limit w : Nat}

theorem one_le_credit {weight : Nat} (h : w ≤ weight) : 1 ≤ credit limit w weight := by
  rw [credit, if_neg (Nat.not_lt.2 h)]
  split <;> decide

theorem credit_le_two (weight : Nat) : credit limit w weight ≤ 2 := by
  rw [credit]
  split
  · decide
  · split <;> decide

theorem credit_eq_zero {weight : Nat} (h : weight < w) : credit limit w weight = 0 :=
  if_pos h

theorem credit_mul_le {weight : Nat} (h : weight < w ∨ weight + w ≤ limit) :
    credit limit w weight * w ≤ weight := by
  rw [credit]
  split
  · rw [Nat.zero_mul]
    exact Nat.zero_le _
  · rw [if_neg (by omega), Nat.one_mul]
    omega

/-- A part within the limit earns at most two credits. -/
theorem sum_credit_le_two {weights : List Nat} (hsum : weights.sum ≤ limit)
    (hthird : limit < 3 * w) : (weights.map (credit limit w)).sum ≤ 2 := by
  by_cases hlarge : ∃ weight ∈ weights, limit < weight + w
  · -- nothing of weight `w` fits into the part besides such an item
    obtain ⟨weight, hmem, hlimit⟩ := hlarge
    obtain ⟨before, after, rfl⟩ := List.append_of_mem hmem
    rw [List.sum_append, List.sum_cons] at hsum
    have hnone : ∀ others : List Nat, others.sum < w → (others.map (credit limit w)).sum = 0 := by
      intro others hothers
      rw [List.sum_eq_zero_iff]
      intro earned hearned
      obtain ⟨other, hother, rfl⟩ := List.mem_map.1 hearned
      exact credit_eq_zero (Nat.lt_of_le_of_lt (List.le_sum_of_mem hother) hothers)
    have hone : credit limit w weight ≤ 2 := credit_le_two weight
    rw [List.map_append, List.map_cons, List.sum_append, List.sum_cons, hnone before (by omega),
      hnone after (by omega)]
    omega
  · have hmul : (weights.map (credit limit w)).sum * w ≤ weights.sum := by
      rw [← List.sum_map_mul_right]
      conv_rhs => rw [← List.map_id weights]
      refine List.sum_le_sum ?_
      intro weight hmem
      exact credit_mul_le (Or.inr (Nat.not_lt.1 fun hlimit => hlarge ⟨weight, hmem, hlimit⟩))
    have hlt : (weights.map (credit limit w)).sum * w < 3 * w := by omega
    have hthree := Nat.lt_of_mul_lt_mul_right hlt
    omega

/-- A bin without room for an item earns at least two credits. -/
theorem two_le_sum_credit {weights : List Nat} (hheavy : ∀ weight ∈ weights, w ≤ weight)
    (hfits : w ≤ limit) (hfull : limit < weights.sum + w) :
    2 ≤ (weights.map (credit limit w)).sum := by
  rcases weights with _ | ⟨first, _ | ⟨second, rest⟩⟩
  · rw [List.sum_nil, Nat.zero_add] at hfull
    omega
  · have hfirst := hheavy first List.mem_cons_self
    rw [List.sum_singleton] at hfull
    rw [List.map_singleton, List.sum_singleton, credit, if_neg (Nat.not_lt.2 hfirst),
      if_pos hfull]
  · have hfirst : 1 ≤ credit limit w first := one_le_credit (hheavy first (by simp))
    have hsecond : 1 ≤ credit limit w second := one_le_credit (hheavy second (by simp))
    rw [List.map_cons, List.map_cons, List.sum_cons, List.sum_cons]
    omega

end Credits

/-! ## Packings underway -/

variable {α : Type} {weigh : α → Nat}

/-- Some of the items that are divided into parts are in the bins, and the others are to come
from the heaviest to the lightest. -/
structure Underway (weigh : α → Nat) (parts : List (List α)) (bins : List (Bin α))
    (rest : List α) : Prop where
  length_eq : bins.length = parts.length
  items_perm : parts.flatten.Perm (bins.flatMap (·.items) ++ rest)
  weight_le : ∀ bin ∈ bins, bin.weight ≤ (bin.items.map weigh).sum
  heavier : ∀ placed ∈ bins.flatMap (·.items), ∀ item ∈ rest, weigh item ≤ weigh placed
  sorted : rest.Pairwise fun a b => weigh b ≤ weigh a

namespace Underway

variable {parts : List (List α)} {bins : List (Bin α)} {item : α} {rest : List α}

theorem ne_nil (h : Underway weigh parts bins (item :: rest)) : bins ≠ [] := by
  intro hnil
  have hparts : parts = [] := by
    rw [← List.length_eq_zero_iff, ← h.length_eq, hnil, List.length_nil]
  have hperm := h.items_perm
  rw [hnil, hparts] at hperm
  simpa using hperm.length_eq

/-- Placing the next item keeps a packing underway. -/
theorem place (h : Underway weigh parts bins (item :: rest)) :
    Underway weigh parts (place weigh bins item) rest := by
  have hplaced : ((Packing.place weigh bins item).flatMap (·.items)).Perm
      (item :: bins.flatMap (·.items)) := items_place_perm h.ne_nil item
  have hsorted := List.pairwise_cons.1 h.sorted
  refine ⟨?_, ?_, ?_, ?_, hsorted.2⟩
  · rw [length_place, h.length_eq]
  · exact h.items_perm.trans (List.perm_middle.trans (hplaced.symm.append_right rest))
  · intro bin hbin
    rcases mem_place hbin with hold | ⟨old, hold, -, rfl⟩
    · exact h.weight_le bin hold
    · have hle := h.weight_le old hold
      have hpushed := weight_push_le old item (weigh item)
      rw [Bin.items_push, List.map_append, List.sum_append, List.map_singleton,
        List.sum_singleton]
      omega
  · intro placed hmem next hnext
    rcases List.mem_cons.1 (hplaced.mem_iff.1 hmem) with rfl | hmem
    · exact hsorted.1 next hnext
    · exact h.heavier placed hmem next (List.mem_cons_of_mem _ hnext)

/-- Whatever items are worth, the parts together are worth as much as the bins and what is
to come. -/
theorem sum_parts (h : Underway weigh parts bins (item :: rest)) (worth : α → Nat) :
    (parts.map fun part => (part.map worth).sum).sum =
      (bins.map fun bin => (bin.items.map worth).sum).sum +
        (worth item + (rest.map worth).sum) := by
  have hsum := (h.items_perm.map worth).sum_eq
  rwa [← List.flatMap_id, sum_map_flatMap, List.map_append, List.sum_append, sum_map_flatMap,
    List.map_cons, List.sum_cons] at hsum

variable {limit : Nat}

/-- An item that is to come is in some part, so that it is within the limit. -/
theorem weight_next_le (h : Underway weigh parts bins (item :: rest))
    (hparts : ∀ part ∈ parts, (part.map weigh).sum ≤ limit) : weigh item ≤ limit := by
  have hmem : item ∈ parts.flatten := h.items_perm.mem_iff.2 (by simp)
  obtain ⟨part, hpart, hmem⟩ := List.mem_flatten.1 hmem
  exact Nat.le_trans (List.le_sum_of_mem (List.mem_map_of_mem hmem)) (hparts part hpart)

/-- A bin without room for the next item earns at least two credits. -/
theorem two_le_credits (h : Underway weigh parts bins (item :: rest))
    (hfits : weigh item ≤ limit) {bin : Bin α} (hbin : bin ∈ bins)
    (hfull : limit < bin.weight + weigh item) :
    2 ≤ (bin.items.map fun a => credit limit (weigh item) (weigh a)).sum := by
  have hheavy : ∀ weight ∈ bin.items.map weigh, weigh item ≤ weight := by
    intro weight hweight
    obtain ⟨placed, hplaced, rfl⟩ := List.mem_map.1 hweight
    exact h.heavier placed (List.mem_flatMap.2 ⟨bin, hbin, hplaced⟩) item List.mem_cons_self
  have hle := h.weight_le bin hbin
  have hcredits := two_le_sum_credit hheavy hfits (by omega)
  rwa [List.map_map] at hcredits

/-- An item of more than a third of the limit finds room in some bin. -/
theorem exists_room (h : Underway weigh parts bins (item :: rest))
    (hparts : ∀ part ∈ parts, (part.map weigh).sum ≤ limit) (hthird : limit < 3 * weigh item) :
    ∃ bin ∈ bins, bin.weight + weigh item ≤ limit := by
  by_contra hnone
  have hpart : ∀ earned ∈ parts.map fun part =>
      (part.map fun a => credit limit (weigh item) (weigh a)).sum, earned ≤ 2 := by
    intro earned hearned
    obtain ⟨part, hpart, rfl⟩ := List.mem_map.1 hearned
    have hle := sum_credit_le_two (hparts part hpart) hthird
    rwa [List.map_map] at hle
  have hbin : ∀ earned ∈ bins.map fun bin =>
      (bin.items.map fun a => credit limit (weigh item) (weigh a)).sum, 2 ≤ earned := by
    intro earned hearned
    obtain ⟨bin, hbin, rfl⟩ := List.mem_map.1 hearned
    exact h.two_le_credits (h.weight_next_le hparts) hbin
      (Nat.lt_of_not_le fun hroom => hnone ⟨bin, hbin, hroom⟩)
  -- there are as many bins as parts, and the item earns a credit besides those of the bins
  have hall := List.sum_le_card_nsmul _ _ hpart
  have hheld := List.card_nsmul_le_sum _ _ hbin
  have hown : 1 ≤ credit limit (weigh item) (weigh item) := one_le_credit (Nat.le_refl _)
  rw [h.sum_parts, List.length_map, smul_eq_mul] at hall
  rw [List.length_map, h.length_eq, smul_eq_mul] at hheld
  omega

/-- The lightest bin weighs at most the average of the limit without the next item. -/
theorem mul_lightest_add_le (h : Underway weigh parts bins (item :: rest))
    (hparts : ∀ part ∈ parts, (part.map weigh).sum ≤ limit) {bin : Bin α}
    (hlightest : ∀ other ∈ bins, bin.weight ≤ other.weight) :
    parts.length * bin.weight + weigh item ≤ parts.length * limit := by
  have hall : (parts.map fun part => (part.map weigh).sum).sum ≤ parts.length * limit := by
    have hle := List.sum_le_card_nsmul (parts.map fun part => (part.map weigh).sum) limit
      (by simpa using hparts)
    rwa [List.length_map, smul_eq_mul] at hle
  have hheld : parts.length * bin.weight ≤ (bins.map fun bin => (bin.items.map weigh).sum).sum := by
    have hle := List.card_nsmul_le_sum (bins.map fun bin => (bin.items.map weigh).sum) bin.weight ?_
    · rwa [List.length_map, h.length_eq, smul_eq_mul] at hle
    · intro load hload
      obtain ⟨other, hother, rfl⟩ := List.mem_map.1 hload
      exact Nat.le_trans (hlightest other hother) (h.weight_le other hother)
  rw [h.sum_parts weigh] at hall
  omega

/-- The bin that receives the next item exceeds the limit by a third at most. -/
theorem lightest_le (h : Underway weigh parts bins (item :: rest))
    (hparts : ∀ part ∈ parts, (part.map weigh).sum ≤ limit) {bin : Bin α}
    (hlightest : ∀ other ∈ bins, bin.weight ≤ other.weight) :
    3 * parts.length * (bin.weight + weigh item) ≤ (4 * parts.length - 1) * limit := by
  obtain ⟨others, hothers⟩ : ∃ others, parts.length = others + 1 := by
    refine Nat.exists_eq_succ_of_ne_zero ?_
    rw [← h.length_eq]
    exact mt List.eq_nil_of_length_eq_zero h.ne_nil
  have hfour : 4 * (others + 1) - 1 = 3 * (others + 1) + others := by omega
  rw [hothers, hfour]
  by_cases hthird : 3 * weigh item ≤ limit
  · have haverage := h.mul_lightest_add_le hparts hlightest
    rw [hothers] at haverage
    calc 3 * (others + 1) * (bin.weight + weigh item)
        = 3 * ((others + 1) * bin.weight + weigh item) + others * (3 * weigh item) := by ring
      _ ≤ 3 * ((others + 1) * limit) + others * limit :=
          Nat.add_le_add (Nat.mul_le_mul_left 3 haverage) (Nat.mul_le_mul_left others hthird)
      _ = (3 * (others + 1) + others) * limit := by ring
  · obtain ⟨roomy, hroomy, hroom⟩ := h.exists_room hparts (Nat.lt_of_not_le hthird)
    have hleast := hlightest roomy hroomy
    calc 3 * (others + 1) * (bin.weight + weigh item)
        ≤ 3 * (others + 1) * limit := Nat.mul_le_mul_left _ (by omega)
      _ ≤ (3 * (others + 1) + others) * limit :=
          Nat.mul_le_mul_right limit (Nat.le_add_right _ _)

/-- The bound holds to the end of a packing. -/
theorem foldl_place_le {items : List α} (h : Underway weigh parts bins items)
    (hparts : ∀ part ∈ parts, (part.map weigh).sum ≤ limit)
    (hbins : ∀ bin ∈ bins, 3 * parts.length * bin.weight ≤ (4 * parts.length - 1) * limit) :
    ∀ bin ∈ items.foldl (Packing.place weigh) bins,
      3 * parts.length * bin.weight ≤ (4 * parts.length - 1) * limit := by
  induction items generalizing bins with
  | nil => exact hbins
  | cons item items ih =>
    refine ih h.place ?_
    intro bin hbin
    rcases mem_place hbin with hold | ⟨old, hold, hlightest, rfl⟩
    · exact hbins bin hold
    · have hpushed := weight_push_le old item (weigh item)
      exact Nat.le_trans (Nat.mul_le_mul_left _ hpushed) (h.lightest_le hparts hlightest)

end Underway

/-- No item is placed yet. -/
theorem underway_start (weigh : α → Nat) {items : List α} {parts : List (List α)}
    (hperm : parts.flatten.Perm items) :
    Underway weigh parts (List.replicate parts.length {}) (heaviestFirst weigh items) := by
  refine ⟨List.length_replicate, ?_, ?_, ?_, pairwise_heaviestFirst weigh items⟩
  · rw [flatMap_items_replicate]
    exact hperm.trans (heaviestFirst_perm weigh items).symm
  · intro bin hbin
    rw [List.eq_of_mem_replicate hbin]
    exact Nat.zero_le _
  · simp

end Packing

open Packing

/-- The heaviest bin of a packing weighs at most `4 / 3 - 1 / (3 * k)` times the heaviest part
of any division of the items into `k` parts. -/
theorem balance_near_best {α : Type} (weigh : α → Nat) {items : List α} {parts : List (List α)}
    {k : Nat} (hlength : parts.length = k) (hperm : parts.flatten.Perm items) :
    3 * k * largest ((balance weigh items k).map (·.weight)) ≤
      (4 * k - 1) * largest (parts.map fun part => (part.map weigh).sum) := by
  subst hlength
  have hparts : ∀ part ∈ parts, (part.map weigh).sum ≤
      largest (parts.map fun part => (part.map weigh).sum) :=
    fun part hpart => le_largest (List.mem_map.2 ⟨part, hpart, rfl⟩)
  have hbound := (underway_start weigh hperm).foldl_place_le hparts (by
    intro bin hbin
    rw [List.eq_of_mem_replicate hbin, Nat.mul_zero]
    exact Nat.zero_le _)
  rcases Nat.eq_zero_or_pos parts.length with hzero | hpos
  · rw [hzero, Nat.mul_zero, Nat.zero_mul]
    exact Nat.zero_le _
  · rw [Nat.mul_comm, ← Nat.le_div_iff_mul_le (by omega)]
    refine largest_le ?_
    intro weight hweight
    obtain ⟨bin, hbin, rfl⟩ := List.mem_map.1 hweight
    rw [Nat.le_div_iff_mul_le (by omega), Nat.mul_comm]
    exact hbound bin hbin

/-- Five items meet the bound in two bins. -/
theorem balance_near_best_five :
    [[3, 3], [2, 2, 2]].length = 2 ∧ [[3, 3], [2, 2, 2]].flatten.Perm [2, 3, 2, 3, 2] ∧
      balance id [2, 3, 2, 3, 2] 2 = [⟨[3, 2, 2], 7⟩, ⟨[3, 2], 5⟩] ∧
      3 * 2 * largest [7, 5] ≤ (4 * 2 - 1) * largest [6, 6] ∧
      3 * 2 * largest [7, 5] = (4 * 2 - 1) * largest [6, 6] := by
  have hperm : [[3, 3], [2, 2, 2]].flatten.Perm [2, 3, 2, 3, 2] := by decide
  have hbins : balance id [2, 3, 2, 3, 2] 2 = [⟨[3, 2, 2], 7⟩, ⟨[3, 2], 5⟩] := by cbv
  have hbound := balance_near_best id (k := 2) rfl hperm
  rw [hbins] at hbound
  exact ⟨rfl, hperm, hbins, hbound, by decide⟩

end FuzzCampaign

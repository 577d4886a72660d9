import FuzzCampaign.Partition.Balance
import Mathlib.Algebra.BigOperators.Group.List.Basic
import Mathlib.Algebra.GroupWithZero.Nat

/-!
# Loads and packings

A saturated sum depends only on what is summed: it does not matter in which
order or in which groups.  A packing only distributes its items, and every bin
weighs as much as its items together.

Main results:

- `Weight.sum_append` and `Weight.sum_perm`: saturated sums of groups and of
  rearrangements.
- `Packing.mem_place`: which bin an item goes to.
- `balance_perm`: the bins together hold every item once.
- `weight_of_mem_balance`: what a bin weighs.
-/

namespace FuzzCampaign

namespace Weight

/-- Saturating one after the other is saturating once. -/
theorem sum_eq_min (weights : List Nat) : sum weights = min weights.sum ceiling := by
  rw [sum_eq, List.sum_eq_foldr]

/-- No sum passes the ceiling. -/
theorem sum_le_ceiling (weights : List Nat) : sum weights ≤ ceiling := by
  rw [sum_eq_min]
  exact Nat.min_le_right _ _

/-- A sum that fits is exact. -/
theorem sum_eq_of_le {weights : List Nat} (h : weights.sum ≤ ceiling) :
    sum weights = weights.sum := by
  rw [sum_eq_min]
  exact Nat.min_eq_left h

/-- A single weight is its own sum. -/
theorem sum_singleton {w : Nat} (h : w ≤ ceiling) : sum [w] = w := by
  rw [sum_eq_of_le (by simpa using h)]
  simp

/-- Adding does not lose weight. -/
theorem le_add_right {a : Nat} (h : a ≤ ceiling) (b : Nat) : a ≤ add a b :=
  Nat.le_min.2 ⟨Nat.le_add_right a b, h⟩

theorem le_add_left {b : Nat} (h : b ≤ ceiling) (a : Nat) : b ≤ add a b :=
  Nat.le_min.2 ⟨Nat.le_add_left b a, h⟩

theorem add_le_add_left {b c : Nat} (h : b ≤ c) (a : Nat) : add a b ≤ add a c := by
  simp only [add]
  omega

/-- Groups can be summed one by one. -/
theorem sum_append (a b : List Nat) : sum (a ++ b) = add (sum a) (sum b) := by
  simp only [sum_eq_min, add, List.sum_append]
  omega

/-- A sum does not depend on the order. -/
theorem sum_perm {a b : List Nat} (h : a.Perm b) : sum a = sum b := by
  rw [sum_eq_min, sum_eq_min, h.sum_eq]

end Weight

/-- What groups are worth together is what their members are worth. -/
theorem sum_map_flatMap {α β : Type} (members : α → List β) (worth : β → Nat) (groups : List α) :
    ((groups.flatMap members).map worth).sum =
      (groups.map fun group => ((members group).map worth).sum).sum := by
  rw [List.map_flatMap, List.flatMap, List.sum_flatten, List.map_map]
  rfl

namespace Packing

variable {α : Type} {weigh : α → Nat}

/-- The lightest bin is one of the bins. -/
theorem lightest_lt {bins : List (Bin α)} (h : bins ≠ []) : lightest bins < bins.length := by
  fun_induction lightest bins with
  | case1 => exact absurd rfl h
  | case2 => simp
  | case3 bin next rest index best hbest hless ih =>
    have hlt := ih (by simp)
    simp only [List.length_cons] at hlt ⊢
    omega
  | case4 => simp
  | case5 => simp

/-- No bin is lighter than the lightest one. -/
theorem weight_lightest_le (bins : List (Bin α)) : ∀ best, bins[lightest bins]? = some best →
    ∀ bin ∈ bins, best.weight ≤ bin.weight := by
  fun_induction lightest bins with
  | case1 => simp
  | case2 => simp
  | case3 bin next rest index found hfound hless ih =>
    intro best hbest other hother
    rw [List.getElem?_cons_succ, hfound, Option.some.injEq] at hbest
    subst hbest
    rcases List.mem_cons.1 hother with rfl | hother
    · exact Nat.le_of_lt hless
    · exact ih found hfound other hother
  | case4 bin next rest index found hfound hless ih =>
    intro best hbest other hother
    rw [List.getElem?_cons_zero, Option.some.injEq] at hbest
    subst hbest
    rcases List.mem_cons.1 hother with rfl | hother
    · exact Nat.le_refl _
    · exact Nat.le_trans (Nat.le_of_not_lt hless) (ih found hfound other hother)
  | case5 bin next rest index hnone ih =>
    have hlt : index < (next :: rest).length := lightest_lt (by simp)
    rw [List.getElem?_eq_none_iff] at hnone
    omega

/-- Placing an item only changes a bin that no bin is lighter than, by pushing the item
into it. -/
theorem mem_place {bins : List (Bin α)} {item : α} {bin : Bin α}
    (h : bin ∈ place weigh bins item) :
    bin ∈ bins ∨ ∃ old ∈ bins, (∀ other ∈ bins, old.weight ≤ other.weight) ∧
      bin = old.push item (weigh item) := by
  rw [place, List.mem_iff_getElem?] at h
  obtain ⟨i, hi⟩ := h
  rw [List.getElem?_modify] at hi
  split at hi
  · rename_i hlightest
    rw [Option.map_eq_map, Option.map_eq_some_iff] at hi
    obtain ⟨old, hold, rfl⟩ := hi
    exact Or.inr ⟨old, List.mem_of_getElem? hold,
      weight_lightest_le bins old (hlightest ▸ hold), rfl⟩
  · rw [Option.map_eq_map, Option.map_id_fun', id] at hi
    exact Or.inl (List.mem_of_getElem? hi)

/-- Placing an item opens no bin and closes none. -/
theorem place_ne_nil {bins : List (Bin α)} (h : bins ≠ []) (item : α) :
    place weigh bins item ≠ [] := by
  rw [← List.length_pos_iff] at h ⊢
  rwa [length_place]

/-- A bin does not grow by more than what it receives. -/
theorem weight_push_le (bin : Bin α) (item : α) (weight : Nat) :
    (bin.push item weight).weight ≤ bin.weight + weight :=
  Nat.min_le_left _ _

/-- Every bin weighs as much as its items together. -/
def Weighed (weigh : α → Nat) (bins : List (Bin α)) : Prop :=
  ∀ bin ∈ bins, bin.weight = Weight.sum (bin.items.map weigh)

/-- Bins stay weighed when an item is placed. -/
theorem Weighed.place {bins : List (Bin α)} (h : Weighed weigh bins) (item : α)
    (hitem : weigh item ≤ Weight.ceiling) : Weighed weigh (place weigh bins item) := by
  intro bin hbin
  rcases mem_place hbin with hold | ⟨old, hold, -, rfl⟩
  · exact h bin hold
  · rw [Bin.weight_push, Bin.items_push, List.map_append, Weight.sum_append, h old hold,
      List.map_singleton, Weight.sum_singleton hitem]

/-- Placing an item puts it into one bin and leaves the others alone. -/
theorem place_eq (weigh : α → Nat) {bins : List (Bin α)} (h : bins ≠ []) (item : α) :
    ∃ before bin after, bins = before ++ bin :: after ∧
      place weigh bins item = before ++ bin.push item (weigh item) :: after := by
  obtain ⟨before, bin, after, hbins, -, hplace⟩ :=
    List.exists_of_modify (fun bin => bin.push item (weigh item)) (lightest_lt h)
  exact ⟨before, bin, after, hbins, hplace⟩

/-- An item that is placed is in the bins, together with what was there. -/
theorem items_place_perm {bins : List (Bin α)} (h : bins ≠ []) (item : α) :
    ((place weigh bins item).flatMap (·.items)).Perm (item :: bins.flatMap (·.items)) := by
  obtain ⟨before, bin, after, hbins, hplace⟩ := place_eq weigh h item
  rw [hplace, hbins, List.flatMap_append, List.flatMap_cons, Bin.items_push, List.flatMap_append,
    List.flatMap_cons, List.append_assoc, List.singleton_append, ← List.append_assoc,
    ← List.append_assoc]
  exact List.perm_middle

/-- Items that are placed are in the bins, together with what was there. -/
theorem items_foldl_place_perm (weigh : α → Nat) {bins : List (Bin α)} (h : bins ≠ [])
    (items : List α) : ((items.foldl (place weigh) bins).flatMap (·.items)).Perm
      (items ++ bins.flatMap (·.items)) := by
  induction items generalizing bins with
  | nil => exact List.Perm.refl _
  | cons item items ih =>
    rw [List.foldl_cons, List.cons_append]
    refine (ih (place_ne_nil h item)).trans ?_
    exact ((items_place_perm h item).append_left items).trans List.perm_middle

/-- Bins stay weighed when items are placed. -/
theorem Weighed.foldl_place {bins : List (Bin α)} (h : Weighed weigh bins) {items : List α}
    (hitems : ∀ item ∈ items, weigh item ≤ Weight.ceiling) :
    Weighed weigh (items.foldl (Packing.place weigh) bins) := by
  induction items generalizing bins with
  | nil => exact h
  | cons item items ih =>
    exact ih (h.place item (hitems item List.mem_cons_self)) fun other hother =>
      hitems other (List.mem_cons_of_mem _ hother)

/-- Empty bins hold nothing. -/
theorem flatMap_items_replicate (k : Nat) :
    (List.replicate k ({} : Bin α)).flatMap (·.items) = [] := by
  simp

end Packing

open Packing

variable {α : Type} {weigh : α → Nat}

/-- The bins of a packing together hold every item once. -/
theorem balance_perm {k : Nat} (hk : k ≠ 0) (items : List α) :
    ((balance weigh items k).flatMap (·.items)).Perm items := by
  have hne : List.replicate k ({} : Bin α) ≠ [] := by simpa using hk
  have hperm := items_foldl_place_perm weigh hne (heaviestFirst weigh items)
  rw [flatMap_items_replicate, List.append_nil] at hperm
  exact hperm.trans (heaviestFirst_perm weigh items)

/-- Every bin of a packing weighs as much as its items together. -/
theorem weight_of_mem_balance {items : List α} {k : Nat}
    (hitems : ∀ item ∈ items, weigh item ≤ Weight.ceiling) {bin : Bin α}
    (hbin : bin ∈ balance weigh items k) : bin.weight = Weight.sum (bin.items.map weigh) := by
  have hempty : Weighed weigh (List.replicate k ({} : Bin α)) := by
    intro bin hbin
    rw [List.eq_of_mem_replicate hbin]
    rfl
  refine hempty.foldl_place ?_ bin hbin
  intro item hitem
  exact hitems item ((heaviestFirst_perm weigh items).mem_iff.1 hitem)

end FuzzCampaign

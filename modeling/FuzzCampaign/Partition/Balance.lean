import FuzzCampaign.Weight

/-!
# Longest-processing-time bin packing

Items are taken heaviest first and each goes to the bin that is lightest at
that moment.  Equal weights keep their input order, and of several lightest
bins the one with the lowest index receives the item.

Main results:

- `length_balance`: there are exactly as many bins as asked for.
- `Bin.weight_push`: a bin's weight grows by the weight of the item it receives.
-/

namespace FuzzCampaign

/-- One bin of a packing: the items it received, in order of arrival, and
their summed weight. -/
structure Bin (α : Type) where
  items : List α := []
  weight : Nat := 0
  deriving Repr, DecidableEq

namespace Bin
variable {α : Type}

/-- Drop an item of the given weight into a bin. -/
def push (bin : Bin α) (item : α) (weight : Nat) : Bin α where
  items := bin.items ++ [item]
  weight := Weight.add bin.weight weight

@[simp] theorem items_push (bin : Bin α) (item : α) (weight : Nat) :
    (bin.push item weight).items = bin.items ++ [item] := rfl

@[simp] theorem weight_push (bin : Bin α) (item : α) (weight : Nat) :
    (bin.push item weight).weight = Weight.add bin.weight weight := rfl

end Bin

namespace Packing
variable {α : Type}

/-- The index of the first bin of least weight; zero when there is no bin. -/
def lightest : List (Bin α) → Nat
  | [] => 0
  | [_] => 0
  | bin :: next :: rest =>
    let index := lightest (next :: rest)
    match (next :: rest)[index]? with
    | some best => if best.weight < bin.weight then index + 1 else 0
    | none => 0

/-- Put one item into the lightest bin. -/
def place (weigh : α → Nat) (bins : List (Bin α)) (item : α) : List (Bin α) :=
  bins.modify (lightest bins) fun bin => bin.push item (weigh item)

@[simp] theorem length_place (weigh : α → Nat) (bins : List (Bin α)) (item : α) :
    (place weigh bins item).length = bins.length := by
  simp [place]

/-- The items from the heaviest to the lightest, equal weights in their given
order. -/
def heaviestFirst (weigh : α → Nat) (items : List α) : List α :=
  items.mergeSort fun a b => decide (weigh b ≤ weigh a)

/-- The order of placement is a rearrangement of the items. -/
theorem heaviestFirst_perm (weigh : α → Nat) (items : List α) :
    (heaviestFirst weigh items).Perm items :=
  List.mergeSort_perm _ _

end Packing

open Packing

/-- Pack weighted items into exactly `k` bins.  Bins may stay empty, and no
bins hold nothing. -/
def balance {α : Type} (weigh : α → Nat) (items : List α) (k : Nat) : List (Bin α) :=
  (heaviestFirst weigh items).foldl (place weigh) (List.replicate k {})

theorem length_foldl_place {α : Type} (weigh : α → Nat) (items : List α)
    (bins : List (Bin α)) : (items.foldl (place weigh) bins).length = bins.length := by
  induction items generalizing bins with
  | nil => rfl
  | cons item items ih => simp [ih]

/-- A packing has exactly the number of bins asked for. -/
@[simp] theorem length_balance {α : Type} (weigh : α → Nat) (items : List α) (k : Nat) :
    (balance weigh items k).length = k := by
  simp [balance, length_foldl_place]

end FuzzCampaign

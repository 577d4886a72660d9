import FuzzCampaign.CallGraph.ShortestPath
import Mathlib.Data.List.Basic
import Mathlib.Data.Nat.Init

/-!
# The frontier is a heap

As a bag the frontier is simple: pushing adds a sighting and taking removes one.

In a heap no entry is nearer than its parent, so that the first entry is nearest of all.
A push and a removal each leave a single entry out of place.  While the last entry sinks to
the bottom it may be out of order with its parent and with its children; when it rises, with
its parent only.  In both cases the parent of the misplaced entry is in order with its
children, which therefore may take its place.

Main definitions:

- `Frontier.Ordered`: no entry is nearer than its parent.
- `Frontier.OrderedAround` and `Frontier.OrderedBelow`: the same but for one misplaced entry.

Main results:

- `Frontier.push_perm` and `Frontier.pop?_perm`: the frontier as a bag.
- `Frontier.OrderedBelow.rise` and `Frontier.OrderedAround.sink`: what the two movements
  restore.
- `Frontier.Ordered.push` and `Frontier.Ordered.rest`: the frontier stays ordered.
- `Frontier.Ordered.distance_le`: what is taken is nearest.
-/

namespace FuzzCampaign.Frontier

variable {entries : Array Sighting} {pos : Nat}

/-! ## Distances by position -/

/-- The distance of the entry at a position. -/
def distanceAt (entries : Array Sighting) (i : Nat) : Nat :=
  (entries[i]?.map (·.distance)).getD 0

theorem distanceAt_eq {i : Nat} (h : i < entries.size) :
    distanceAt entries i = entries[i].distance := by
  simp [distanceAt, h]

theorem distanceAt_swap {a b : Nat} (ha : a < entries.size) (hb : b < entries.size) (i : Nat) :
    distanceAt (entries.swap a b ha hb) i =
      if i = a then distanceAt entries b
      else if i = b then distanceAt entries a
      else distanceAt entries i := by
  simp only [distanceAt, Array.getElem?_swap, Array.getElem?_eq_getElem ha,
    Array.getElem?_eq_getElem hb]
  rcases eq_or_ne i b with rfl | hib
  · rcases eq_or_ne i a with rfl | hia
    · simp
    · simp [hia]
  · rcases eq_or_ne i a with rfl | hia
    · simp [Ne.symm hib]
    · simp [hia, hib, Ne.symm hia, Ne.symm hib]

theorem distanceAt_push (s : Sighting) {i : Nat} (h : i < entries.size) :
    distanceAt (entries.push s) i = distanceAt entries i := by
  rw [distanceAt, distanceAt, Array.getElem?_push_lt h, Array.getElem?_eq_getElem h]

theorem distanceAt_pop {i : Nat} (h : i < entries.pop.size) :
    distanceAt entries.pop i = distanceAt entries i := by
  rw [Array.size_pop] at h
  rw [distanceAt, distanceAt, Array.getElem?_pop, if_pos h]

theorem distanceAt_setIfInBounds (s : Sighting) {i : Nat} (h : i ≠ pos) :
    distanceAt (entries.setIfInBounds pos s) i = distanceAt entries i := by
  rw [distanceAt, distanceAt, Array.getElem?_setIfInBounds_ne h.symm]

/-! ## Order -/

/-- No entry is nearer than its parent. -/
def Ordered (entries : Array Sighting) : Prop :=
  ∀ i, 0 < i → i < entries.size → distanceAt entries ((i - 1) / 2) ≤ distanceAt entries i

/-- Only the entry at a position may be out of order, with its parent and its children. -/
structure OrderedAround (entries : Array Sighting) (pos : Nat) : Prop where
  ordered : ∀ i, 0 < i → i < entries.size → i ≠ pos → (i - 1) / 2 ≠ pos →
    distanceAt entries ((i - 1) / 2) ≤ distanceAt entries i
  across : ∀ i, 0 < i → i < entries.size → (i - 1) / 2 = pos → 0 < pos →
    distanceAt entries ((pos - 1) / 2) ≤ distanceAt entries i

/-- Only the entry at a position may be out of order, and with its parent only. -/
structure OrderedBelow (entries : Array Sighting) (pos : Nat) : Prop
    extends OrderedAround entries pos where
  below : ∀ i, 0 < i → i < entries.size → (i - 1) / 2 = pos →
    distanceAt entries pos ≤ distanceAt entries i

/-- The first entry of an ordered heap is nearest. -/
theorem Ordered.distanceAt_zero_le (h : Ordered entries) {i : Nat} (hi : i < entries.size) :
    distanceAt entries 0 ≤ distanceAt entries i := by
  induction i using Nat.strong_induction_on with
  | h i ih =>
    rcases Nat.eq_zero_or_pos i with rfl | hpos
    · exact Nat.le_refl _
    · exact Nat.le_trans (ih ((i - 1) / 2) (by omega) (by omega)) (h i hpos hi)

/-- An entry that is in order with its parent and its children is in order. -/
theorem OrderedBelow.ordered_of_parent_le (h : OrderedBelow entries pos)
    (hparent : 0 < pos → pos < entries.size →
      distanceAt entries ((pos - 1) / 2) ≤ distanceAt entries pos) : Ordered entries := by
  intro i hpos hi
  by_cases heq : i = pos
  · subst heq
    exact hparent hpos hi
  · by_cases hchild : (i - 1) / 2 = pos
    · rw [hchild]
      exact h.below i hpos hi hchild
    · exact h.ordered i hpos hi heq hchild

/-! ## Rising -/

/-- After an entry has changed places with its farther parent, it is in order with all its
children and may be out of order with its new parent only. -/
theorem OrderedBelow.swap_parent (h : OrderedBelow entries pos) (hpos : 0 < pos)
    (hsize : pos < entries.size) (hparent : (pos - 1) / 2 < entries.size)
    (hnear : distanceAt entries pos < distanceAt entries ((pos - 1) / 2)) :
    OrderedBelow (entries.swap ((pos - 1) / 2) pos hparent hsize) ((pos - 1) / 2) := by
  refine ⟨⟨?_, ?_⟩, ?_⟩
  · intro i hi hlt hne hchild
    rw [Array.size_swap] at hlt
    simp only [distanceAt_swap, if_neg hne, if_neg hchild]
    have hpos' : i ≠ pos := by
      rintro rfl
      exact hchild rfl
    rw [if_neg hpos']
    split
    · rename_i hbelow
      exact h.across i hi hlt hbelow hpos
    · rename_i hbelow
      exact h.ordered i hi hlt hpos' hbelow
  -- the children of the parent are the entry that went down and its sibling
  · intro i hi hlt hsibling hgrand
    rw [Array.size_swap] at hlt
    have hup := h.ordered ((pos - 1) / 2) hgrand hparent (by omega) (by omega)
    simp only [distanceAt_swap, if_neg (show ((pos - 1) / 2 - 1) / 2 ≠ (pos - 1) / 2 by omega),
      if_neg (show ((pos - 1) / 2 - 1) / 2 ≠ pos by omega),
      if_neg (show i ≠ (pos - 1) / 2 by omega)]
    split
    · exact hup
    · rename_i hother
      have hside := h.ordered i hi hlt hother (by omega)
      rw [hsibling] at hside
      exact Nat.le_trans hup hside
  · intro i hi hlt hsibling
    rw [Array.size_swap] at hlt
    simp only [distanceAt_swap, if_true, if_neg (show i ≠ (pos - 1) / 2 by omega)]
    split
    · exact Nat.le_of_lt hnear
    · rename_i hother
      have hside := h.ordered i hi hlt hother (by omega)
      rw [hsibling] at hside
      exact Nat.le_trans (Nat.le_of_lt hnear) hside

/-- Rising restores the order. -/
theorem OrderedBelow.rise (h : OrderedBelow entries pos) :
    Ordered (Frontier.rise entries pos) := by
  fun_induction Frontier.rise entries pos with
  | case1 entries pos hin parent hlt hparent hnear ih =>
    refine ih (h.swap_parent hin.1 hin.2 hparent ?_)
    rwa [distanceAt_eq hin.2, distanceAt_eq hparent]
  | case2 entries pos hin parent hlt hparent hnear =>
    refine h.ordered_of_parent_le ?_
    intro _ _
    rw [distanceAt_eq hin.2, distanceAt_eq hparent]
    exact Nat.le_of_not_lt hnear
  | case3 entries pos hout => exact h.ordered_of_parent_le fun hpos hlt => absurd ⟨hpos, hlt⟩ hout

/-! ## Sinking -/

/-- After an entry has changed places with its nearest child, the child is in order. -/
theorem OrderedAround.swap_child (h : OrderedAround entries pos) {child : Nat}
    (hchild : (child - 1) / 2 = pos) (hlt : pos < child) (hsize : child < entries.size)
    (hnear : ∀ i, 0 < i → i < entries.size → (i - 1) / 2 = pos →
      distanceAt entries child ≤ distanceAt entries i) :
    OrderedAround (entries.swap pos child (Nat.lt_trans hlt hsize) hsize) child := by
  refine ⟨?_, ?_⟩
  · intro i hi hin hne hbelow
    rw [Array.size_swap] at hin
    simp only [distanceAt_swap, if_neg hne, if_neg hbelow]
    by_cases hpos : i = pos
    · subst hpos
      rw [if_neg (show (i - 1) / 2 ≠ i by omega), if_pos rfl]
      exact h.across child (by omega) hsize hchild hi
    · rw [if_neg hpos]
      split
      · rename_i hsibling
        exact hnear i hi hin hsibling
      · rename_i hother
        exact h.ordered i hi hin hpos hother
  · intro i hi hin hbelow _
    rw [Array.size_swap] at hin
    have hdown := h.ordered i hi hin (by omega) (by omega)
    rw [hbelow] at hdown
    simpa only [distanceAt_swap, hchild, if_true, if_neg (show i ≠ pos by omega),
      if_neg (show i ≠ child by omega)] using hdown

/-- An entry without children can only be out of order with its parent. -/
theorem OrderedAround.orderedBelow (h : OrderedAround entries pos)
    (hbottom : entries.size ≤ 2 * pos + 1) : OrderedBelow entries pos :=
  ⟨h, fun i hi hlt hchild => by omega⟩

/-- An entry that has sunk is out of order with its parent at most. -/
theorem OrderedAround.sink (h : OrderedAround entries pos) :
    OrderedBelow (Frontier.sink entries pos).1 (Frontier.sink entries pos).2 := by
  fun_induction Frontier.sink entries pos with
  | case1 entries pos left hin child hc ih =>
    refine ih (h.swap_child ?_ hc.1 hc.2 ?_)
    · simp only [child, left]
      split <;> omega
    · have hleft : left < entries.size := by omega
      have hboth : distanceAt entries child ≤ distanceAt entries left ∧
          distanceAt entries child ≤ distanceAt entries (left + 1) := by
        simp only [child, ← distanceAt_eq hin, ← distanceAt_eq hleft]
        split
        · rename_i hright
          exact ⟨hright, Nat.le_refl _⟩
        · rename_i hright
          exact ⟨Nat.le_refl _, Nat.le_of_not_le hright⟩
      intro i hi hlt hchild
      have hside : i = left ∨ i = left + 1 := by omega
      rcases hside with rfl | rfl
      · exact hboth.1
      · exact hboth.2
  | case2 entries pos left hin hleft =>
    refine (h.swap_child (by omega) (by omega) hleft ?_).orderedBelow ?_
    · intro i hi hlt hchild
      have hside : i = left := by omega
      subst hside
      exact Nat.le_refl _
    · rw [Array.size_swap]
      omega
  | case3 entries pos left hin hleft => exact h.orderedBelow (by omega)

/-! ## The frontier as a bag -/

theorem push_perm (f : Frontier) (s : Sighting) :
    (f.push s).entries.toList.Perm (s :: f.entries.toList) := by
  have hrise := Array.perm_iff_toList_perm.1 (rise_perm (f.entries.push s) f.entries.size)
  rw [Array.toList_push] at hrise
  exact hrise.trans (List.perm_append_singleton s _)

theorem pop?_eq_none_iff {f : Frontier} : f.pop? = none ↔ f.entries.toList = [] := by
  rw [pop?]
  split
  · rename_i hback
    simpa using hback
  · rename_i last hback
    have hne : f.entries.toList ≠ [] := by
      intro hnil
      rw [Array.toList_eq_nil_iff] at hnil
      rw [hnil] at hback
      exact absurd hback (by simp)
    refine iff_of_false ?_ hne
    dsimp only
    split <;> simp

/-- Taking a sighting leaves the others. -/
theorem pop?_perm {f f' : Frontier} {s : Sighting} (h : f.pop? = some (s, f')) :
    f.entries.toList.Perm (s :: f'.entries.toList) := by
  rw [pop?] at h
  split at h
  · exact absurd h (by simp)
  · rename_i last hback
    have hsplit : f.entries.toList = f.entries.pop.toList ++ [last] := by
      rw [Array.toList_pop]
      refine (List.dropLast_append_getLast? last ?_).symm
      rwa [Array.getLast?_toList]
    generalize f.entries.pop = rest at h hsplit
    rw [hsplit]
    dsimp only at h
    split at h
    · rename_i hempty
      obtain ⟨rfl, rfl⟩ := Prod.mk.inj (Option.some.inj h)
      have hnil : rest.toList = [] := by
        simpa using hempty
      rw [hnil]
      exact List.Perm.refl _
    · rename_i nearest hfirst
      obtain ⟨rfl, rfl⟩ := Prod.mk.inj (Option.some.inj h)
      have hheap := Array.perm_iff_toList_perm.1 ((rise_perm
        (sink (rest.setIfInBounds 0 last) 0).1 (sink (rest.setIfInBounds 0 last) 0).2).trans
        (sink_perm (rest.setIfInBounds 0 last) 0))
      obtain ⟨tail, htail⟩ : ∃ tail, rest.toList = nearest :: tail := by
        rw [← Array.getElem?_toList] at hfirst
        cases hlist : rest.toList with
        | nil =>
          rw [hlist] at hfirst
          exact absurd hfirst (by simp)
        | cons first tail =>
          rw [hlist] at hfirst
          exact ⟨tail, by rw [Option.some.inj hfirst]⟩
      rw [Array.toList_setIfInBounds, htail] at hheap
      rw [htail, List.cons_append]
      exact (List.Perm.cons _ ((List.perm_append_singleton last tail).trans hheap.symm))

/-! ## The frontier as a heap -/

variable {f f' : Frontier} {s : Sighting}

theorem ordered_empty : Ordered (∅ : Array Sighting) := fun _ _ h => absurd h (Nat.not_lt_zero _)

/-- Pushing keeps the frontier ordered. -/
theorem Ordered.push (h : Ordered f.entries) (s : Sighting) : Ordered (f.push s).entries := by
  refine OrderedBelow.rise (OrderedAround.orderedBelow ⟨?_, ?_⟩ ?_)
  · intro i hi hlt hne hchild
    rw [Array.size_push] at hlt
    rw [distanceAt_push s (show i < f.entries.size by omega),
      distanceAt_push s (show (i - 1) / 2 < f.entries.size by omega)]
    exact h i hi (by omega)
  · intro i hi hlt hchild _
    rw [Array.size_push] at hlt
    omega
  · rw [Array.size_push]
    omega

theorem Ordered.pop (h : Ordered entries) : Ordered entries.pop := by
  intro i hi hlt
  rw [distanceAt_pop hlt, distanceAt_pop (by omega)]
  rw [Array.size_pop] at hlt
  exact h i hi (by omega)

/-- Any entry may be put in the first place and sink from there. -/
theorem Ordered.orderedAround_set (h : Ordered entries) (s : Sighting) :
    OrderedAround (entries.setIfInBounds 0 s) 0 := by
  refine ⟨?_, fun _ _ _ _ hroot => absurd hroot (Nat.lt_irrefl 0)⟩
  intro i hi hlt hne hchild
  rw [Array.size_setIfInBounds] at hlt
  rw [distanceAt_setIfInBounds s hne, distanceAt_setIfInBounds s hchild]
  exact h i hi hlt

/-- The first entry is taken, and the rest stays ordered. -/
theorem Ordered.rest (h : Ordered f.entries) (hpop : f.pop? = some (s, f')) :
    Ordered f'.entries ∧ f.entries[0]? = some s := by
  rw [Frontier.pop?] at hpop
  split at hpop
  · exact absurd hpop (by simp)
  · rename_i last hback
    dsimp only at hpop
    split at hpop
    · rename_i hempty
      obtain ⟨rfl, rfl⟩ := Prod.mk.inj (Option.some.inj hpop)
      rw [Array.getElem?_eq_none_iff, Array.size_pop] at hempty
      rw [Array.back?_eq_getElem?, show f.entries.size - 1 = 0 by omega] at hback
      exact ⟨h.pop, hback⟩
    · rename_i nearest hfirst
      obtain ⟨rfl, rfl⟩ := Prod.mk.inj (Option.some.inj hpop)
      rw [Array.getElem?_pop] at hfirst
      split at hfirst
      · exact ⟨(h.pop.orderedAround_set last).sink.rise, hfirst⟩
      · exact absurd hfirst (by simp)

/-- What is taken from an ordered frontier is nearest. -/
theorem Ordered.distance_le (h : Ordered f.entries) (hpop : f.pop? = some (s, f'))
    {x : Sighting} (hx : x ∈ f.entries.toList) : s.distance ≤ x.distance := by
  obtain ⟨i, hi, rfl⟩ := Array.getElem_of_mem (Array.mem_toList_iff.1 hx)
  have hle := h.distanceAt_zero_le hi
  rwa [distanceAt, (h.rest hpop).2, Option.map_some, Option.getD_some, distanceAt_eq hi] at hle

end FuzzCampaign.Frontier

import FuzzCampaign.Arborescence.Classes
import Mathlib.Algebra.Ring.Nat
import Mathlib.Data.Finset.Card
import Mathlib.Data.Finset.Range
import Mathlib.Logic.Relation

/-!
# Classes as a forest

The parent links form a forest whose trees are the classes.  Since the smaller
class is linked below the larger one, the recorded size at least doubles along
every link, so a climb ends at a root before its fuel runs out.  Joining two
classes redirects exactly the vertices of both to one of their representatives,
and undoing the join gives back the classes as they were.

Main definitions:

- `Forest` and `WellFormed`: what holds of the parents and of the recorded sizes.
- `Grown`: the classes were made by links.

Main results:

- `Forest.parentOf_find`: the representative of a class is a root.
- `WellFormed.find_link`: a link redirects one class to another representative.
- `WellFormed.union_of_ne`: a union joins two classes and can be undone.
-/

namespace FuzzCampaign

namespace Classes

/-- The links of `n` vertices form a forest in which recorded sizes at least
double along every link. -/
structure Forest (c : Classes) (n : Nat) : Prop where
  size_parent : c.parent.size = n
  size_size : c.size.size = n
  parentOf_lt : ∀ v < n, c.parentOf v < n
  sizeOf_pos : ∀ v < n, 0 < c.sizeOf v
  sizeOf_le : ∀ v < n, c.sizeOf v ≤ n
  two_mul_sizeOf_le : ∀ v < n, c.parentOf v ≠ v → 2 * c.sizeOf v ≤ c.sizeOf (c.parentOf v)

/-- The vertices of the class with a given representative. -/
def members (c : Classes) (v : Nat) : Finset Nat :=
  (Finset.range c.parent.size).filter fun w => c.find w = v

/-- A forest in which the size recorded at a root is the size of its class. -/
structure WellFormed (c : Classes) (n : Nat) : Prop extends Forest c n where
  sizeOf_root : ∀ v < n, c.parentOf v = v → c.sizeOf v = (c.members v).card

variable {c c' : Classes} {n : Nat}

/-! ## Climbing -/

/-- From a root there is nowhere to climb. -/
theorem climb_of_root {v : Nat} (hv : c.parentOf v = v) (fuel : Nat) : c.climb fuel v = v := by
  cases fuel with
  | zero => rfl
  | succ fuel => simp [climb, hv]

/-- A step of climbing. -/
theorem climb_succ (fuel v : Nat) : c.climb (fuel + 1) v = c.climb fuel (c.parentOf v) := by
  rw [climb]
  split
  · rename_i hv
    rw [hv, climb_of_root hv]
  · rfl

/-- Fuel beyond a root changes nothing. -/
theorem climb_succ_of_root {fuel v : Nat}
    (hroot : c.parentOf (c.climb fuel v) = c.climb fuel v) :
    c.climb (fuel + 1) v = c.climb fuel v := by
  induction fuel generalizing v with
  | zero => simpa [climb] using hroot
  | succ fuel ih =>
    rw [climb_succ] at hroot
    rw [climb_succ, ih hroot, climb_succ]

/-- A climb ends at a root when its fuel covers the growth of the sizes. -/
theorem Forest.parentOf_climb (h : Forest c n) {fuel v : Nat} (hv : v < n)
    (hfuel : n ≤ c.sizeOf v + fuel) : c.parentOf (c.climb fuel v) = c.climb fuel v := by
  induction fuel generalizing v with
  | zero =>
    by_contra hne
    have hdouble := h.two_mul_sizeOf_le v hv hne
    have hle := h.sizeOf_le _ (h.parentOf_lt v hv)
    have hpos := h.sizeOf_pos v hv
    omega
  | succ fuel ih =>
    by_cases hroot : c.parentOf v = v
    · rw [climb_of_root hroot]
      exact hroot
    · have hdouble := h.two_mul_sizeOf_le v hv hroot
      have hpos := h.sizeOf_pos v hv
      rw [climb_succ]
      exact ih (h.parentOf_lt v hv) (by omega)

/-! ## Representatives -/

/-- A root is in its own class. -/
theorem find_of_root {v : Nat} (hv : c.parentOf v = v) : c.find v = v := climb_of_root hv _

/-- What is no vertex is its own parent. -/
theorem Forest.parentOf_of_le (h : Forest c n) {v : Nat} (hv : n ≤ v) : c.parentOf v = v := by
  have hnone : c.parent[v]? = none := Array.getElem?_eq_none (by rw [h.size_parent]; exact hv)
  simp [parentOf, hnone]

/-- The representative of a class is a root. -/
theorem Forest.parentOf_find (h : Forest c n) (v : Nat) :
    c.parentOf (c.find v) = c.find v := by
  by_cases hv : v < n
  · rw [find, h.size_parent]
    exact h.parentOf_climb hv (Nat.le_add_left _ _)
  · have hroot := h.parentOf_of_le (Nat.le_of_not_lt hv)
    rw [find_of_root hroot, hroot]

/-- A vertex stands for its class just when it is a root. -/
theorem Forest.find_eq_self_iff (h : Forest c n) {v : Nat} :
    c.find v = v ↔ c.parentOf v = v := by
  constructor
  · intro hv
    have hroot := h.parentOf_find v
    rwa [hv] at hroot
  · exact find_of_root

/-- The vertex that stands for a class stands for itself. -/
@[simp] theorem Forest.find_find (h : Forest c n) (v : Nat) : c.find (c.find v) = c.find v :=
  find_of_root (h.parentOf_find v)

/-- A vertex and its parent are in one class. -/
theorem Forest.find_parentOf (h : Forest c n) (v : Nat) : c.find (c.parentOf v) = c.find v := by
  by_cases hroot : c.parentOf v = v
  · rw [hroot]
  · have hv : v < n := by
      by_contra hv
      exact hroot (h.parentOf_of_le (Nat.le_of_not_lt hv))
    obtain ⟨m, rfl⟩ : ∃ m, n = m + 1 := ⟨n - 1, by omega⟩
    have hp := h.parentOf_lt v hv
    have hpos := h.sizeOf_pos _ hp
    simp only [find, h.size_parent]
    rw [climb_succ_of_root (h.parentOf_climb hp (by omega)), climb_succ]

/-- Vertices are in the classes of vertices. -/
theorem Forest.find_lt (h : Forest c n) {v : Nat} (hv : v < n) : c.find v < n := by
  suffices hclimb : ∀ fuel w, w < n → c.climb fuel w < n from hclimb _ v hv
  intro fuel
  induction fuel with
  | zero =>
    intro w hw
    exact hw
  | succ fuel ih =>
    intro w hw
    rw [climb_succ]
    exact ih _ (h.parentOf_lt w hw)

/-- What holds of roots and passes from parents to children holds of all
vertices. -/
theorem Forest.root_induction (h : Forest c n) {motive : Nat → Prop}
    (root : ∀ v, c.parentOf v = v → motive v)
    (child : ∀ v < n, c.parentOf v ≠ v → motive (c.parentOf v) → motive v) (v : Nat) :
    motive v := by
  by_cases hv : v < n
  · induction hd : n - c.sizeOf v using Nat.strong_induction_on generalizing v with
    | _ d ih =>
      by_cases hroot : c.parentOf v = v
      · exact root v hroot
      · have hdouble := h.two_mul_sizeOf_le v hv hroot
        have hpos := h.sizeOf_pos v hv
        have hle := h.sizeOf_le _ (h.parentOf_lt v hv)
        exact child v hv hroot (ih _ (by omega) _ (h.parentOf_lt v hv) rfl)
  · exact root v (h.parentOf_of_le (Nat.le_of_not_lt hv))

/-- The members of a class are the vertices that lead to its root. -/
theorem mem_members (h : Forest c n) {v w : Nat} : w ∈ c.members v ↔ w < n ∧ c.find w = v := by
  simp [members, h.size_parent]

/-- Different classes have no member in common. -/
theorem disjoint_members {v w : Nat} (hne : v ≠ w) : Disjoint (c.members v) (c.members w) := by
  rw [Finset.disjoint_left]
  intro x hv hw
  simp only [members, Finset.mem_filter] at hv hw
  exact hne (hv.2.symm.trans hw.2)

/-! ## Every vertex by itself -/

/-- At first every vertex is its own parent. -/
theorem parentOf_discrete (n v : Nat) : (discrete n).parentOf v = v := by
  by_cases hv : v < n
  · simp [parentOf, discrete, hv]
  · simp [parentOf, discrete, Nat.le_of_not_lt hv]

/-- At first every vertex is in a class of its own. -/
@[simp] theorem find_discrete (n v : Nat) : (discrete n).find v = v :=
  find_of_root (parentOf_discrete n v)

/-- Vertices without links are well formed. -/
theorem wellFormed_discrete (n : Nat) : WellFormed (discrete n) n := by
  have hsize : ∀ v < n, (discrete n).sizeOf v = 1 := by
    intro v hv
    simp [sizeOf, discrete, hv]
  have hforest : Forest (discrete n) n := by
    refine ⟨by simp [discrete], by simp [discrete], ?_, ?_, ?_, ?_⟩
    · intro v hv
      rwa [parentOf_discrete]
    · intro v hv
      rw [hsize v hv]
      exact Nat.one_pos
    · intro v hv
      rw [hsize v hv]
      exact Nat.one_le_of_lt hv
    · intro v hv hne
      exact absurd (parentOf_discrete n v) hne
  refine ⟨hforest, ?_⟩
  intro v hv _
  have hmembers : (discrete n).members v = {v} := by
    ext w
    simp only [mem_members hforest, find_discrete, Finset.mem_singleton, and_iff_right_iff_imp]
    rintro rfl
    exact hv
  rw [hsize v hv, hmembers, Finset.card_singleton]

/-! ## Linking one root below another -/

/-- A link changes the parent of one root. -/
theorem parentOf_link (h : Forest c n) {root child : Nat} (hchild : child < n) (v : Nat) :
    (c.link root child).parentOf v = if v = child then root else c.parentOf v := by
  simp only [parentOf, link, Array.getElem?_setIfInBounds, h.size_parent]
  by_cases hv : v = child
  · subst hv
    simp [hchild]
  · simp [hv, Ne.symm hv]

/-- A link adds the size of one class to that of the other. -/
theorem sizeOf_link (h : Forest c n) {root child : Nat} (hroot : root < n) (v : Nat) :
    (c.link root child).sizeOf v =
      if v = root then c.sizeOf root + c.sizeOf child else c.sizeOf v := by
  simp only [sizeOf, link, Array.getElem?_setIfInBounds, h.size_size]
  by_cases hv : v = root
  · subst hv
    simp [hroot]
  · simp [hv, Ne.symm hv]

/-- Two different roots of `n` vertices, of which the second stands for the
class that is not larger. -/
structure Linkable (c : Classes) (n root child : Nat) : Prop where
  root_lt : root < n
  child_lt : child < n
  parentOf_root : c.parentOf root = root
  parentOf_child : c.parentOf child = child
  ne : root ≠ child
  sizeOf_le : c.sizeOf child ≤ c.sizeOf root

/-- Two classes have no more members than there are vertices. -/
theorem WellFormed.card_add_card_le (h : WellFormed c n) {root child : Nat}
    (hne : root ≠ child) : (c.members root).card + (c.members child).card ≤ n := by
  have hsubset : c.members root ∪ c.members child ⊆ Finset.range n := by
    intro w hw
    rw [Finset.mem_union, mem_members h.toForest, mem_members h.toForest] at hw
    exact Finset.mem_range.2 (hw.elim And.left And.left)
  calc
    _ = (c.members root ∪ c.members child).card :=
        (Finset.card_union_of_disjoint (disjoint_members hne)).symm
    _ ≤ (Finset.range n).card := Finset.card_le_card hsubset
    _ = n := Finset.card_range n

/-- Linking roots gives a forest again. -/
theorem Forest.link (h : WellFormed c n) {root child : Nat} (hl : Linkable c n root child) :
    Forest (c.link root child) n := by
  have hsize : ∀ v, (c.link root child).sizeOf v =
      if v = root then c.sizeOf root + c.sizeOf child else c.sizeOf v :=
    sizeOf_link h.toForest hl.root_lt
  have hparent : ∀ v, (c.link root child).parentOf v = if v = child then root else c.parentOf v :=
    parentOf_link h.toForest hl.child_lt
  refine ⟨?_, ?_, ?_, ?_, ?_, ?_⟩
  · simpa [Classes.link] using h.size_parent
  · simpa [Classes.link] using h.size_size
  · intro v hv
    rw [hparent]
    split
    · exact hl.root_lt
    · exact h.parentOf_lt v hv
  · intro v hv
    rw [hsize]
    have hpos := h.sizeOf_pos v hv
    have hrpos := h.sizeOf_pos root hl.root_lt
    split <;> omega
  · intro v hv
    rw [hsize]
    have hle := h.sizeOf_le v hv
    have hsum := h.card_add_card_le hl.ne
    rw [← h.sizeOf_root root hl.root_lt hl.parentOf_root,
      ← h.sizeOf_root child hl.child_lt hl.parentOf_child] at hsum
    split <;> omega
  · intro v hv hne
    rw [hparent] at hne ⊢
    by_cases hvc : v = child
    · have hle := hl.sizeOf_le
      subst hvc
      rw [if_pos rfl, hsize, hsize, if_neg hl.ne.symm, if_pos rfl]
      omega
    · rw [if_neg hvc] at hne ⊢
      have hvr : v ≠ root := by
        rintro rfl
        exact hne hl.parentOf_root
      have hdouble := h.two_mul_sizeOf_le v hv hne
      rw [hsize, hsize, if_neg hvr]
      by_cases hpr : c.parentOf v = root
      · rw [if_pos hpr]
        rw [hpr] at hdouble
        omega
      · rw [if_neg hpr]
        exact hdouble

/-- A link redirects one class to the representative of another. -/
theorem WellFormed.find_link (h : WellFormed c n) {root child : Nat}
    (hl : Linkable c n root child) (v : Nat) :
    (c.link root child).find v = if c.find v = child then root else c.find v := by
  have hforest := Forest.link h hl
  have hparent : ∀ v, (c.link root child).parentOf v = if v = child then root else c.parentOf v :=
    parentOf_link h.toForest hl.child_lt
  have hroot : (c.link root child).find root = root := by
    refine find_of_root ?_
    rw [hparent, if_neg hl.ne]
    exact hl.parentOf_root
  induction v using h.toForest.root_induction with
  | root v hv =>
    rw [find_of_root hv]
    by_cases hvc : v = child
    · rw [if_pos hvc, ← hforest.find_parentOf, hparent, if_pos hvc, hroot]
    · rw [if_neg hvc]
      refine find_of_root ?_
      rw [hparent, if_neg hvc]
      exact hv
  | child v hv hne ih =>
    have hvc : v ≠ child := by
      rintro rfl
      exact hne hl.parentOf_child
    have hkeep : (c.link root child).parentOf v = c.parentOf v := by
      rw [hparent, if_neg hvc]
    rw [← hforest.find_parentOf, hkeep, ih, h.toForest.find_parentOf]

/-- Linking roots keeps the sizes right. -/
theorem WellFormed.link (h : WellFormed c n) {root child : Nat} (hl : Linkable c n root child) :
    WellFormed (c.link root child) n := by
  have hforest := Forest.link h hl
  refine ⟨hforest, ?_⟩
  intro v hv hvroot
  have hfind := h.find_link hl
  have hvc : v ≠ child := by
    rintro rfl
    rw [parentOf_link h.toForest hl.child_lt, if_pos rfl] at hvroot
    exact hl.ne hvroot
  have hold : c.parentOf v = v := by
    rwa [parentOf_link h.toForest hl.child_lt, if_neg hvc] at hvroot
  rw [sizeOf_link h.toForest hl.root_lt]
  by_cases hvr : v = root
  · subst hvr
    have hmembers : (c.link v child).members v = c.members v ∪ c.members child := by
      ext w
      rw [Finset.mem_union, mem_members hforest, mem_members h.toForest,
        mem_members h.toForest, hfind]
      by_cases hw : c.find w = child
      · simp [hw, Ne.symm hvc]
      · simp [hw]
    rw [if_pos rfl, hmembers, Finset.card_union_of_disjoint (disjoint_members hvc),
      h.sizeOf_root v hv hold, h.sizeOf_root child hl.child_lt hl.parentOf_child]
  · have hmembers : (c.link root child).members v = c.members v := by
      ext w
      rw [mem_members hforest, mem_members h.toForest, hfind]
      by_cases hw : c.find w = child
      · simp [hw, Ne.symm hvr, Ne.symm hvc]
      · simp [hw]
    rw [if_neg hvr, hmembers, h.sizeOf_root v hv hold]

/-! ## Joining classes -/

/-- The classes `c'` come from `c` by joining the classes with the given
representatives to one, which can be undone. -/
structure Joined (c c' : Classes) (n : Nat) (reps : List Nat) : Prop where
  wellFormed : WellFormed c' n
  rollback_eq : c'.rollback c.time = c
  time_le : c.time ≤ c'.time
  find_eq : ∃ winner ∈ reps, ∀ v, c'.find v = if c.find v ∈ reps then winner else c.find v

/-- One class joined with itself. -/
theorem Joined.single (h : WellFormed c n) (v : Nat) : Joined c c n [v] := by
  refine ⟨h, ?_, Nat.le_refl _, v, List.mem_singleton_self v, ?_⟩
  · simp [rollback, undoLatest]
  · intro w
    by_cases hw : c.find w = v <;> simp [hw]

/-- Rolling back passes through the state before the latest union. -/
theorem rollback_eq_of_undo {t : Nat} (hundo : c'.undo = c) (htime : c'.time = c.time + 1)
    (ht : t ≤ c.time) : c'.rollback t = c.rollback t := by
  have hsteps : c'.time - t = (c.time - t) + 1 := by omega
  simp only [rollback, hsteps, undoLatest, hundo]

/-- Two vertices of one class stay as they are. -/
theorem union_of_eq {x y : Nat} (hxy : c.find x = c.find y) : c.union x y = (false, c) := by
  simp [union, hxy]

/-- The union of two classes links one of their representatives below the other. -/
theorem WellFormed.union_of_ne (h : WellFormed c n) {x y : Nat} (hx : x < n) (hy : y < n)
    (hxy : c.find x ≠ c.find y) :
    ∃ root child, c.union x y = (true, c.link root child) ∧ Linkable c n root child ∧
      ((root = c.find x ∧ child = c.find y) ∨ (root = c.find y ∧ child = c.find x)) := by
  have hxr := h.toForest.parentOf_find x
  have hyr := h.toForest.parentOf_find y
  have hxlt := h.toForest.find_lt hx
  have hylt := h.toForest.find_lt hy
  by_cases hsize : c.sizeOf (c.find x) < c.sizeOf (c.find y)
  · exact ⟨c.find y, c.find x, by simp [union, hxy, hsize],
      ⟨hylt, hxlt, hyr, hxr, Ne.symm hxy, Nat.le_of_lt hsize⟩, Or.inr ⟨rfl, rfl⟩⟩
  · exact ⟨c.find x, c.find y, by simp [union, hxy, hsize],
      ⟨hxlt, hylt, hxr, hyr, hxy, Nat.le_of_not_lt hsize⟩, Or.inl ⟨rfl, rfl⟩⟩

/-- Undoing a link gives back what was there. -/
theorem WellFormed.undo_link (h : WellFormed c n) {root child : Nat}
    (hl : Linkable c n root child) : (c.link root child).undo = c :=
  Classes.undo_link hl.ne (by rw [h.size_parent]; exact hl.child_lt) hl.parentOf_child
    (by rw [h.size_size]; exact hl.root_lt)

/-- A further class joins those that were joined already. -/
theorem Joined.union {reps : List Nat} {u w : Nat} (hj : Joined c c' n reps) (hu : u < n)
    (hureps : c.find u ∈ reps) (hw : w < n) (hroot : c.find w = w) (hwreps : w ∉ reps) :
    ∃ c'', c'.union u w = (true, c'') ∧ Joined c c'' n (w :: reps) := by
  obtain ⟨winner, hwinner, hfind⟩ := hj.find_eq
  have hfu : c'.find u = winner := by rw [hfind, if_pos hureps]
  have hfw : c'.find w = w := by rw [hfind, hroot, if_neg hwreps]
  have hne : c'.find u ≠ c'.find w := by
    rw [hfu, hfw]
    rintro rfl
    exact hwreps hwinner
  obtain ⟨root, child, hunion, hl, hcase⟩ := hj.wellFormed.union_of_ne hu hw hne
  rw [hfu, hfw] at hcase
  have hmem : root ∈ w :: reps := by
    rcases hcase with ⟨rfl, rfl⟩ | ⟨rfl, rfl⟩
    · exact List.mem_cons_of_mem _ hwinner
    · exact List.mem_cons_self
  refine ⟨c'.link root child, hunion, hj.wellFormed.link hl, ?_, ?_, root, hmem, ?_⟩
  · rw [rollback_eq_of_undo (hj.wellFormed.undo_link hl) rfl hj.time_le]
    exact hj.rollback_eq
  · exact Nat.le_succ_of_le hj.time_le
  · intro v
    rw [hj.wellFormed.find_link hl, hfind]
    by_cases hv : c.find v ∈ reps
    · rcases hcase with ⟨rfl, rfl⟩ | ⟨rfl, rfl⟩
      · simp [hv]
      · simp [hv]
    · by_cases hvw : c.find v = w
      · rcases hcase with ⟨rfl, rfl⟩ | ⟨rfl, rfl⟩
        · simp [hvw, hwreps]
        · simp [hvw, hwreps, hl.ne]
      · have hvc : c.find v ≠ child := by
          rcases hcase with ⟨rfl, rfl⟩ | ⟨rfl, rfl⟩
          · exact hvw
          · rintro rfl
            exact hv hwinner
        simp [hv, hvw, hvc]

/-! ## Classes that were made by links -/

/-- Classes that were made from single vertices by links. -/
inductive Grown (n : Nat) : Classes → Prop
  | discrete : Grown n (discrete n)
  | link {c : Classes} {root child : Nat} (earlier : Grown n c)
      (linkable : Linkable c n root child) : Grown n (c.link root child)

/-- What has grown by links is well formed. -/
theorem Grown.wellFormed (h : Grown n c) : WellFormed c n := by
  induction h with
  | discrete => exact wellFormed_discrete n
  | link _ hl ih => exact ih.link hl

/-- A climb comes to the root when its fuel covers the growth of the sizes, which double along
every link. -/
theorem Forest.climb?_eq (h : Forest c n) {fuel v : Nat} (hv : v < n)
    (hfuel : n < 2 ^ fuel * c.sizeOf v) : c.climb? fuel v = some (c.find v) := by
  induction fuel generalizing v with
  | zero =>
    have hle := h.sizeOf_le v hv
    omega
  | succ fuel ih =>
    have hlt : v < c.parent.size := by rw [h.size_parent]; exact hv
    have hread : c.parent[v]? = some (c.parentOf v) := by simp [parentOf, hlt]
    rw [climb?, hread]
    simp only [Option.bind_eq_bind, Option.bind_some]
    by_cases hroot : c.parentOf v = v
    · rw [if_pos hroot, find_of_root hroot]
    · rw [if_neg hroot, ih (h.parentOf_lt v hv), h.find_parentOf]
      calc
        n < 2 ^ (fuel + 1) * c.sizeOf v := hfuel
        _ = 2 ^ fuel * (2 * c.sizeOf v) := by rw [Nat.pow_succ, Nat.mul_assoc]
        _ ≤ 2 ^ fuel * c.sizeOf (c.parentOf v) :=
          Nat.mul_le_mul_left _ (h.two_mul_sizeOf_le v hv hroot)

/-- With enough fuel, climbing is answered with the root. -/
theorem Forest.climb?_of_lt (h : Forest c n) {fuel v : Nat} (hv : v < n) (hfuel : n < 2 ^ fuel) :
    c.climb? fuel v = some (c.find v) :=
  h.climb?_eq hv (Nat.lt_of_lt_of_le hfuel (Nat.le_mul_of_pos_right _ (h.sizeOf_pos v hv)))

/-- Every vertex is found in its class. -/
theorem Forest.find?_eq (h : Forest c n) {v : Nat} (hv : v < n) : c.find? v = some (c.find v) := by
  rw [find?, h.size_parent]
  exact h.climb?_of_lt hv Nat.lt_two_pow_self

/-- The table of sizes has an entry for every vertex. -/
theorem Forest.size_getElem? (h : Forest c n) {v : Nat} (hv : v < n) :
    c.size[v]? = some (c.sizeOf v) := by
  have hlt : v < c.size.size := by rw [h.size_size]; exact hv
  simp [sizeOf, hlt]

/-- Uniting the classes of two vertices is answered. -/
theorem Forest.union?_eq (h : Forest c n) {a b : Nat} (ha : a < n) (hb : b < n) :
    c.union? a b = some (c.union a b) := by
  rw [union?, h.find?_eq ha, h.find?_eq hb]
  simp only [Option.bind_eq_bind, Option.bind_some, h.size_getElem? (h.find_lt ha),
    h.size_getElem? (h.find_lt hb), union]
  split
  · rfl
  · split <;> rfl

/-- A union joins the classes of its two vertices and leaves the others apart. -/
theorem WellFormed.find_union_iff (h : WellFormed c n) {a b : Nat} (ha : a < n) (hb : b < n)
    (v w : Nat) : (c.union a b).2.find v = (c.union a b).2.find w ↔ c.find v = c.find w ∨
      c.find v = c.find a ∧ c.find w = c.find b ∨ c.find v = c.find b ∧ c.find w = c.find a := by
  by_cases hab : c.find a = c.find b
  · simp only [union_of_eq hab]
    omega
  · obtain ⟨root, child, hunion, hl, hcase⟩ := h.union_of_ne ha hb hab
    simp only [hunion, h.find_link hl]
    split <;> split <;> omega

end Classes

end FuzzCampaign

import FuzzCampaign.Arborescence.Tree
import Mathlib.Data.List.Perm.Subperm
import Mathlib.Data.List.Nodup
import Mathlib.Logic.Function.Iterate
import Mathlib.Logic.Relation

/-!
# The shape of an arborescence and its post-order

In a spanning arborescence every vertex other than the root has one parent and
lies below the root.  Its distance from the root grows by one along every edge,
so that the subtrees of different children have no vertex in common and no way
down is longer than the number of vertices.

The listing with an explicit stack is the recursive post-order: the subtrees of
the children one after another, and then the vertex itself.

Main definitions:

- `Spans`: an arborescence spans a list of vertices.
- `Below`: one vertex lies in the subtree of another.
- `subtree`: the recursive post-order of a subtree.
- `PostOrdered`: a list is the recursive post-order of an arborescence.

Main results:

- `Spans.iterate_turn`: the listing with an explicit stack ends.
- `Spans.postOrder_eq` and `Spans.postOrdered`: it is the recursive post-order of the root.
- `Spans.postOrder_perm`: it lists every vertex once.
-/

namespace FuzzCampaign.Arborescence

open Relation

variable {t : Arborescence} {vertices : List Nat}

/-- One vertex is the parent of another. -/
def IsParent (t : Arborescence) (parent child : Nat) : Prop := (parent, child) ∈ t.edges

/-- A vertex lies in the subtree of another. -/
def Below (t : Arborescence) : Nat → Nat → Prop := ReflTransGen t.IsParent

/-- An arborescence spans a list of vertices: each of them but the root has one
parent among them, and all lie below the root. -/
structure Spans (t : Arborescence) (vertices : List Nat) : Prop where
  nodup : vertices.Nodup
  root_mem : t.root ∈ vertices
  parent_mem : ∀ p c, t.IsParent p c → p ∈ vertices
  children_eq : t.edges.map (·.2) = vertices.filter (· != t.root)
  below_root : ∀ v ∈ vertices, t.Below t.root v

namespace Spans

/-- A child is one of the vertices and not the root. -/
theorem child_mem (h : t.Spans vertices) {p c : Nat} (hpc : t.IsParent p c) :
    c ∈ vertices ∧ c ≠ t.root := by
  have hmem : c ∈ t.edges.map (·.2) := List.mem_map.2 ⟨(p, c), hpc, rfl⟩
  rw [h.children_eq, List.mem_filter] at hmem
  simpa using hmem

/-- Every child is listed once. -/
theorem nodup_map_child (h : t.Spans vertices) : (t.edges.map (·.2)).Nodup := by
  rw [h.children_eq]
  exact h.nodup.filter _

/-- No vertex has two parents. -/
theorem parent_unique (h : t.Spans vertices) {p q c : Nat} (hp : t.IsParent p c)
    (hq : t.IsParent q c) : p = q :=
  congrArg Prod.fst (List.inj_on_of_nodup_map h.nodup_map_child hp hq rfl)

/-- No vertex has the same child twice. -/
theorem nodup_children (h : t.Spans vertices) (v : Nat) : (t.children v).Nodup :=
  h.nodup_map_child.sublist (List.filter_sublist.map _)

/-- The tree has one edge less than vertices. -/
theorem vertexCount_eq (h : t.Spans vertices) : t.vertexCount = vertices.length := by
  have hperm : vertices.Perm (t.root :: vertices.filter (· != t.root)) := by
    rw [← h.nodup.erase_eq_filter]
    exact List.perm_cons_erase h.root_mem
  rw [vertexCount, hperm.length_eq, ← h.children_eq, List.length_cons, List.length_map]

end Spans

/-! ## Depth -/

/-- A vertex is a number of edges below the root. -/
inductive AtDepth (t : Arborescence) : Nat → Nat → Prop
  | root : AtDepth t 0 t.root
  | child {k p c : Nat} (hp : AtDepth t k p) (hpc : t.IsParent p c) : AtDepth t (k + 1) c

/-- A vertex below another one is deeper, or the same. -/
theorem AtDepth.of_below {k a b : Nat} (ha : t.AtDepth k a) (hab : t.Below a b) :
    ∃ l, t.AtDepth (k + l) b ∧ (l = 0 → a = b) := by
  induction hab with
  | refl => exact ⟨0, ha, fun _ => rfl⟩
  | tail _ hstep ih =>
    obtain ⟨l, hl, -⟩ := ih
    exact ⟨l + 1, hl.child hstep, fun hzero => absurd hzero (Nat.succ_ne_zero l)⟩

namespace Spans

/-- Every vertex has one depth. -/
theorem depth_unique (h : t.Spans vertices) {k l v : Nat} (hk : t.AtDepth k v)
    (hl : t.AtDepth l v) : k = l := by
  induction hk generalizing l with
  | root =>
    cases hl with
    | root => rfl
    | child _ hpc => exact absurd rfl (h.child_mem hpc).2
  | child _ hpc ih =>
    cases hl with
    | root => exact absurd rfl (h.child_mem hpc).2
    | child hq hqc =>
      have hpq := h.parent_unique hpc hqc
      subst hpq
      rw [ih hq]

/-- Of two vertices at one depth neither is below the other. -/
theorem eq_of_below_of_depth (h : t.Spans vertices) {k a b : Nat} (hab : t.Below a b)
    (ha : t.AtDepth k a) (hb : t.AtDepth k b) : a = b := by
  obtain ⟨l, hl, heq⟩ := ha.of_below hab
  have hkl := h.depth_unique hb hl
  exact heq (by omega)

/-- The way up from a vertex consists of different vertices. -/
theorem depth_lt (h : t.Spans vertices) {k v : Nat} (hk : t.AtDepth k v) :
    k < vertices.length := by
  have hway : ∀ k v, t.AtDepth k v → ∃ l : List Nat, l.length = k + 1 ∧ l.Nodup ∧
      l ⊆ vertices ∧ ∀ x ∈ l, ∃ j ≤ k, t.AtDepth j x := by
    intro k v hk
    induction hk with
    | root => exact ⟨[t.root], rfl, List.nodup_singleton _, by simpa using h.root_mem,
        by simpa using AtDepth.root⟩
    | @child k p c hp hpc ih =>
      obtain ⟨l, hlength, hnodup, hsub, hdepth⟩ := ih
      have hnot : c ∉ l := by
        intro hmem
        obtain ⟨j, hj, hjc⟩ := hdepth c hmem
        have hkj := h.depth_unique (hp.child hpc) hjc
        omega
      refine ⟨c :: l, by simp [hlength], List.nodup_cons.2 ⟨hnot, hnodup⟩,
        List.cons_subset.2 ⟨(h.child_mem hpc).1, hsub⟩, ?_⟩
      intro x hx
      rcases List.mem_cons.1 hx with rfl | hx
      · exact ⟨k + 1, Nat.le_refl _, hp.child hpc⟩
      · obtain ⟨j, hj, hjx⟩ := hdepth x hx
        exact ⟨j, Nat.le_succ_of_le hj, hjx⟩
  obtain ⟨l, hlength, hnodup, hsub, -⟩ := hway k v hk
  have hle := (hnodup.subperm hsub).length_le
  omega

end Spans

/-- Every way down from a vertex has at most `height` vertices. -/
def Shallow (t : Arborescence) : Nat → Nat → Prop
  | 0, _ => False
  | height + 1, v => ∀ c ∈ t.children v, Shallow t height c

/-- No way down from depth `k` has more vertices than are left for it. -/
theorem Spans.shallow (h : t.Spans vertices) (height : Nat) {k v : Nat} (hk : t.AtDepth k v)
    (hheight : vertices.length ≤ k + height) : t.Shallow height v := by
  induction height generalizing k v with
  | zero =>
    have hlt := h.depth_lt hk
    omega
  | succ height ih =>
    intro c hc
    exact ih (hk.child (mem_children.1 hc)) (by omega)

/-! ## The recursive post-order -/

/-- The vertices of a subtree, children before parents. -/
def subtree (t : Arborescence) : Nat → Nat → List Nat
  | 0, _ => []
  | height + 1, v => (t.children v).flatMap (subtree t height) ++ [v]

/-- The subtree of a vertex holds what is below it. -/
theorem mem_subtree {height v x : Nat} (hs : t.Shallow height v) :
    x ∈ t.subtree height v ↔ t.Below v x := by
  induction height generalizing v with
  | zero => exact hs.elim
  | succ height ih =>
    rw [subtree, List.mem_append, List.mem_flatMap, List.mem_singleton]
    constructor
    · rintro (⟨c, hc, hx⟩ | rfl)
      · exact ReflTransGen.head (mem_children.1 hc) ((ih (hs c hc)).1 hx)
      · exact ReflTransGen.refl
    · intro hbelow
      rcases ReflTransGen.cases_head hbelow with rfl | ⟨c, hvc, hcx⟩
      · exact Or.inr rfl
      · have hc := mem_children.2 hvc
        exact Or.inl ⟨c, hc, (ih (hs c hc)).2 hcx⟩

/-- Different children have no vertex below them in common. -/
theorem Spans.child_unique (h : t.Spans vertices) {k v a b x : Nat} (hk : t.AtDepth k v)
    (ha : t.IsParent v a) (hb : t.IsParent v b) (hax : t.Below a x) (hbx : t.Below b x) :
    a = b := by
  have hunique : Relator.RightUnique (Function.swap t.IsParent) :=
    fun _ _ _ hp hq => h.parent_unique hp hq
  rcases ReflTransGen.total_of_right_unique hunique (ReflTransGen.swap _ _ hax)
    (ReflTransGen.swap _ _ hbx) with hab | hba
  · exact (h.eq_of_below_of_depth (ReflTransGen.swap _ _ hab) (hk.child hb) (hk.child ha)).symm
  · exact h.eq_of_below_of_depth (ReflTransGen.swap _ _ hba) (hk.child ha) (hk.child hb)

/-- A subtree holds no vertex twice. -/
theorem Spans.nodup_subtree (h : t.Spans vertices) {height k v : Nat} (hk : t.AtDepth k v)
    (hs : t.Shallow height v) : (t.subtree height v).Nodup := by
  induction height generalizing k v with
  | zero => exact hs.elim
  | succ height ih =>
    rw [subtree, List.nodup_append]
    refine ⟨?_, List.nodup_singleton v, ?_⟩
    · rw [List.nodup_flatMap]
      refine ⟨fun c hc => ih (hk.child (mem_children.1 hc)) (hs c hc), ?_⟩
      refine (h.nodup_children v).pairwise_of_forall_ne ?_
      intro a ha b hb hne x hxa hxb
      exact hne (h.child_unique hk (mem_children.1 ha) (mem_children.1 hb)
        ((mem_subtree (hs a ha)).1 hxa) ((mem_subtree (hs b hb)).1 hxb))
    · intro x hx y hy
      rw [List.mem_singleton] at hy
      subst hy
      rintro rfl
      obtain ⟨c, hc, hxc⟩ := List.mem_flatMap.1 hx
      -- a vertex below its own child would be at two depths
      obtain ⟨l, hl, -⟩ := (hk.child (mem_children.1 hc)).of_below
        ((mem_subtree (hs c hc)).1 hxc)
      have hkl := h.depth_unique hk hl
      omega

/-- More height changes nothing. -/
theorem subtree_succ {height v : Nat} (hs : t.Shallow height v) :
    t.subtree (height + 1) v = t.subtree height v := by
  induction height generalizing v with
  | zero => exact hs.elim
  | succ height ih =>
    rw [subtree, subtree, List.flatMap_congr fun c hc => ih (hs c hc)]

/-! ## The listing -/

/-- With an empty stack nothing happens any more. -/
theorem iterate_turn_nil (order : List Nat) (turns : Nat) :
    t.turn^[turns] (order, []) = (order, []) :=
  Function.iterate_fixed rfl turns

/-- What was listed stays in front. -/
theorem fst_iterate_turn (turns : Nat) (order : List Nat) (stack : List (Nat × Bool)) :
    (t.turn^[turns] (order, stack)).1 = order ++ t.listFrom turns stack := by
  induction turns generalizing order stack with
  | zero => simp [listFrom]
  | succ turns ih =>
    rw [Function.iterate_succ_apply]
    match stack with
    | [] => rw [turn, iterate_turn_nil, listFrom, List.append_nil]
    | (node, true) :: stack => rw [turn, ih, listFrom, List.append_assoc, List.singleton_append]
    | (node, false) :: stack => rw [turn, ih, listFrom]

/-- The listing goes through a subtree before it goes on with the stack. -/
theorem iterate_turn_subtree {height v : Nat} (turns : Nat) (order : List Nat)
    (stack : List (Nat × Bool)) (hs : t.Shallow height v) :
    t.turn^[turns + 2 * (t.subtree height v).length] (order, (v, false) :: stack) =
      t.turn^[turns] (order ++ t.subtree height v, stack) := by
  induction height generalizing turns v order stack with
  | zero => exact hs.elim
  | succ height ih =>
    have hchildren : ∀ (cs : List Nat) (turns : Nat) (order : List Nat)
        (rest : List (Nat × Bool)), (∀ c ∈ cs, t.Shallow height c) →
        t.turn^[turns + 2 * (cs.flatMap (t.subtree height)).length]
          (order, cs.map (·, false) ++ rest) =
        t.turn^[turns] (order ++ cs.flatMap (t.subtree height), rest) := by
      intro cs
      induction cs with
      | nil => intro turns order rest _; simp
      | cons c cs ihcs =>
        intro turns order rest hall
        have hturns : turns + 2 * ((c :: cs).flatMap (t.subtree height)).length =
            turns + 2 * (cs.flatMap (t.subtree height)).length +
              2 * (t.subtree height c).length := by
          rw [List.flatMap_cons, List.length_append]
          omega
        rw [hturns, List.map_cons, List.cons_append, ih _ _ _ (hall c List.mem_cons_self),
          ihcs turns _ rest fun d hd => hall d (List.mem_cons_of_mem _ hd), List.flatMap_cons,
          List.append_assoc]
    have hturns : turns + 2 * (t.subtree (height + 1) v).length =
        turns + 1 + 2 * ((t.children v).flatMap (t.subtree height)).length + 1 := by
      rw [subtree, List.length_append, List.length_singleton]
      omega
    rw [hturns, Function.iterate_succ_apply, turn, hchildren _ _ _ _ hs,
      Function.iterate_succ_apply, turn, subtree, List.append_assoc]

/-- The subtree of the root holds every vertex once. -/
theorem Spans.subtree_root_perm (h : t.Spans vertices) :
    (t.subtree vertices.length t.root).Perm vertices := by
  have hs := h.shallow vertices.length .root (by omega)
  rw [List.perm_ext_iff_of_nodup (h.nodup_subtree .root hs) h.nodup]
  intro v
  rw [mem_subtree hs]
  constructor
  · intro hbelow
    rcases ReflTransGen.cases_tail hbelow with rfl | ⟨p, -, hpv⟩
    · exact h.root_mem
    · exact (h.child_mem hpv).1
  · exact h.below_root v

/-- The listing ends, when every vertex has come up twice. -/
theorem Spans.iterate_turn (h : t.Spans vertices) :
    t.turn^[2 * t.vertexCount] ([], [(t.root, false)]) =
      (t.subtree vertices.length t.root, []) := by
  have hlist := iterate_turn_subtree 0 [] [] (h.shallow vertices.length .root (by omega))
  rw [h.subtree_root_perm.length_eq, Nat.zero_add] at hlist
  rw [h.vertexCount_eq, hlist]
  rfl

/-- The listing with an explicit stack is the recursive post-order. -/
theorem Spans.postOrder_eq (h : t.Spans vertices) :
    t.postOrder = t.subtree vertices.length t.root := by
  have hlist := fst_iterate_turn (t := t) (2 * t.vertexCount) [] [(t.root, false)]
  rw [h.iterate_turn] at hlist
  exact hlist.symm

/-- The listing contains every vertex once. -/
theorem Spans.postOrder_perm (h : t.Spans vertices) : t.postOrder.Perm vertices := by
  rw [h.postOrder_eq]
  exact h.subtree_root_perm

/-! ## The blocks of the listing -/

/-- A vertex stands for the block of its subtree: the blocks of its children, in their order, and
then the vertex itself. -/
structure Block (t : Arborescence) (block : Nat → List Nat) (v : Nat) : Prop where
  eq_append : block v = (t.children v).flatMap block ++ [v]
  mem_iff : ∀ x, x ∈ block v ↔ t.Below v x
  contiguous : block v <:+: block t.root

/-- A list is the recursive post-order of an arborescence: every vertex stands for a block, and
the list is the block of the root. -/
def PostOrdered (t : Arborescence) (vertices order : List Nat) : Prop :=
  ∃ block, order = block t.root ∧ ∀ v ∈ vertices, t.Block block v

/-- A traversal lists the vertices of a tree, each after its children. -/
theorem Spans.postOrdered (h : t.Spans vertices) : t.PostOrdered vertices t.postOrder := by
  have hshallow : ∀ k v, t.AtDepth k v → t.Shallow vertices.length v :=
    fun k v hk => h.shallow vertices.length hk (Nat.le_add_left _ _)
  have hdepth : ∀ v ∈ vertices, ∃ k, t.AtDepth k v := by
    intro v hv
    obtain ⟨k, hk, -⟩ := AtDepth.root.of_below (h.below_root v hv)
    exact ⟨_, hk⟩
  have heq : ∀ v ∈ vertices, t.subtree vertices.length v =
      (t.children v).flatMap (t.subtree vertices.length) ++ [v] := by
    intro v hv
    obtain ⟨k, hk⟩ := hdepth v hv
    have hs := hshallow k v hk
    obtain ⟨height, hheight⟩ := Nat.exists_eq_add_one.2 (List.length_pos_of_mem hv)
    rw [hheight] at hs ⊢
    rw [List.flatMap_congr fun c hc => subtree_succ (hs c hc), subtree]
  refine ⟨t.subtree vertices.length, h.postOrder_eq, fun v hv => ⟨heq v hv, fun x => ?_, ?_⟩⟩
  · obtain ⟨k, hk⟩ := hdepth v hv
    exact mem_subtree (hshallow k v hk)
  · -- every step down goes to a block within the block of the parent
    have hbelow := h.below_root v hv
    clear hv
    induction hbelow with
    | refl => exact List.infix_refl _
    | @tail p c _ hpc ih =>
      refine List.IsInfix.trans ?_ ih
      rw [heq p (h.parent_mem p c hpc)]
      exact (List.infix_of_mem_flatten (List.mem_map_of_mem (mem_children.2 hpc))).trans
        (List.infix_append' [] _ _)

namespace PostOrdered
variable {order : List Nat}

/-- The root comes last. -/
theorem getLast?_eq (h : t.PostOrdered vertices order) (hroot : t.root ∈ vertices) :
    order.getLast? = some t.root := by
  obtain ⟨block, rfl, hblock⟩ := h
  rw [(hblock _ hroot).eq_append, List.getLast?_append, List.getLast?_singleton, Option.some_or]

/-- Every vertex comes after the others of its subtree. -/
theorem descendant_before (h : t.PostOrdered vertices order) {v x : Nat} (hv : v ∈ vertices)
    (hbelow : t.Below v x) (hne : x ≠ v) : [x, v].Sublist order := by
  obtain ⟨block, rfl, hblock⟩ := h
  have hx := ((hblock v hv).mem_iff x).2 hbelow
  refine List.Sublist.trans ?_ (hblock v hv).contiguous.sublist
  rw [(hblock v hv).eq_append] at hx ⊢
  rcases List.mem_append.1 hx with hx | hx
  · exact (List.singleton_sublist.2 hx).append (List.Sublist.refl [v])
  · exact absurd (List.mem_singleton.1 hx) hne

end PostOrdered

end FuzzCampaign.Arborescence

import FuzzCampaign.Partition.Cluster
import FuzzCampaign.Proofs.Arborescence.TreeShape
import FuzzCampaign.Proofs.Partition.Load

/-!
# Clusters are connected and lose no vertex

Cutting a subtree bottom-up leaves the growing cluster of its top and finishes
some clusters inside the subtree; it does not touch what was there before.  When
a vertex is visited, the clusters of its children are growing, and each of them
either joins the cluster of the vertex or is finished.

A cluster is finished because the one that holds the parent of its top had no
room for it.  That cluster may grow afterwards, but it never becomes lighter, so
that there is no room in the end either.

Main definitions:

- `Piece`: a cluster is a connected piece of the tree below its top.
- `Refused`: a piece does not fit into the cluster above it.

Main results:

- `foldl_absorb`: what becomes of the clusters of the children.
- `foldl_visit_subtree`: what cutting a subtree leaves.
- `Spans.clusters_perm` and `Spans.exists_piece`: the clusters hold every vertex
  once and are pieces.
- `Spans.clusters_greedy`: no cluster but that of the root could have joined
  another one.
-/

namespace FuzzCampaign

open Relation

variable {t : Arborescence} {weigh : Nat → Nat} {capacity : Nat}

/-- A cluster is a connected piece of the tree below its top, within the capacity
unless it is a single vertex. -/
structure Piece (t : Arborescence) (weigh : Nat → Nat) (capacity top : Nat) (c : Cluster) :
    Prop where
  head : ∃ rest, c.vertices = top :: rest
  connected : ∀ v ∈ c.vertices,
    ReflTransGen (fun p q => t.IsParent p q ∧ q ∈ c.vertices) top v
  weight_eq : c.weight = Weight.sum (c.vertices.map weigh)
  light : c.weight ≤ capacity ∨ c.vertices = [top]

namespace Piece

/-- A vertex by itself is a piece. -/
theorem single {v : Nat} (hw : weigh v ≤ Weight.ceiling) :
    Piece t weigh capacity v (.single v (weigh v)) := by
  refine ⟨⟨[], rfl⟩, ?_, ?_, Or.inr rfl⟩
  · intro x hx
    rw [List.mem_singleton.1 hx]
  · exact (Weight.sum_singleton hw).symm

/-- The top of a piece belongs to it. -/
theorem top_mem {top : Nat} {c : Cluster} (h : Piece t weigh capacity top c) :
    top ∈ c.vertices := by
  obtain ⟨rest, hrest⟩ := h.head
  rw [hrest]
  exact List.mem_cons_self

/-- The piece of a child can join that of its parent. -/
theorem append {v w : Nat} {a b : Cluster} (ha : Piece t weigh capacity v a)
    (hb : Piece t weigh capacity w b) (hvw : t.IsParent v w)
    (hfits : Weight.add a.weight b.weight ≤ capacity) :
    Piece t weigh capacity v (a.append b) := by
  have hmem : ∀ x, x ∈ (a.append b).vertices ↔ x ∈ a.vertices ∨ x ∈ b.vertices :=
    fun x => List.mem_append
  refine ⟨?_, ?_, ?_, Or.inl hfits⟩
  · obtain ⟨rest, hrest⟩ := ha.head
    exact ⟨rest ++ b.vertices, by simp [Cluster.append, hrest]⟩
  · intro x hx
    rcases (hmem x).1 hx with hx | hx
    · refine (ha.connected x hx).lift id ?_
      rintro p q ⟨hpq, hq⟩
      exact ⟨hpq, (hmem q).2 (Or.inl hq)⟩
    · have hbelow := (hb.connected x hx).lift (p := fun p q => t.IsParent p q ∧
        q ∈ (a.append b).vertices) id fun p q hpq => ⟨hpq.1, (hmem q).2 (Or.inr hpq.2)⟩
      exact ReflTransGen.head ⟨hvw, (hmem w).2 (Or.inr hb.top_mem)⟩ hbelow
  · rw [Cluster.append, List.map_append, Weight.sum_append, ha.weight_eq, hb.weight_eq]

/-- No piece weighs more than the ceiling. -/
theorem weight_le_ceiling {top : Nat} {c : Cluster} (h : Piece t weigh capacity top c) :
    c.weight ≤ Weight.ceiling := by
  rw [h.weight_eq]
  exact Weight.sum_le_ceiling _

end Piece

/-! ## Refused clusters -/

/-- Every cluster of a list is part of one of another list, which weighs no less. -/
def Cluster.Within (before after : List Cluster) : Prop :=
  ∀ c ∈ before, ∃ d ∈ after, c.vertices ⊆ d.vertices ∧ c.weight ≤ d.weight

namespace Cluster.Within

/-- A larger list of clusters has what the smaller one has. -/
theorem of_subset {before after : List Cluster} (h : before ⊆ after) :
    Cluster.Within before after :=
  fun c hc => ⟨c, h hc, List.Subset.refl _, Nat.le_refl _⟩

/-- What is in some cluster stays in some cluster. -/
theorem trans {a b c : List Cluster} (hab : Cluster.Within a b) (hbc : Cluster.Within b c) :
    Cluster.Within a c := by
  intro x hx
  obtain ⟨y, hy, hxy, hlexy⟩ := hab x hx
  obtain ⟨z, hz, hyz, hleyz⟩ := hbc y hy
  exact ⟨z, hz, List.Subset.trans hxy hyz, Nat.le_trans hlexy hleyz⟩

/-- Two lists of clusters are within a third when each of them is. -/
theorem append {a b c : List Cluster} (ha : Cluster.Within a c) (hb : Cluster.Within b c) :
    Cluster.Within (a ++ b) c := by
  intro x hx
  rcases List.mem_append.1 hx with hx | hx
  · exact ha x hx
  · exact hb x hx

/-- Two clusters lie within the one that they are put together to. -/
theorem join {a b : Cluster} (rest : List Cluster) (ha : a.weight ≤ Weight.ceiling)
    (hb : b.weight ≤ Weight.ceiling) : Cluster.Within (a :: b :: rest) (a.append b :: rest) := by
  intro x hx
  rcases List.mem_cons.1 hx with rfl | hx
  · exact ⟨x.append b, List.mem_cons_self, List.subset_append_left _ _,
      Weight.le_add_right ha _⟩
  rcases List.mem_cons.1 hx with rfl | hx
  · exact ⟨a.append x, List.mem_cons_self, List.subset_append_right _ _, Weight.le_add_left hb _⟩
  · exact ⟨x, List.mem_cons_of_mem _ hx, List.Subset.refl _, Nat.le_refl _⟩

end Cluster.Within

/-- A piece of the tree is too heavy to join the cluster that holds the parent of its top. -/
def Refused (t : Arborescence) (weigh : Nat → Nat) (capacity : Nat) (clusters : List Cluster)
    (c : Cluster) : Prop :=
  ∃ top parent holder, Piece t weigh capacity top c ∧ t.IsParent parent top ∧
    holder ∈ clusters ∧ parent ∈ holder.vertices ∧
      capacity < Weight.add c.weight holder.weight

namespace Refused

/-- A refused cluster is a piece. -/
theorem exists_piece {clusters : List Cluster} {c : Cluster}
    (h : Refused t weigh capacity clusters c) : ∃ top, Piece t weigh capacity top c := by
  obtain ⟨top, parent, holder, hpiece, -⟩ := h
  exact ⟨top, hpiece⟩

/-- A refused cluster stays refused while the others grow. -/
theorem mono {before after : List Cluster} {c : Cluster}
    (h : Refused t weigh capacity before c) (hwithin : Cluster.Within before after) :
    Refused t weigh capacity after c := by
  obtain ⟨top, parent, holder, hpiece, hparent, hholder, hmem, hheavy⟩ := h
  obtain ⟨larger, hafter, hsub, hle⟩ := hwithin holder hholder
  exact ⟨top, parent, larger, hpiece, hparent, hafter, hsub hmem,
    Nat.lt_of_lt_of_le hheavy (Weight.add_le_add_left hle _)⟩

end Refused

/-! ## Taking growing clusters -/

namespace Cutting

/-- The cluster of a vertex is taken from where it stands. -/
theorem take?_append {before after : List (Nat × Cluster)} {v : Nat} {c : Cluster}
    {finished : List Cluster} (hbefore : ∀ entry ∈ before, entry.1 ≠ v)
    (hafter : ∀ entry ∈ after, entry.1 ≠ v) :
    take? ⟨before ++ (v, c) :: after, finished⟩ v = some (c, ⟨before ++ after, finished⟩) := by
  have hlookup : (before ++ (v, c) :: after).lookup v = some c := by
    rw [List.lookup_append, List.lookup_eq_none_iff.2, List.lookup_cons_self]
    · rfl
    · intro entry hentry
      exact bne_iff_ne.2 (Ne.symm (hbefore entry hentry))
  have hkeep : ∀ l : List (Nat × Cluster), (∀ entry ∈ l, entry.1 ≠ v) →
      l.filter (·.1 != v) = l := by
    intro l hl
    rw [List.filter_eq_self]
    intro entry hentry
    simpa using hl entry hentry
  simp only [take?, hlookup, Option.map_some, List.filter_append, List.filter_cons,
    bne_self_eq_false, Bool.false_eq_true, if_false, hkeep before hbefore, hkeep after hafter]

/-- When a vertex is visited every growing cluster of a child joins or is refused. -/
theorem foldl_absorb {v : Nat} {ps base : List (Nat × Cluster)} {own : Cluster}
    (finished : List Cluster) (hown : Piece t weigh capacity v own)
    (hps : ∀ p ∈ ps, t.IsParent v p.1 ∧ Piece t weigh capacity p.1 p.2)
    (hnodup : (ps.map (·.1)).Nodup) (hbase : ∀ entry ∈ base, entry.1 ∉ ps.map (·.1)) :
    ∃ cluster more, (ps.map (·.1)).foldl (absorb capacity)
        (own, ⟨ps.reverse ++ base, finished⟩) = (cluster, ⟨base, finished ++ more⟩) ∧
      Piece t weigh capacity v cluster ∧
      Cluster.Within (own :: ps.map (·.2)) (cluster :: more) ∧
      (∀ c ∈ more, Refused t weigh capacity (cluster :: more) c) ∧
      (cluster.vertices ++ more.flatMap (·.vertices)).Perm
        (own.vertices ++ ps.flatMap (·.2.vertices)) := by
  induction ps generalizing own finished with
  | nil => exact ⟨own, [], by simp, hown, .of_subset (by simp), by simp, by simp⟩
  | cons p ps ih =>
    obtain ⟨child, sub⟩ := p
    obtain ⟨hparent, hpiece⟩ := hps _ List.mem_cons_self
    rw [List.map_cons, List.nodup_cons] at hnodup
    have hrest : ∀ q ∈ ps, t.IsParent v q.1 ∧ Piece t weigh capacity q.1 q.2 :=
      fun q hq => hps q (List.mem_cons_of_mem _ hq)
    have hbase' : ∀ entry ∈ base, entry.1 ∉ ps.map (·.1) := by
      intro entry hentry hmem
      exact hbase entry hentry (List.mem_cons_of_mem _ hmem)
    have htake : take? ⟨((child, sub) :: ps).reverse ++ base, finished⟩ child =
        some (sub, ⟨ps.reverse ++ base, finished⟩) := by
      rw [List.reverse_cons, List.append_assoc, List.singleton_append]
      refine take?_append ?_ ?_
      · intro entry hentry heq
        exact hnodup.1 (List.mem_map.2 ⟨entry, List.mem_reverse.1 hentry, heq⟩)
      · intro entry hentry heq
        exact hbase entry hentry (List.mem_cons.2 (Or.inl heq))
    rw [List.map_cons, List.foldl_cons]
    by_cases hfits : Weight.add own.weight sub.weight ≤ capacity
    · have habsorb : absorb capacity (own, ⟨((child, sub) :: ps).reverse ++ base, finished⟩) child =
          (own.append sub, ⟨ps.reverse ++ base, finished⟩) := by
        simp only [absorb, htake, if_pos hfits]
      obtain ⟨cluster, more, heq, hcluster, hwithin, hmore, hperm⟩ :=
        ih finished (hown.append hpiece hparent hfits) hrest hnodup.2 hbase'
      refine ⟨cluster, more, ?_, hcluster, ?_, hmore, ?_⟩
      · rw [habsorb, heq]
      · exact (Cluster.Within.join _ hown.weight_le_ceiling hpiece.weight_le_ceiling).trans
          hwithin
      · rw [List.flatMap_cons, ← List.append_assoc]
        exact hperm
    · have habsorb : absorb capacity (own, ⟨((child, sub) :: ps).reverse ++ base, finished⟩) child =
          (own, ⟨ps.reverse ++ base, finished ++ [sub]⟩) := by
        simp only [absorb, htake, if_neg hfits]
      obtain ⟨cluster, more, heq, hcluster, hwithin, hmore, hperm⟩ :=
        ih (finished ++ [sub]) hown hrest hnodup.2 hbase'
      have hkept : Cluster.Within (cluster :: more) (cluster :: sub :: more) :=
        .of_subset (List.cons_subset_cons _ (List.subset_cons_self _ _))
      have hrefused : Refused t weigh capacity (own :: ps.map (·.2)) sub := by
        refine ⟨child, v, own, hpiece, hparent, List.mem_cons_self, hown.top_mem, ?_⟩
        rw [Weight.add_comm]
        exact Nat.lt_of_not_le hfits
      refine ⟨cluster, sub :: more, ?_, hcluster, ?_, ?_, ?_⟩
      · rw [habsorb, heq, List.append_assoc, List.singleton_append]
      · have hsub : Cluster.Within [sub] (cluster :: sub :: more) := .of_subset (by simp)
        have hall := hsub.append (hwithin.trans hkept)
        exact (Cluster.Within.of_subset (List.Perm.swap _ _ _).subset).trans hall
      · intro c hc
        rcases List.mem_cons.1 hc with rfl | hc
        · exact hrefused.mono (hwithin.trans hkept)
        · exact (hmore c hc).mono hkept
      · rw [List.flatMap_cons, List.flatMap_cons]
        refine (List.perm_append_comm_assoc _ _ _).trans ?_
        refine (hperm.append_left _).trans ?_
        exact List.perm_append_comm_assoc _ _ _

/-! ## Cutting subtrees -/

/-- A subtree was cut: the cluster of its top is growing, and the others inside it
are finished. -/
structure Cut (t : Arborescence) (weigh : Nat → Nat) (capacity v : Nat) (vertices : List Nat)
    (before : Cutting) (cluster : Cluster) (more : List Cluster) (after : Cutting) : Prop where
  eq : after = ⟨(v, cluster) :: before.growing, before.finished ++ more⟩
  piece : Piece t weigh capacity v cluster
  refused : ∀ c ∈ more, Refused t weigh capacity (cluster :: more) c
  perm : (cluster.vertices ++ more.flatMap (·.vertices)).Perm vertices

/-- Cutting the subtrees of some children leaves their clusters growing. -/
theorem foldl_visit_children {v height : Nat} {cs : List Nat} (before : Cutting)
    (hcs : ∀ c ∈ cs, t.IsParent v c)
    (hcut : ∀ c ∈ cs, ∀ cutting : Cutting, (∀ entry ∈ cutting.growing,
      entry.1 ∉ t.subtree height c) → ∃ cluster more, Cut t weigh capacity c
        (t.subtree height c) cutting cluster more
        ((t.subtree height c).foldl (visit t weigh capacity) cutting))
    (htop : ∀ c ∈ cs, c ∈ t.subtree height c)
    (hnodup : (cs.flatMap (t.subtree height)).Nodup)
    (hfresh : ∀ entry ∈ before.growing, entry.1 ∉ cs.flatMap (t.subtree height)) :
    ∃ (ps : List (Nat × Cluster)) (more : List Cluster), ps.map (·.1) = cs ∧
      (cs.flatMap (t.subtree height)).foldl (visit t weigh capacity) before =
        ⟨ps.reverse ++ before.growing, before.finished ++ more⟩ ∧
      (∀ p ∈ ps, t.IsParent v p.1 ∧ Piece t weigh capacity p.1 p.2) ∧
      (∀ c ∈ more, Refused t weigh capacity (ps.map (·.2) ++ more) c) ∧
      (ps.flatMap (·.2.vertices) ++ more.flatMap (·.vertices)).Perm
        (cs.flatMap (t.subtree height)) := by
  induction cs generalizing before with
  | nil => exact ⟨[], [], rfl, by simp, by simp, by simp, by simp⟩
  | cons c cs ih =>
    rw [List.flatMap_cons, List.nodup_append] at hnodup
    obtain ⟨-, hnodup', hdisjoint⟩ := hnodup
    obtain ⟨cluster, more, hcutc⟩ := hcut c List.mem_cons_self before (by
      intro entry hentry hmem
      exact hfresh entry hentry (List.mem_flatMap.2 ⟨c, List.mem_cons_self, hmem⟩))
    have hfresh' : ∀ entry ∈ (c, cluster) :: before.growing,
        entry.1 ∉ cs.flatMap (t.subtree height) := by
      intro entry hentry hmem
      rcases List.mem_cons.1 hentry with rfl | hentry
      · exact hdisjoint c (htop c List.mem_cons_self) c hmem rfl
      · refine hfresh entry hentry ?_
        rw [List.flatMap_cons]
        exact List.mem_append_right _ hmem
    obtain ⟨ps, more', hps, heq, hpieces, hmore, hperm⟩ :=
      ih ⟨(c, cluster) :: before.growing, before.finished ++ more⟩
        (fun d hd => hcs d (List.mem_cons_of_mem _ hd))
        (fun d hd => hcut d (List.mem_cons_of_mem _ hd))
        (fun d hd => htop d (List.mem_cons_of_mem _ hd)) hnodup' hfresh'
    refine ⟨(c, cluster) :: ps, more ++ more', by rw [List.map_cons, hps], ?_, ?_, ?_, ?_⟩
    · rw [List.flatMap_cons, List.foldl_append, hcutc.eq, heq]
      simp
    · intro p hp
      rcases List.mem_cons.1 hp with rfl | hp
      · exact ⟨hcs c List.mem_cons_self, hcutc.piece⟩
      · exact hpieces p hp
    · intro d hd
      rcases List.mem_append.1 hd with hd | hd
      · refine (hcutc.refused d hd).mono (.of_subset ?_)
        intro x hx
        simp only [List.map_cons, List.mem_append, List.mem_cons] at hx ⊢
        tauto
      · refine (hmore d hd).mono (.of_subset ?_)
        intro x hx
        simp only [List.map_cons, List.mem_append, List.mem_cons] at hx ⊢
        tauto
    · rw [List.flatMap_cons, List.flatMap_append, List.flatMap_cons]
      have hswap : (cluster.vertices ++ ps.flatMap (·.2.vertices) ++
          (more.flatMap (·.vertices) ++ more'.flatMap (·.vertices))).Perm
          (cluster.vertices ++ more.flatMap (·.vertices) ++
            (ps.flatMap (·.2.vertices) ++ more'.flatMap (·.vertices))) := by
        simp only [List.append_assoc]
        exact (List.perm_append_comm_assoc _ _ _).append_left _
      exact hswap.trans (hcutc.perm.append hperm)

/-- Cutting a subtree leaves the cluster of its top growing and loses no vertex. -/
theorem foldl_visit_subtree (capacity : Nat) {vertices : List Nat} (h : t.Spans vertices)
    (hweigh : ∀ v, weigh v ≤ Weight.ceiling) {height k v : Nat} (hk : t.AtDepth k v)
    (hs : t.Shallow height v) (before : Cutting)
    (hfresh : ∀ entry ∈ before.growing, entry.1 ∉ t.subtree height v) :
    ∃ cluster more, Cut t weigh capacity v (t.subtree height v) before cluster more
      ((t.subtree height v).foldl (visit t weigh capacity) before) := by
  induction height generalizing k v before with
  | zero => exact hs.elim
  | succ height ih =>
    have hnodup := h.nodup_subtree hk hs
    rw [Arborescence.subtree] at hfresh hnodup ⊢
    rw [List.nodup_append] at hnodup
    have hparent : ∀ c ∈ t.children v, t.IsParent v c := fun c hc =>
      Arborescence.mem_children.1 hc
    obtain ⟨ps, more, hps, heq, hpieces, hmore, hperm⟩ := foldl_visit_children before hparent
      (fun c hc cutting hcutting => ih (hk.child (hparent c hc)) (hs c hc) cutting hcutting)
      (fun c hc => (Arborescence.mem_subtree (hs c hc)).2 ReflTransGen.refl) hnodup.1
      (fun entry hentry hmem => hfresh entry hentry (List.mem_append_left _ hmem))
    have hkeys : ∀ entry ∈ before.growing, entry.1 ∉ ps.map (·.1) := by
      rw [hps]
      intro entry hentry hmem
      refine hfresh entry hentry (List.mem_append_left _ (List.mem_flatMap.2 ⟨_, hmem, ?_⟩))
      exact (Arborescence.mem_subtree (hs _ hmem)).2 ReflTransGen.refl
    obtain ⟨cluster, refused, habsorb, hcluster, hwithin, hrefused, hperm'⟩ :=
      foldl_absorb (before.finished ++ more) (Piece.single (hweigh v)) hpieces
        (by rw [hps]; exact h.nodup_children v) hkeys
    rw [hps] at habsorb
    refine ⟨cluster, more ++ refused, ?_, hcluster, ?_, ?_⟩
    · rw [List.foldl_append, heq, List.foldl_cons, List.foldl_nil, visit, habsorb,
        List.append_assoc]
    · have hlast : Cluster.Within (cluster :: refused) (cluster :: (more ++ refused)) :=
        .of_subset (List.cons_subset_cons _ (List.subset_append_right _ _))
      have hfirst : Cluster.Within (ps.map (·.2) ++ more) (cluster :: (more ++ refused)) :=
        ((Cluster.Within.of_subset (List.subset_cons_self _ _)).trans (hwithin.trans hlast)).append
          (.of_subset (List.subset_cons_of_subset _ (List.subset_append_left _ _)))
      intro c hc
      rcases List.mem_append.1 hc with hc | hc
      · exact (hmore c hc).mono hfirst
      · exact (hrefused c hc).mono hlast
    · rw [List.flatMap_append]
      refine (List.perm_append_comm_assoc _ _ _).trans ?_
      refine (hperm'.append_left _).trans ?_
      refine List.perm_append_comm.trans ?_
      rw [Cluster.single, List.append_assoc]
      exact List.perm_append_comm.trans (hperm.append_right [v])

end Cutting

/-! ## All clusters -/

/-- What cutting the whole tree gives: a piece below the root, after refused pieces
that with it hold every vertex once. -/
theorem Arborescence.Spans.clusters_eq {vertices : List Nat} (h : t.Spans vertices)
    (hweigh : ∀ v, weigh v ≤ Weight.ceiling) (capacity : Nat) :
    ∃ cluster more, t.clusters weigh capacity = more ++ [cluster] ∧
      Piece t weigh capacity t.root cluster ∧
      (∀ c ∈ more, Refused t weigh capacity (cluster :: more) c) ∧
      (cluster.vertices ++ more.flatMap (·.vertices)).Perm vertices := by
  have hs := h.shallow vertices.length .root (by omega)
  obtain ⟨cluster, more, hcut⟩ := Cutting.foldl_visit_subtree capacity h hweigh .root hs {}
    (by simp)
  refine ⟨cluster, more, ?_, hcut.piece, hcut.refused, hcut.perm.trans h.subtree_root_perm⟩
  have htake : Cutting.take? ⟨[] ++ (t.root, cluster) :: [], more⟩ t.root =
      some (cluster, ⟨[] ++ [], more⟩) := Cutting.take?_append (by simp) (by simp)
  rw [Arborescence.clusters, h.postOrder_eq, hcut.eq, Cutting.close]
  simp only [List.nil_append] at htake ⊢
  rw [htake]

section Clusters

variable {vertices : List Nat}

/-- The clusters together hold every vertex once. -/
theorem Arborescence.Spans.clusters_perm (h : t.Spans vertices)
    (hweigh : ∀ v, weigh v ≤ Weight.ceiling) :
    ((t.clusters weigh capacity).flatMap (·.vertices)).Perm vertices := by
  obtain ⟨cluster, more, heq, -, -, hperm⟩ := h.clusters_eq hweigh capacity
  rw [heq, List.flatMap_append, List.flatMap_singleton]
  exact List.perm_append_comm.trans hperm

/-- Every cluster is a connected piece of the tree. -/
theorem Arborescence.Spans.exists_piece (h : t.Spans vertices)
    (hweigh : ∀ v, weigh v ≤ Weight.ceiling) {c : Cluster} (hc : c ∈ t.clusters weigh capacity) :
    ∃ top, Piece t weigh capacity top c := by
  obtain ⟨cluster, more, heq, hpiece, hrefused, -⟩ := h.clusters_eq hweigh capacity
  rw [heq, List.mem_append, List.mem_singleton] at hc
  rcases hc with hc | rfl
  · exact (hrefused c hc).exists_piece
  · exact ⟨t.root, hpiece⟩

/-- A tree is cut greedily: the clusters hold every vertex once, the last one is the piece
below the root, and none of the others could have joined the cluster that holds the parent
of its top. -/
theorem Arborescence.Spans.clusters_greedy (h : t.Spans vertices)
    (hweigh : ∀ v, weigh v ≤ Weight.ceiling) (capacity : Nat) :
    ∃ more last, t.clusters weigh capacity = more ++ [last] ∧
      ((more ++ [last]).flatMap (·.vertices)).Perm vertices ∧
      Piece t weigh capacity t.root last ∧
      ∀ c ∈ more, Refused t weigh capacity (more ++ [last]) c := by
  obtain ⟨last, more, heq, hpiece, hrefused, -⟩ := h.clusters_eq hweigh capacity
  refine ⟨more, last, heq, ?_, hpiece, ?_⟩
  · rw [← heq]
    exact h.clusters_perm hweigh
  · intro c hc
    refine (hrefused c hc).mono (.of_subset ?_)
    simp

/-- A function that calls two others. -/
def Arborescence.fork : Arborescence := ⟨0, [(0, 1), (0, 2)]⟩

theorem Arborescence.spans_fork : fork.Spans [0, 1, 2] := by
  have hparent : ∀ p c, fork.IsParent p c ↔ p = 0 ∧ (c = 1 ∨ c = 2) := by
    intro p c
    simp only [IsParent, fork, List.mem_cons, Prod.mk.injEq, List.not_mem_nil, or_false]
    tauto
  refine ⟨by decide, by decide, ?_, by decide, ?_⟩
  · intro p c hpc
    rw [((hparent p c).1 hpc).1]
    exact List.mem_cons_self
  · intro v hv
    rcases List.mem_cons.1 hv with rfl | hv
    · exact ReflTransGen.refl
    · exact ReflTransGen.single ((hparent 0 v).2 ⟨rfl, by simpa using hv⟩)

/-- Of two functions that are called, the one that exceeds the capacity alone is refused. -/
theorem Arborescence.Spans.clusters_greedy_fork :
    fork.Spans [0, 1, 2] ∧ (∀ v, [2, 9, 3].getD v 0 ≤ Weight.ceiling) ∧
      fork.clusters ([2, 9, 3].getD · 0) 6 = [⟨[1], 9⟩, ⟨[0, 2], 5⟩] ∧
      Refused fork ([2, 9, 3].getD · 0) 6 [⟨[1], 9⟩, ⟨[0, 2], 5⟩] ⟨[1], 9⟩ := by
  have hweigh : ∀ v, [2, 9, 3].getD v 0 ≤ Weight.ceiling := by
    intro v
    rcases v with _ | _ | _ | v
    · decide
    · decide
    · decide
    · exact Nat.zero_le _
  have hcut : fork.clusters ([2, 9, 3].getD · 0) 6 = [⟨[1], 9⟩, ⟨[0, 2], 5⟩] := by decide
  refine ⟨spans_fork, hweigh, hcut, ?_⟩
  obtain ⟨more, last, heq, -, -, hrefused⟩ := spans_fork.clusters_greedy hweigh 6
  rw [hcut] at heq
  have hsplit : [⟨[1], 9⟩] ++ [⟨[0, 2], 5⟩] = more ++ [last] := heq
  obtain ⟨rfl, -⟩ := List.append_inj' hsplit rfl
  rw [← heq] at hrefused
  exact hrefused _ List.mem_cons_self

end Clusters

end FuzzCampaign

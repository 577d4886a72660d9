import Mathlib.Data.List.Nodup
import Mathlib.Data.List.Perm.Subperm
import Std.Data.HashMap

/-!
# Tables of numbers

A table finds the number of a thing by its key.  It is right when it leads from
every key to the number of the thing that has it and from no other key to anything.
A table that is right has one entry for each thing, and a table with so many entries
that finds each thing is right.

Main results:

- `Leads.insert`, `Leads.erase`: entering a new key, and striking one out.
- `leads_iff`: a table is right if and only if it finds each thing and has no more
  entries than there are things.
-/

namespace FuzzCampaign

variable {α : Type} [BEq α] [Hashable α] [LawfulBEq α]
variable {table : Std.HashMap α Nat} {key key' : Nat → Option α}

/-- The table leads from a key to the number that has it, and to nothing else. -/
def Leads (table : Std.HashMap α Nat) (key : Nat → Option α) : Prop :=
  ∀ k node, table[k]? = some node ↔ key node = some k

omit [LawfulBEq α] in
/-- No two numbers share a key. -/
theorem Leads.unique (h : Leads table key) {a b : Nat} {k : α} (ha : key a = some k)
    (hb : key b = some k) : a = b := by
  have hnode := (h k a).2 ha
  rw [(h k b).2 hb, Option.some.injEq] at hnode
  exact hnode.symm

/-- A new key is entered for a number that had none. -/
theorem Leads.insert (h : Leads table key) {k : α} {node : Nat} (hnew : table[k]? = none)
    (hvacant : key node = none)
    (hkey : ∀ other, key' other = if other = node then some k else key other) :
    Leads (table.insert k node) key' := by
  intro k' other
  rw [hkey, Std.HashMap.getElem?_insert]
  by_cases heq : k = k'
  · subst heq
    have hold : key other ≠ some k := by
      intro hsome
      rw [(h k other).2 hsome] at hnew
      exact absurd hnew (by simp)
    by_cases hnode : other = node
    · simp [hnode]
    · simp [hnode, Ne.symm hnode, hold]
  · simp only [beq_iff_eq, heq, if_false]
    rw [h]
    by_cases hnode : other = node
    · simp [hnode, hvacant, heq]
    · simp [hnode]

/-- The key of a number is struck out. -/
theorem Leads.erase (h : Leads table key) {k : α} {node : Nat} (hgone : key node = some k)
    (hkey : ∀ other, key' other = if other = node then none else key other) :
    Leads (table.erase k) key' := by
  intro k' other
  rw [hkey, Std.HashMap.getElem?_erase]
  by_cases heq : k = k'
  · subst heq
    have hother : other ≠ node → key other ≠ some k :=
      fun hne hsome => hne (h.unique hsome hgone)
    by_cases hnode : other = node
    · simp [hnode]
    · simp [hnode, hother hnode]
  · simp only [beq_iff_eq, heq, if_false]
    rw [h]
    by_cases hnode : other = node
    · simp [hnode, hgone, heq]
    · simp [hnode]

section Counting

variable {nodes : List Nat}

omit [BEq α] [Hashable α] [LawfulBEq α] in
/-- Every listed number has a key, so that there are as many keys as numbers. -/
theorem length_filterMap_key (hnodes : ∀ node ∈ nodes, (key node).isSome) :
    (nodes.filterMap key).length = nodes.length := by
  induction nodes with
  | nil => rfl
  | cons node nodes ih =>
    obtain ⟨k, hk⟩ := Option.isSome_iff_exists.1 (hnodes node List.mem_cons_self)
    rw [List.filterMap_cons_some hk, List.length_cons, List.length_cons,
      ih fun other hother => hnodes other (List.mem_cons_of_mem _ hother)]

omit [LawfulBEq α] in
/-- Numbers that a table finds have keys of their own. -/
theorem nodup_filterMap_key (hnodup : nodes.Nodup)
    (hfind : ∀ node ∈ nodes, ∀ k, key node = some k → table[k]? = some node) :
    (nodes.filterMap key).Nodup := by
  rw [List.Nodup, List.pairwise_filterMap]
  refine hnodup.imp_of_mem ?_
  rintro a b ha hb hne k hk l hl rfl
  have hsame := (hfind a ha k hk).symm.trans (hfind b hb k hl)
  exact hne (Option.some.inj hsame)

/-- A table is right if and only if it finds every number and has no other entries. -/
theorem leads_iff (hnodup : nodes.Nodup) (hnodes : ∀ node, node ∈ nodes ↔ (key node).isSome) :
    (table.size = nodes.length ∧
      ∀ node ∈ nodes, ∀ k, key node = some k → table[k]? = some node) ↔ Leads table key := by
  have hlength := length_filterMap_key fun node hnode => (hnodes node).1 hnode
  constructor
  · rintro ⟨hsize, hfind⟩
    have hsub : nodes.filterMap key ⊆ table.keys := by
      intro k hk
      obtain ⟨node, hnode, hkey⟩ := List.mem_filterMap.1 hk
      rw [Std.HashMap.mem_keys, Std.HashMap.mem_iff_isSome_getElem?, hfind node hnode k hkey]
      rfl
    have hperm : (nodes.filterMap key).Perm table.keys := by
      refine ((nodup_filterMap_key hnodup hfind).subperm hsub).perm_of_length_le (Nat.le_of_eq ?_)
      rw [Std.HashMap.length_keys, hlength, hsize]
    intro k node
    constructor
    · intro hsome
      have hmem : k ∈ table.keys := by
        rw [Std.HashMap.mem_keys, Std.HashMap.mem_iff_isSome_getElem?, hsome]
        rfl
      obtain ⟨found, hfound, hkey⟩ := List.mem_filterMap.1 (hperm.mem_iff.2 hmem)
      rw [hfind found hfound k hkey, Option.some.injEq] at hsome
      exact hsome ▸ hkey
    · intro hkey
      exact hfind node ((hnodes node).2 (by rw [hkey]; rfl)) k hkey
  · intro h
    have hfind : ∀ node ∈ nodes, ∀ k, key node = some k → table[k]? = some node :=
      fun node _ k hkey => (h k node).2 hkey
    refine ⟨?_, hfind⟩
    have hperm : (nodes.filterMap key).Perm table.keys := by
      rw [List.perm_ext_iff_of_nodup (nodup_filterMap_key hnodup hfind) Std.HashMap.nodup_keys]
      intro k
      rw [List.mem_filterMap, Std.HashMap.mem_keys, Std.HashMap.mem_iff_isSome_getElem?,
        Option.isSome_iff_exists]
      constructor
      · rintro ⟨node, -, hkey⟩
        exact ⟨node, (h k node).2 hkey⟩
      · rintro ⟨node, hsome⟩
        have hkey := (h k node).1 hsome
        exact ⟨node, (hnodes node).2 (by rw [hkey]; rfl), hkey⟩
    rw [← hlength, hperm.length_eq, Std.HashMap.length_keys]

end Counting

end FuzzCampaign

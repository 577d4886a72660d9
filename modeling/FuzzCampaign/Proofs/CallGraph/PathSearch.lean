import FuzzCampaign.Proofs.CallGraph.FrontierOrder
import FuzzCampaign.Proofs.CallGraph.Reachability
import Mathlib.Data.List.Chain

/-!
# What the path search records

Everything that the search has seen but the start is the callee of its recorded caller, and
every sighting is of a function that was seen, at that distance or nearer.  Relaxing a
callee keeps this, never makes a distance larger, and adds one sighting at most.

Main definitions:

- `CallPath`: consecutive functions of a list call each other.
- `PathSearch.Recorded`: what the search knows is right.
- `PathSearch.Relaxed`: what relaxing some callees leaves.

Main results:

- `CallPath.init`: a walk is a single function or ends with a call.
- `PathSearch.Recorded.foldl_relax` and `PathSearch.Recorded.take`: what was recorded stays
  right.
-/

namespace FuzzCampaign

namespace CallGraph

variable {g : CallGraph} {start goal : Nat}

/-- A list of functions starts at `start`, ends at `goal`, and each calls the
next. -/
structure CallPath (g : CallGraph) (start goal : Nat) (path : List Nat) : Prop where
  head : path.head? = some start
  last : path.getLast? = some goal
  chain : path.IsChain g.Calls

/-- From a node to itself no call is needed. -/
theorem CallPath.single (g : CallGraph) (node : Nat) : g.CallPath node node [node] :=
  ⟨rfl, rfl, List.isChain_singleton _⟩

/-- A path can be continued by a call. -/
theorem CallPath.snoc {start caller callee : Nat} {path : List Nat}
    (h : g.CallPath start caller path) (hcall : g.Calls caller callee) :
    g.CallPath start callee (path ++ [callee]) := by
  refine ⟨?_, by simp, ?_⟩
  · rw [List.head?_append, h.head]
    rfl
  · rw [List.isChain_append]
    refine ⟨h.chain, List.isChain_singleton _, ?_⟩
    intro x hx y hy
    rw [h.last, Option.mem_some_iff] at hx
    rw [List.head?_cons, Option.mem_some_iff] at hy
    exact hx ▸ hy ▸ hcall

/-- A walk that ends with a call, without that call. -/
theorem CallPath.init {walk : List Nat} {last : Nat} (h : g.CallPath start goal (walk ++ [last])) :
    last = goal ∧ (walk = [] ∧ start = goal ∨
      ∃ caller, g.CallPath start caller walk ∧ g.Calls caller goal) := by
  have hlast := h.last
  rw [List.getLast?_concat, Option.some.injEq] at hlast
  subst hlast
  refine ⟨rfl, ?_⟩
  rcases List.eq_nil_or_concat walk with rfl | ⟨before, caller, rfl⟩
  · have hhead := h.head
    rw [List.nil_append, List.head?_cons, Option.some.injEq] at hhead
    exact Or.inl ⟨rfl, hhead.symm⟩
  · obtain ⟨hbefore, -, hcall⟩ := List.isChain_append.1 h.chain
    refine Or.inr ⟨caller, ⟨?_, by simp, hbefore⟩, hcall caller (by simp) last (by simp)⟩
    have hhead := h.head
    rwa [List.head?_append_of_ne_nil _ (by simp)] at hhead

/-- Where a path leads is reached. -/
theorem CallPath.reaches {walk : List Nat} (h : g.CallPath start goal walk) :
    g.Reaches start goal := by
  induction walk using List.reverseRecOn generalizing goal with
  | nil => exact absurd h.head (by simp)
  | append_singleton walk last ih =>
    obtain ⟨-, ⟨-, rfl⟩ | ⟨caller, hwalk, hcall⟩⟩ := h.init
    · exact .refl
    · exact (ih hwalk).tail hcall

end CallGraph

/-! ## What the search has recorded -/

namespace PathSearch

open CallGraph

variable {g : CallGraph} {start : Nat} {s : PathSearch}

/-- Every function that was seen, apart from the start, was seen from a caller, and every
sighting is of a function that was seen. -/
structure Recorded (g : CallGraph) (start : Nat) (s : PathSearch) : Prop where
  seen_start : s.distance? start = some 0
  caller : ∀ v c, s.caller? v = some c → g.Calls c v
  start_of_none : ∀ v d, s.distance? v = some d → s.caller? v = none → v = start
  distance_lt : ∀ v d, s.distance? v = some d → d < s.seen.length
  frontier : ∀ x ∈ s.frontier.entries.toList, x.distance < s.seen.length ∧
    ∃ d ≤ x.distance, s.distance? x.node = some d

/-- A recorded callee has the distance that was recorded, and the others keep theirs. -/
theorem distance?_record (s : PathSearch) (callee distance caller v : Nat) :
    (s.record callee distance caller).distance? v =
      if v = callee then some distance else s.distance? v := by
  simp only [distance?, record, List.lookup_cons]
  by_cases hv : v = callee
  · simp [hv]
  · simp [hv, beq_eq_false_iff_ne.2 hv]

/-- A recorded callee has the caller that was recorded, and the others keep theirs. -/
theorem caller?_record (s : PathSearch) (callee distance caller v : Nat) :
    (s.record callee distance caller).caller? v =
      if v = callee then some caller else s.caller? v := by
  simp only [caller?, record, List.lookup_cons]
  by_cases hv : v = callee
  · simp [hv]
  · simp [hv, beq_eq_false_iff_ne.2 hv]

/-- Recording a nearer way only shrinks distances. -/
theorem exists_distance?_record {callee distance : Nat} (caller : Nat)
    (hnearer : ∀ known, s.distance? callee = some known → distance < known) {v d : Nat}
    (hd : s.distance? v = some d) :
    ∃ e ≤ d, (s.record callee distance caller).distance? v = some e := by
  rw [distance?_record]
  split
  · rename_i hv
    subst hv
    exact ⟨distance, Nat.le_of_lt (hnearer d hd), rfl⟩
  · exact ⟨d, Nat.le_refl _, hd⟩

/-- A callee is recorded unless it is known to be as near. -/
theorem relax_cases (s : PathSearch) (caller distance callee : Nat) :
    (s.relax caller distance callee = s ∧ ∃ known ≤ distance, s.distance? callee = some known) ∨
      s.relax caller distance callee = s.record callee distance caller ∧
        ∀ known, s.distance? callee = some known → distance < known := by
  rw [PathSearch.relax]
  cases hknown : s.distance? callee with
  | none => exact Or.inr ⟨rfl, by simp⟩
  | some known =>
    by_cases hle : known ≤ distance
    · exact Or.inl ⟨by simp only [if_pos hle], known, hle, rfl⟩
    · refine Or.inr ⟨by simp only [if_neg hle], ?_⟩
      rintro other ⟨rfl⟩
      exact Nat.lt_of_not_le hle

/-- At the start, the start alone has a distance. -/
theorem distance?_starting (start v : Nat) :
    (starting start).distance? v = if v = start then some 0 else none := by
  simp only [distance?, starting, List.lookup_cons]
  by_cases hv : v = start
  · simp [hv]
  · simp [hv, beq_eq_false_iff_ne.2 hv]

/-- At the start nobody has a caller. -/
theorem caller?_starting (start v : Nat) : (starting start).caller? v = none := by
  simp only [caller?, starting, List.lookup_cons]
  split <;> rfl

/-- A search starts with one sighting. -/
theorem mem_frontier_starting {start : Nat} {x : Sighting} :
    x ∈ (starting start).frontier.entries.toList ↔ x = ⟨0, start⟩ := by
  rw [starting, (Frontier.push_perm {} ⟨0, start⟩).mem_iff]
  simp

/-- At the start nothing is recorded that is no path. -/
theorem recorded_starting (g : CallGraph) (start : Nat) : Recorded g start (starting start) := by
  refine ⟨by simp [distance?_starting], ?_, ?_, ?_, ?_⟩
  · intro v c hc
    simp [caller?_starting] at hc
  · intro v d hd _
    by_contra hv
    simp [distance?_starting, hv] at hd
  · intro v d hd
    rw [distance?_starting] at hd
    split at hd
    · rw [← Option.some.inj hd]
      exact Nat.one_pos
    · exact absurd hd (by simp)
  · intro x hx
    obtain rfl := mem_frontier_starting.1 hx
    exact ⟨Nat.one_pos, 0, Nat.le_refl _, by simp [distance?_starting]⟩

namespace Recorded

/-- A nearer way to a function is recorded. -/
theorem record (h : Recorded g start s) {callee distance caller : Nat}
    (hcall : g.Calls caller callee) (hlt : distance ≤ s.seen.length)
    (hnearer : ∀ known, s.distance? callee = some known → distance < known) :
    Recorded g start (s.record callee distance caller) := by
  have hlength : (s.record callee distance caller).seen.length = s.seen.length + 1 := rfl
  have hstart : start ≠ callee := by
    rintro rfl
    exact absurd (hnearer 0 h.seen_start) (Nat.not_lt_zero _)
  refine ⟨?_, ?_, ?_, ?_, ?_⟩
  · rw [distance?_record, if_neg hstart]
    exact h.seen_start
  · intro v c hc
    rw [caller?_record] at hc
    split at hc
    · rename_i hv
      rw [hv, ← Option.some.inj hc]
      exact hcall
    · exact h.caller v c hc
  · intro v d hd hnone
    rw [caller?_record] at hnone
    rw [distance?_record] at hd
    split at hnone
    · exact absurd hnone (by simp)
    · rename_i hv
      rw [if_neg hv] at hd
      exact h.start_of_none v d hd hnone
  · intro v d hd
    rw [hlength]
    rw [distance?_record] at hd
    split at hd
    · rw [Option.some.injEq] at hd
      omega
    · exact Nat.lt_succ_of_lt (h.distance_lt v d hd)
  · intro x hx
    rw [hlength]
    rcases List.mem_cons.1 ((Frontier.push_perm s.frontier ⟨distance, callee⟩).mem_iff.1 hx) with
      rfl | hx
    · refine ⟨Nat.lt_succ_of_le hlt, distance, Nat.le_refl _, ?_⟩
      rw [distance?_record, if_pos rfl]
    · obtain ⟨hlt', d, hd, hold⟩ := h.frontier x hx
      obtain ⟨e, hle, hnew⟩ := exists_distance?_record caller hnearer hold
      exact ⟨Nat.lt_succ_of_lt hlt', e, by omega, hnew⟩

/-- A callee of the function that is expanded is recorded or known to be as near. -/
theorem relax (h : Recorded g start s) {caller distance : Nat} (callee : Nat)
    (hcall : g.Calls caller callee) (hlt : distance ≤ s.seen.length) :
    Recorded g start (s.relax caller distance callee) := by
  rcases relax_cases s caller distance callee with ⟨heq, -⟩ | ⟨heq, hnearer⟩
  · rw [heq]
    exact h
  · rw [heq]
    exact h.record hcall hlt hnearer

end Recorded

/-- What relaxing some callees leaves: no distance becomes larger, nothing is expanded, and
at most one sighting for each callee is added. -/
structure Relaxed (s s' : PathSearch) (callees : List Nat) : Prop where
  expanded_eq : s'.expanded = s.expanded
  length_le : s.seen.length ≤ s'.seen.length
  nearer : ∀ v d, s.distance? v = some d → ∃ e ≤ d, s'.distance? v = some e
  size_le : s'.frontier.entries.toList.length ≤ s.frontier.entries.toList.length + callees.length

/-- One callee is relaxed. -/
theorem relaxed_relax (s : PathSearch) (caller distance callee : Nat) :
    Relaxed s (s.relax caller distance callee) [callee] := by
  rcases relax_cases s caller distance callee with ⟨heq, -⟩ | ⟨heq, hnearer⟩
  · rw [heq]
    exact ⟨rfl, Nat.le_refl _, fun _ d h => ⟨d, Nat.le_refl _, h⟩, Nat.le_succ _⟩
  · rw [heq]
    exact ⟨rfl, Nat.le_succ _, fun _ _ => exists_distance?_record caller hnearer,
      Nat.le_of_eq (Frontier.push_perm s.frontier ⟨distance, callee⟩).length_eq⟩

/-- Callees that are relaxed in two steps are relaxed. -/
theorem Relaxed.trans {s s' s'' : PathSearch} {a b : List Nat} (h : Relaxed s s' a)
    (h' : Relaxed s' s'' b) : Relaxed s s'' (a ++ b) := by
  refine ⟨h'.expanded_eq.trans h.expanded_eq, h.length_le.trans h'.length_le, ?_, ?_⟩
  · intro v d hd
    obtain ⟨e, hle, he⟩ := h.nearer v d hd
    obtain ⟨e', hle', he'⟩ := h'.nearer v e he
    exact ⟨e', hle'.trans hle, he'⟩
  · have hle := h.size_le
    have hle' := h'.size_le
    rw [List.length_append]
    omega

/-- The callees of a function are relaxed, one after the other. -/
theorem relaxed_foldl (s : PathSearch) (caller distance : Nat) (callees : List Nat) :
    Relaxed s (callees.foldl (PathSearch.relax caller distance) s) callees := by
  induction callees generalizing s with
  | nil => exact ⟨rfl, Nat.le_refl _, fun _ d h => ⟨d, Nat.le_refl _, h⟩, Nat.le_refl _⟩
  | cons callee callees ih => exact (relaxed_relax s caller distance callee).trans (ih _)

/-- Relaxing all callees of a function keeps what was recorded. -/
theorem Recorded.foldl_relax (h : Recorded g start s) {caller distance : Nat} (callees : List Nat)
    (hcalls : ∀ callee ∈ callees, g.Calls caller callee) (hlt : distance ≤ s.seen.length) :
    Recorded g start (callees.foldl (PathSearch.relax caller distance) s) := by
  induction callees generalizing s with
  | nil => exact h
  | cons callee callees ih =>
    exact ih (h.relax callee (hcalls callee List.mem_cons_self) hlt)
      (fun other hother => hcalls other (List.mem_cons_of_mem _ hother))
      (hlt.trans (relaxed_relax s caller distance callee).length_le)

/-- What was recorded stays right when a sighting is taken and a function is expanded. -/
theorem Recorded.take (h : Recorded g start s) {nearest : Sighting} {frontier : Frontier}
    (hpop : s.frontier.pop? = some (nearest, frontier)) (expanded : List Nat) :
    Recorded g start { s with frontier := frontier, expanded := expanded } :=
  ⟨h.seen_start, h.caller, h.start_of_none, h.distance_lt, fun x hx =>
    h.frontier x ((Frontier.pop?_perm hpop).mem_iff.2 (List.mem_cons_of_mem _ hx))⟩

end PathSearch

end FuzzCampaign

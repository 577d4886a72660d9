import FuzzCampaign.CallGraph.ShortestPath
import FuzzCampaign.Proofs.CallGraph.WellFormed
import Mathlib.Logic.Relation

/-!
# The search finds exactly the reachable functions

A visit takes one function off the stack and, when it expands it, puts one
function on the stack for each call that it makes.  Since no function is
expanded twice, the functions on the stack and the calls of functions that were
not expanded yet bound the visits to come.

Main results:

- `mem_reachable_iff`: what is found are the functions at the end of call paths.
- `WellFormed.hasNode_of_reaches`: a call path does not leave the graph.
-/

namespace FuzzCampaign.CallGraph

open Relation

variable {g : CallGraph}

/-- One function calls another. -/
def Calls (g : CallGraph) (caller callee : Nat) : Prop := g.hasCall caller callee = true

/-- A path of calls leads from one function to another. -/
def Reaches (g : CallGraph) : Nat → Nat → Prop := ReflTransGen g.Calls

/-- The calls of functions that were not expanded yet. -/
def unexplored (g : CallGraph) (seen : List Nat) : Nat :=
  (g.arcs.filter (·.caller ∉ seen)).length

/-- Expanding a function explores its calls. -/
theorem unexplored_cons {node : Nat} {seen : List Nat} (h : node ∉ seen) :
    g.unexplored seen = g.unexplored (node :: seen) + (g.callees node).length := by
  rw [unexplored, unexplored, callees, outgoing, List.length_map]
  induction g.arcs with
  | nil => rfl
  | cons arc arcs ih =>
    simp only [List.mem_cons, not_or, List.filter_cons] at ih ⊢
    by_cases hnode : arc.caller = node
    · subst hnode
      simp only [h, not_false_eq_true, decide_true, if_true, not_true_eq_false, false_and,
        decide_false, Bool.false_eq_true, if_false, beq_self_eq_true, List.length_cons, ih]
      omega
    · by_cases hseen : arc.caller ∈ seen
      · simp only [hnode, hseen, not_true_eq_false, and_false, decide_false,
          beq_eq_false_iff_ne.2 hnode, Bool.false_eq_true, if_false, ih]
      · simp only [hnode, hseen, not_false_eq_true, and_self, decide_true, if_true,
          beq_eq_false_iff_ne.2 hnode, Bool.false_eq_true, if_false, List.length_cons, ih]
        omega

/-- With enough fuel a search keeps what it has seen and what is on its stack,
and follows every call. -/
theorem visit_closed (fuel : Nat) (stack seen : List Nat)
    (hfuel : stack.length + g.unexplored seen ≤ fuel)
    (hclosed : ∀ a ∈ seen, ∀ b, g.Calls a b → b ∈ seen ∨ b ∈ stack) :
    stack ⊆ g.visit fuel stack seen ∧
      ∀ a ∈ g.visit fuel stack seen, ∀ b, g.Calls a b → b ∈ g.visit fuel stack seen := by
  induction fuel generalizing stack seen with
  | zero =>
    have hnil : stack = [] := List.eq_nil_of_length_eq_zero (by omega)
    subst hnil
    simpa [visit] using hclosed
  | succ fuel ih =>
    cases stack with
    | nil => simpa [visit] using hclosed
    | cons node stack =>
      rw [List.length_cons] at hfuel
      rw [visit]
      by_cases hnode : node ∈ seen
      · rw [if_pos hnode]
        obtain ⟨hstack, hcalls⟩ := ih stack seen (by omega) (by
          intro a ha b hab
          rcases hclosed a ha b hab with hb | hb
          · exact Or.inl hb
          · rcases List.mem_cons.1 hb with rfl | hb
            · exact Or.inl hnode
            · exact Or.inr hb)
        exact ⟨List.cons_subset.2 ⟨subset_visit _ _ _ _ hnode, hstack⟩, hcalls⟩
      · rw [if_neg hnode]
        have hsplit := unexplored_cons (g := g) hnode
        obtain ⟨hstack, hcalls⟩ := ih (g.callees node ++ stack) (node :: seen)
          (by rw [List.length_append]; omega) (by
          intro a ha b hab
          rcases List.mem_cons.1 ha with rfl | ha
          · exact Or.inr (List.mem_append_left _ (mem_callees.2 hab))
          · rcases hclosed a ha b hab with hb | hb
            · exact Or.inl (List.mem_cons_of_mem _ hb)
            · rcases List.mem_cons.1 hb with rfl | hb
              · exact Or.inl List.mem_cons_self
              · exact Or.inr (List.mem_append_right _ hb))
        refine ⟨List.cons_subset.2 ⟨?_, ?_⟩, hcalls⟩
        · exact subset_visit _ _ _ _ List.mem_cons_self
        · exact fun v hv => hstack (List.mem_append_right _ hv)

/-- What a search finds was seen before or is called from its stack. -/
theorem reaches_of_mem_visit {fuel : Nat} {stack seen : List Nat} {v : Nat}
    (hv : v ∈ g.visit fuel stack seen) : v ∈ seen ∨ ∃ node ∈ stack, g.Reaches node v := by
  induction fuel generalizing stack seen with
  | zero => exact Or.inl hv
  | succ fuel ih =>
    cases stack with
    | nil => exact Or.inl hv
    | cons node stack =>
      rw [visit] at hv
      split at hv
      · rcases ih hv with hseen | ⟨other, hother, hreach⟩
        · exact Or.inl hseen
        · exact Or.inr ⟨other, List.mem_cons_of_mem _ hother, hreach⟩
      · rcases ih hv with hseen | ⟨other, hother, hreach⟩
        · rcases List.mem_cons.1 hseen with rfl | hseen
          · exact Or.inr ⟨v, List.mem_cons_self, ReflTransGen.refl⟩
          · exact Or.inl hseen
        · rcases List.mem_append.1 hother with hcallee | hstack
          · exact Or.inr ⟨node, List.mem_cons_self,
              ReflTransGen.head (mem_callees.1 hcallee) hreach⟩
          · exact Or.inr ⟨other, List.mem_cons_of_mem _ hstack, hreach⟩

/-- The search from a function finds exactly the functions it reaches. -/
theorem mem_reachable_iff {start v : Nat} (h : g.hasNode start = true) :
    v ∈ g.reachable start ↔ g.Reaches start v := by
  rw [reachable, if_pos h]
  constructor
  · intro hv
    rcases reaches_of_mem_visit hv with hseen | ⟨node, hnode, hreach⟩
    · exact absurd hseen List.not_mem_nil
    · rw [List.mem_singleton] at hnode
      exact hnode ▸ hreach
  · intro hreach
    have hall : g.unexplored [] = g.arcs.length := by simp [unexplored]
    obtain ⟨hstack, hcalls⟩ := visit_closed (g.arcs.length + 1) [start] []
      (by rw [hall, List.length_singleton]; omega) (by simp)
    induction hreach with
    | refl => exact hstack (List.mem_singleton_self _)
    | tail _ hstep ih => exact hcalls _ ih _ hstep

/-- A path of calls stays inside the graph. -/
theorem WellFormed.hasNode_of_reaches (h : g.WellFormed) {a b : Nat} (ha : g.hasNode a = true)
    (hab : g.Reaches a b) : g.hasNode b = true := by
  induction hab with
  | refl => exact ha
  | tail _ hstep _ =>
    obtain ⟨arc, harc, -, rfl⟩ := hasCall_iff.1 hstep
    exact h.callee_mem arc harc

/-- An entry that calls the only other function reaches everything. -/
theorem reaches_ofCall {caller callee : String} (h : caller ≠ callee) (v : Nat)
    (hv : (ofCall caller callee).hasNode v = true) :
    (ofCall caller callee).Reaches (ofCall caller callee).entry v := by
  rw [hasNode, vertex?_ofCall h] at hv
  rw [entry_ofCall]
  rcases v with _ | _ | v
  · exact ReflTransGen.refl
  · exact ReflTransGen.single (hasCall_ofCall h)
  · simp at hv

end FuzzCampaign.CallGraph

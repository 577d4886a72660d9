import FuzzCampaign.Proofs.CallGraph.PathSearch
import Mathlib

/-!
# The path search finds shortest paths

The search proceeds level by level: no expanded function is farther than the level, and
nothing on the frontier is nearer.  So a function that is recorded anew is not expanded, and
the distances of expanded functions are final.  Following a walk from the start, as long as
fewer calls were made than the level, every function on it is expanded and was seen at no
more than the number of calls made.  The goal is not expanded, and so no walk to the goal is
shorter than its level.

A function that was seen is expanded or still on the frontier; when the frontier is
exhausted, everything that can be reached has been expanded.  The recorded callers lead back
to the start one level at a time, which makes the path as long as the level and free of
repetitions.

Main definitions:

- `PathSearch.Settled`: what is expanded is near, and what is on the frontier is far.
- `PathSearch.Invariant`: what every turn of a search preserves.
- `CallGraph.ShortestPath`: a path without repetitions, as short as any walk.

Main results:

- `PathSearch.Settled.foldl_relax`: one expansion.
- `PathSearch.Settled.lt_length`: the walks within a level.
- `PathSearch.exists_last_turn`: what all turns of a search preserve holds at its last.
- `PathSearch.Invariant.exists_run`: the search comes to a function that is reachable.
- `CallGraph.shortestPath?_shortest`: when there is a path, and what it is.
-/

namespace FuzzCampaign

namespace CallGraph

variable {g : CallGraph} {start goal : Nat}

/-- A path without repetitions, from one function to another, that makes no more calls than
any walk between them. -/
structure ShortestPath (g : CallGraph) (start goal : Nat) (path : List Nat) : Prop
    extends CallPath g start goal path where
  nodup : path.Nodup
  length_le : ∀ walk, g.CallPath start goal walk → path.length ≤ walk.length

end CallGraph

namespace PathSearch

open CallGraph

variable {g : CallGraph} {start goal level : Nat} {s : PathSearch}

/-! ## Levels -/

/-- A search at a level: what is expanded is no farther and what is on the frontier no
nearer.  A recorded caller is expanded and exactly one call nearer, and whatever was seen is
expanded or waits at its distance. -/
structure Settled (level : Nat) (s : PathSearch) : Prop where
  ordered : Frontier.Ordered s.frontier.entries
  near : ∀ a ∈ s.expanded, ∃ d ≤ level, s.distance? a = some d
  far : ∀ x ∈ s.frontier.entries.toList, level ≤ x.distance
  caller : ∀ v c, s.caller? v = some c →
    c ∈ s.expanded ∧ ∃ d, s.distance? c = some d ∧ s.distance? v = some (d + 1)
  waiting : ∀ v d, s.distance? v = some d →
    v ∈ s.expanded ∨ ⟨d, v⟩ ∈ s.frontier.entries.toList

theorem settled_starting (start : Nat) : Settled 0 (starting start) := by
  refine ⟨Frontier.ordered_empty.push _, by simp [starting], fun _ _ => Nat.zero_le _, ?_, ?_⟩
  · intro v c hc
    simp [caller?_starting] at hc
  · intro v d hd
    rw [distance?_starting] at hd
    split at hd
    · rename_i hv
      rw [hv, ← Option.some.inj hd]
      exact Or.inr (mem_frontier_starting.2 rfl)
    · exact absurd hd (by simp)

namespace Settled

/-- What is recorded anew is not expanded, so that the distances of expanded functions are
final. -/
theorem distance?_record_expanded (h : Settled level s) {callee : Nat} (caller : Nat)
    (hnearer : ∀ known, s.distance? callee = some known → level + 1 < known) {a : Nat}
    (ha : a ∈ s.expanded) :
    (s.record callee (level + 1) caller).distance? a = s.distance? a := by
  obtain ⟨d, hd, hdist⟩ := h.near a ha
  rw [distance?_record, if_neg]
  rintro rfl
  have hlt := hnearer d hdist
  omega

/-- A callee of a function at the level is recorded one level farther. -/
theorem record (h : Settled level s) {caller callee : Nat} (hcaller : caller ∈ s.expanded)
    (hdist : s.distance? caller = some level)
    (hnearer : ∀ known, s.distance? callee = some known → level + 1 < known) :
    Settled level (s.record callee (level + 1) caller) := by
  have hexpanded := fun a ha => h.distance?_record_expanded caller hnearer (a := a) ha
  have hpush := Frontier.push_perm s.frontier ⟨level + 1, callee⟩
  refine ⟨h.ordered.push _, ?_, ?_, ?_, ?_⟩
  · intro a ha
    rw [hexpanded a ha]
    exact h.near a ha
  · intro x hx
    rcases List.mem_cons.1 (hpush.mem_iff.1 hx) with rfl | hx
    · exact Nat.le_succ level
    · exact h.far x hx
  · intro v c hc
    rw [caller?_record] at hc
    split at hc
    · rename_i hv
      obtain rfl := Option.some.inj hc
      refine ⟨hcaller, level, ?_, ?_⟩
      · rw [hexpanded caller hcaller, hdist]
      · rw [distance?_record, if_pos hv]
    · rename_i hv
      obtain ⟨hc, d, hd, hstep⟩ := h.caller v c hc
      refine ⟨hc, d, ?_, ?_⟩
      · rw [hexpanded c hc, hd]
      · rw [distance?_record, if_neg hv, hstep]
  · intro v d hd
    rw [distance?_record] at hd
    split at hd
    · rename_i hv
      obtain rfl := Option.some.inj hd
      exact Or.inr (hpush.mem_iff.2 (hv ▸ List.mem_cons_self))
    · exact (h.waiting v d hd).imp_right fun hx => hpush.mem_iff.2 (List.mem_cons_of_mem _ hx)

theorem relax (h : Settled level s) {caller : Nat} (hcaller : caller ∈ s.expanded)
    (hdist : s.distance? caller = some level) (callee : Nat) :
    Settled level (s.relax caller (level + 1) callee) ∧
      (∀ a ∈ s.expanded, (s.relax caller (level + 1) callee).distance? a = s.distance? a) ∧
      ∃ e ≤ level + 1, (s.relax caller (level + 1) callee).distance? callee = some e := by
  rcases relax_cases s caller (level + 1) callee with ⟨heq, known, hle, hknown⟩ | ⟨heq, hnearer⟩
  · rw [heq]
    exact ⟨h, fun _ _ => rfl, known, hle, hknown⟩
  · rw [heq]
    refine ⟨h.record hcaller hdist hnearer, fun a => h.distance?_record_expanded caller hnearer,
      level + 1, Nat.le_refl _, ?_⟩
    rw [distance?_record, if_pos rfl]

/-- An expansion keeps the distances of expanded functions and brings all callees as near as
the next level. -/
theorem foldl_relax (h : Settled level s) {caller : Nat} (hcaller : caller ∈ s.expanded)
    (hdist : s.distance? caller = some level) (callees : List Nat) :
    Settled level (callees.foldl (PathSearch.relax caller (level + 1)) s) ∧
      (∀ a ∈ s.expanded, (callees.foldl (PathSearch.relax caller (level + 1)) s).distance? a =
        s.distance? a) ∧
      ∀ b ∈ callees, ∃ e ≤ level + 1,
        (callees.foldl (PathSearch.relax caller (level + 1)) s).distance? b = some e := by
  induction callees generalizing s with
  | nil => exact ⟨h, fun _ _ => rfl, by simp⟩
  | cons callee callees ih =>
    obtain ⟨hone, hkept, e, hle, he⟩ := h.relax hcaller hdist callee
    have hexpanded := (relaxed_relax s caller (level + 1) callee).expanded_eq
    obtain ⟨hall, hkept', hcallees⟩ := ih hone (hexpanded ▸ hcaller)
      ((hkept caller hcaller).trans hdist)
    refine ⟨hall, ?_, ?_⟩
    · intro a ha
      exact (hkept' a (hexpanded ▸ ha)).trans (hkept a ha)
    · intro b hb
      rcases List.mem_cons.1 hb with rfl | hb
      · obtain ⟨e', hle', he'⟩ :=
          (relaxed_foldl (s.relax caller (level + 1) b) caller (level + 1) callees).nearer b e he
        exact ⟨e', hle'.trans hle, he'⟩
      · exact hcallees b hb

variable {nearest : Sighting} {frontier : Frontier}

/-- Before a sighting is taken the level rises to it. -/
theorem raise (h : Settled level s) (hpop : s.frontier.pop? = some (nearest, frontier)) :
    Settled nearest.distance s := by
  have hle := h.far nearest ((Frontier.pop?_perm hpop).mem_iff.2 List.mem_cons_self)
  refine ⟨h.ordered, ?_, fun x hx => h.ordered.distance_le hpop hx, h.caller, h.waiting⟩
  intro a ha
  obtain ⟨d, hd, hdist⟩ := h.near a ha
  exact ⟨d, hd.trans hle, hdist⟩

/-- A sighting can be taken once its function is expanded. -/
theorem take (h : Settled level s) (hpop : s.frontier.pop? = some (nearest, frontier))
    {expanded : List Nat} (hsub : s.expanded ⊆ expanded) (hmem : nearest.node ∈ expanded)
    (hnear : ∀ a ∈ expanded, ∃ d ≤ level, s.distance? a = some d) :
    Settled level { s with frontier := frontier, expanded := expanded } := by
  have hperm := Frontier.pop?_perm hpop
  refine ⟨(h.ordered.rest hpop).1, hnear, ?_, ?_, ?_⟩
  · exact fun x hx => h.far x (hperm.mem_iff.2 (List.mem_cons_of_mem _ hx))
  · intro v c hc
    obtain ⟨hc, hd⟩ := h.caller v c hc
    exact ⟨hsub hc, hd⟩
  · intro v d hd
    rcases h.waiting v d hd with hv | hx
    · exact Or.inl (hsub hv)
    · rcases List.mem_cons.1 (hperm.mem_iff.1 hx) with rfl | hx
      · exact Or.inl hmem
      · exact Or.inr hx

/-- What is nearest and not expanded was sighted at its distance. -/
theorem distance?_nearest (h : Settled level s) (hr : Recorded g start s)
    (hpop : s.frontier.pop? = some (nearest, frontier)) (hnew : nearest.node ∉ s.expanded) :
    s.distance? nearest.node = some nearest.distance := by
  have hmem := (Frontier.pop?_perm hpop).mem_iff.2 List.mem_cons_self
  obtain ⟨-, d, hle, hdist⟩ := hr.frontier nearest hmem
  have hge := h.ordered.distance_le hpop ((h.waiting _ d hdist).resolve_left hnew)
  rw [hdist, Nat.le_antisymm hle hge]

/-- What was seen below the level is expanded. -/
theorem mem_expanded (h : Settled level s) {v d : Nat} (hdist : s.distance? v = some d)
    (hlt : d < level) : v ∈ s.expanded :=
  (h.waiting v d hdist).resolve_right fun hx => absurd (h.far _ hx) (Nat.not_le_of_lt hlt)

end Settled

/-! ## Walks within a level -/

/-- The callees of an expanded function are at most one call farther than it, and the goal is
not expanded. -/
structure Closed (g : CallGraph) (goal : Nat) (s : PathSearch) : Prop where
  callee : ∀ a ∈ s.expanded, ∀ b, g.Calls a b →
    ∃ d e, s.distance? a = some d ∧ s.distance? b = some e ∧ e ≤ d + 1
  goal_not_mem : goal ∉ s.expanded

/-- A walk with fewer calls than the level ends at an expanded function, which was seen at no
more than the number of calls. -/
theorem Settled.of_length_le (h : Settled level s) (hr : Recorded g start s)
    (hc : Closed g goal s) {walk : List Nat} {v : Nat} (hwalk : g.CallPath start v walk)
    (hle : walk.length ≤ level) : v ∈ s.expanded ∧ ∃ d < walk.length, s.distance? v = some d := by
  -- from the end of the walk, since distances are counted from the start
  induction walk using List.reverseRecOn generalizing v with
  | nil => exact absurd hwalk.head (by simp)
  | append_singleton walk last ih =>
    rw [List.length_append, List.length_singleton] at hle ⊢
    obtain ⟨-, ⟨-, rfl⟩ | ⟨caller, hbefore, hcall⟩⟩ := hwalk.init
    · exact ⟨h.mem_expanded hr.seen_start (by omega), 0, by omega, hr.seen_start⟩
    · obtain ⟨hexpanded, d, hd, hdist⟩ := ih hbefore (by omega)
      obtain ⟨d', e, hd', he, hstep⟩ := hc.callee caller hexpanded v hcall
      rw [hdist, Option.some.injEq] at hd'
      exact ⟨h.mem_expanded he (by omega), e, by omega, he⟩

/-- A walk to the goal makes at least as many calls as the level. -/
theorem Settled.lt_length (h : Settled level s) (hr : Recorded g start s) (hc : Closed g goal s)
    {walk : List Nat} (hwalk : g.CallPath start goal walk) : level < walk.length := by
  by_contra hle
  exact hc.goal_not_mem (h.of_length_le hr hc hwalk (Nat.le_of_not_lt hle)).1

theorem Closed.expand (hc : Closed g goal s) {caller : Nat}
    (hdist : s.distance? caller = some level) (hgoal : caller ≠ goal) {s' : PathSearch}
    (hexpanded : s'.expanded = caller :: s.expanded)
    (hkept : ∀ a ∈ caller :: s.expanded, s'.distance? a = s.distance? a)
    (hcallees : ∀ b ∈ g.callees caller, ∃ e ≤ level + 1, s'.distance? b = some e)
    (hnearer : ∀ v d, s.distance? v = some d → ∃ e ≤ d, s'.distance? v = some e) :
    Closed g goal s' := by
  refine ⟨?_, ?_⟩
  · rw [hexpanded]
    intro a ha b hab
    rw [hkept a ha]
    rcases List.mem_cons.1 ha with rfl | ha
    · obtain ⟨e, hle, he⟩ := hcallees b (mem_callees.2 hab)
      exact ⟨level, e, hdist, he, hle⟩
    · obtain ⟨d, e, hd, he, hle⟩ := hc.callee a ha b hab
      obtain ⟨e', hle', he'⟩ := hnearer b e he
      exact ⟨d, e', hd, he', hle'.trans hle⟩
  · rw [hexpanded, List.mem_cons, not_or]
    exact ⟨hgoal.symm, hc.goal_not_mem⟩

/-! ## The turns of a search -/

/-- What holds at first and is preserved by every turn holds when the goal comes up. -/
theorem exists_last_turn {P : PathSearch → Prop}
    (hdrop : ∀ s nearest frontier, P s → s.frontier.pop? = some (nearest, frontier) →
      nearest.node ∈ s.expanded → P { s with frontier := frontier })
    (hexpand : ∀ s nearest frontier, P s → s.frontier.pop? = some (nearest, frontier) →
      nearest.node ≠ goal → nearest.node ∉ s.expanded →
      P ((g.callees nearest.node).foldl (relax nearest.node (nearest.distance + 1))
        { s with frontier := frontier, expanded := nearest.node :: s.expanded }))
    {fuel : Nat} (h : P s) {s' : PathSearch} (hrun : run g goal fuel s = some s') :
    ∃ last nearest frontier, P last ∧ last.frontier.pop? = some (nearest, frontier) ∧
      nearest.node = goal ∧ s' = { last with frontier := frontier } := by
  induction fuel generalizing s with
  | zero => exact absurd hrun (by simp [run])
  | succ fuel ih =>
    rw [run] at hrun
    split at hrun
    · exact absurd hrun (by simp)
    · rename_i nearest frontier hpop
      dsimp only at hrun
      split_ifs at hrun with hgoal hexp
      · exact ⟨s, nearest, frontier, h, hpop, hgoal, (Option.some.inj hrun).symm⟩
      · exact ih (hdrop s nearest frontier h hpop hexp) hrun
      · exact ih (hexpand s nearest frontier h hpop hgoal hexp) hrun

/-- What every turn of the search preserves. -/
structure Invariant (g : CallGraph) (start goal : Nat) (s : PathSearch) : Prop where
  recorded : Recorded g start s
  closed : Closed g goal s
  settled : ∃ level, Settled level s

theorem invariant_starting (g : CallGraph) (start goal : Nat) :
    Invariant g start goal (starting start) :=
  ⟨recorded_starting g start, ⟨by simp [starting], by simp [starting]⟩, 0, settled_starting start⟩

namespace Invariant

variable {nearest : Sighting} {frontier : Frontier}

theorem drop (h : Invariant g start goal s)
    (hpop : s.frontier.pop? = some (nearest, frontier)) (hexp : nearest.node ∈ s.expanded) :
    Invariant g start goal { s with frontier := frontier } := by
  obtain ⟨level, hsettled⟩ := h.settled
  exact ⟨h.recorded.take hpop s.expanded, ⟨h.closed.callee, h.closed.goal_not_mem⟩, level,
    hsettled.take hpop (List.Subset.refl _) hexp hsettled.near⟩

theorem expand (h : Invariant g start goal s)
    (hpop : s.frontier.pop? = some (nearest, frontier)) (hgoal : nearest.node ≠ goal)
    (hexp : nearest.node ∉ s.expanded) :
    Invariant g start goal
      ((g.callees nearest.node).foldl (PathSearch.relax nearest.node (nearest.distance + 1))
        { s with frontier := frontier, expanded := nearest.node :: s.expanded }) := by
  obtain ⟨level, hlevel⟩ := h.settled
  have hsettled := hlevel.raise hpop
  have hdist := hsettled.distance?_nearest h.recorded hpop hexp
  have hlt := (h.recorded.frontier nearest
    ((Frontier.pop?_perm hpop).mem_iff.2 List.mem_cons_self)).1
  have hnear : ∀ a ∈ nearest.node :: s.expanded, ∃ d ≤ nearest.distance,
      s.distance? a = some d := by
    intro a ha
    rcases List.mem_cons.1 ha with rfl | ha
    · exact ⟨_, Nat.le_refl _, hdist⟩
    · exact hsettled.near a ha
  have htaken := hsettled.take hpop (List.subset_cons_self nearest.node s.expanded)
    List.mem_cons_self hnear
  have hrelaxed := relaxed_foldl
    { s with frontier := frontier, expanded := nearest.node :: s.expanded } nearest.node
    (nearest.distance + 1) (g.callees nearest.node)
  obtain ⟨hnext, hkept, hcallees⟩ :=
    htaken.foldl_relax List.mem_cons_self hdist (g.callees nearest.node)
  refine ⟨?_, ?_, nearest.distance, hnext⟩
  · exact (h.recorded.take hpop _).foldl_relax _ (fun callee hcallee => mem_callees.1 hcallee) hlt
  · exact h.closed.expand hdist hgoal hrelaxed.expanded_eq hkept hcallees hrelaxed.nearer

/-- When the frontier is empty everything reachable was expanded. -/
theorem mem_expanded (h : Invariant g start goal s) (hpop : s.frontier.pop? = none) {v : Nat}
    (hv : g.Reaches start v) : v ∈ s.expanded := by
  obtain ⟨level, hsettled⟩ := h.settled
  have hseen : ∀ v d, s.distance? v = some d → v ∈ s.expanded := by
    intro v d hd
    refine (hsettled.waiting v d hd).resolve_right ?_
    rw [Frontier.pop?_eq_none_iff.1 hpop]
    exact List.not_mem_nil
  induction hv with
  | refl => exact hseen start 0 h.recorded.seen_start
  | tail _ hstep ih =>
    obtain ⟨d, e, -, he, -⟩ := h.closed.callee _ ih _ hstep
    exact hseen _ e he

/-- With enough fuel the search comes to a function that is reachable. -/
theorem exists_run {fuel : Nat} (h : Invariant g start goal s) (hreach : g.Reaches start goal)
    (hfuel : s.frontier.entries.toList.length + g.unexplored s.expanded < fuel) :
    ∃ s', run g goal fuel s = some s' := by
  induction fuel generalizing s with
  | zero => exact absurd hfuel (Nat.not_lt_zero _)
  | succ fuel ih =>
    cases hpop : s.frontier.pop? with
    | none => exact absurd (h.mem_expanded hpop hreach) h.closed.goal_not_mem
    | some popped =>
      obtain ⟨nearest, frontier⟩ := popped
      have hlength := (Frontier.pop?_perm hpop).length_eq
      rw [List.length_cons] at hlength
      rw [run, hpop]
      dsimp only
      by_cases hgoal : nearest.node = goal
      · rw [if_pos hgoal]
        exact ⟨_, rfl⟩
      · rw [if_neg hgoal]
        by_cases hexp : nearest.node ∈ s.expanded
        · rw [if_pos hexp]
          exact ih (h.drop hpop hexp) (by simp only; omega)
        · rw [if_neg hexp]
          refine ih (h.expand hpop hgoal hexp) ?_
          -- every call of the function that is expanded adds one sighting at most
          have hrelaxed := relaxed_foldl
            { s with frontier := frontier, expanded := nearest.node :: s.expanded } nearest.node
            (nearest.distance + 1) (g.callees nearest.node)
          have hsize := hrelaxed.size_le
          have hsplit := unexplored_cons (g := g) hexp
          rw [hrelaxed.expanded_eq]
          simp only at hsize ⊢
          omega

end Invariant

/-! ## The goal -/

/-- A search that has come to its goal: it knows a distance that no walk to the goal falls
below, and the recorded callers lead back one call at a time. -/
structure Found (g : CallGraph) (start goal : Nat) (s : PathSearch) (distance : Nat) : Prop where
  recorded : Recorded g start s
  stepwise : ∀ v c, s.caller? v = some c →
    ∃ d, s.distance? c = some d ∧ s.distance? v = some (d + 1)
  distance_goal : s.distance? goal = some distance
  lt_length : ∀ walk, g.CallPath start goal walk → distance < walk.length

/-- A search that comes to its goal has found its distance. -/
theorem exists_found {fuel : Nat} (hrun : run g goal fuel (starting start) = some s) :
    ∃ d, Found g start goal s d := by
  obtain ⟨last, nearest, frontier, h, hpop, rfl, rfl⟩ := exists_last_turn
    (fun _ _ _ h => h.drop) (fun _ _ _ h => h.expand) (invariant_starting g start goal) hrun
  obtain ⟨level, hlevel⟩ := h.settled
  have hsettled := hlevel.raise hpop
  exact ⟨nearest.distance, h.recorded.take hpop last.expanded,
    fun v c hc => (hsettled.caller v c hc).2,
    hsettled.distance?_nearest h.recorded hpop h.closed.goal_not_mem,
    fun walk hwalk => hsettled.lt_length h.recorded h.closed hwalk⟩

/-- Only the start, at distance zero, has no recorded caller. -/
theorem Found.caller?_eq_none_iff {distance : Nat} (h : Found g start goal s distance)
    {node d : Nat} (hd : s.distance? node = some d) : s.caller? node = none ↔ d = 0 := by
  constructor
  · intro hc
    obtain rfl := h.recorded.start_of_none node d hd hc
    exact Option.some.inj (hd.symm.trans h.recorded.seen_start)
  · rintro rfl
    rw [Option.eq_none_iff_forall_ne_some]
    intro c hc
    obtain ⟨e, -, hstep⟩ := h.stepwise node c hc
    rw [hd, Option.some.injEq] at hstep
    omega

/-- The way back to the start is a path that passes every distance once. -/
theorem Found.exists_way {distance : Nat} (h : Found g start goal s distance) {fuel node d : Nat}
    (path : List Nat) (hd : s.distance? node = some d) (hfuel : d ≤ fuel) :
    ∃ way, s.trace fuel node path = way ++ path ∧ g.CallPath start node way ∧
      way.map s.distance? = (List.range (d + 1)).map some := by
  induction fuel generalizing node d path with
  | zero =>
    obtain rfl := Nat.le_zero.1 hfuel
    obtain rfl := h.recorded.start_of_none node 0 hd ((h.caller?_eq_none_iff hd).2 rfl)
    exact ⟨[node], rfl, .single g node, by simp [hd]⟩
  | succ fuel ih =>
    rw [PathSearch.trace]
    cases hc : s.caller? node with
    | none =>
      obtain rfl := (h.caller?_eq_none_iff hd).1 hc
      obtain rfl := h.recorded.start_of_none node 0 hd hc
      exact ⟨[node], rfl, .single g node, by simp [hd]⟩
    | some c =>
      obtain ⟨e, he, hstep⟩ := h.stepwise node c hc
      obtain rfl := Option.some.inj (hd.symm.trans hstep)
      obtain ⟨way, heq, hway, hdistances⟩ := ih (node :: path) he (by omega)
      refine ⟨way ++ [node], ?_, hway.snoc (h.recorded.caller node c hc), ?_⟩
      · rw [List.append_assoc]
        exact heq
      · rw [List.map_append, hdistances, List.range_succ (n := e + 1), List.map_append,
          List.map_singleton, List.map_singleton, hd]

/-- Following the recorded callers back from the goal gives a shortest path. -/
theorem Found.trace {distance : Nat} (h : Found g start goal s distance) :
    g.ShortestPath start goal (s.trace s.seen.length goal []) := by
  obtain ⟨way, htrace, hpath, hdistances⟩ := h.exists_way [] h.distance_goal
    (Nat.le_of_lt (h.recorded.distance_lt goal distance h.distance_goal))
  rw [htrace, List.append_nil]
  refine ⟨hpath, ?_, ?_⟩
  · have hnodup : (way.map s.distance?).Nodup := by
      rw [hdistances]
      exact List.nodup_range.map fun _ _ => Option.some.inj
    exact hnodup.of_map
  · intro walk hwalk
    have hlength := congrArg List.length hdistances
    rw [List.length_map, List.length_map, List.length_range] at hlength
    rw [hlength]
    exact h.lt_length walk hwalk

end PathSearch

namespace CallGraph

variable {g : CallGraph} {start goal : Nat}

theorem shortestPath_of_eq_some {path : List Nat} (h : g.shortestPath? start goal = some path) :
    g.hasNode start = true ∧ g.hasNode goal = true ∧ g.ShortestPath start goal path := by
  rw [shortestPath?] at h
  split at h
  · rename_i hnodes
    rw [Bool.and_eq_true] at hnodes
    obtain ⟨s, hrun, rfl⟩ := Option.map_eq_some_iff.1 h
    obtain ⟨d, hfound⟩ := PathSearch.exists_found hrun
    exact ⟨hnodes.1, hnodes.2, hfound.trace⟩
  · exact absurd h (by simp)

/-- The search finds a path to every function that can be reached. -/
theorem exists_shortestPath? (hstart : g.hasNode start = true) (hgoal : g.hasNode goal = true)
    (hreach : g.Reaches start goal) :
    ∃ path, g.shortestPath? start goal = some path ∧ g.CallPath start goal path := by
  have hfuel : (PathSearch.starting start).frontier.entries.toList.length +
      g.unexplored (PathSearch.starting start).expanded < g.arcs.length + 2 := by
    have hlength : (PathSearch.starting start).frontier.entries.toList.length = 1 :=
      (Frontier.push_perm {} ⟨0, start⟩).length_eq
    have hall : g.unexplored (PathSearch.starting start).expanded = g.arcs.length := by
      simp [unexplored, PathSearch.starting]
    omega
  obtain ⟨s, hrun⟩ := (PathSearch.invariant_starting g start goal).exists_run hreach hfuel
  have hpath : g.shortestPath? start goal = some (s.trace s.seen.length goal []) := by
    rw [shortestPath?, hstart, hgoal, Bool.and_self, if_pos rfl, hrun, Option.map_some]
  exact ⟨_, hpath, (shortestPath_of_eq_some hpath).2.2.toCallPath⟩

/-- There is a path exactly when both functions exist and one reaches the other. -/
theorem isSome_shortestPath? : (g.shortestPath? start goal).isSome = true ↔
    g.hasNode start = true ∧ g.hasNode goal = true ∧ g.Reaches start goal := by
  refine ⟨?_, ?_⟩
  · intro h
    obtain ⟨path, hpath⟩ := Option.isSome_iff_exists.1 h
    obtain ⟨hstart, hgoal, hshortest⟩ := shortestPath_of_eq_some hpath
    exact ⟨hstart, hgoal, hshortest.reaches⟩
  · rintro ⟨hstart, hgoal, hreach⟩
    obtain ⟨path, hpath, -⟩ := exists_shortestPath? hstart hgoal hreach
    rw [hpath]
    rfl

/-- The distance is the number of calls on the path. -/
theorem distance?_eq_some_iff {n : Nat} : g.distance? start goal = some n ↔
    ∃ path, g.shortestPath? start goal = some path ∧ path.length = n + 1 := by
  rw [distance?, Option.map_eq_some_iff]
  refine exists_congr fun path => and_congr_right fun hpath => ?_
  have hhead := (shortestPath_of_eq_some hpath).2.2.head
  have hpos : path ≠ [] := by
    rintro rfl
    exact absurd hhead (by simp)
  have hlength := List.length_pos_iff.2 hpos
  omega

/-- There is a path exactly when both functions exist and one reaches the other; it is a
shortest path, its calls are counted by the distance, and the reachable functions are
those that have one. -/
theorem shortestPath?_shortest (h : g.WellFormed) (start goal : Nat) :
    ((g.shortestPath? start goal).isSome = true ↔
      g.hasNode start = true ∧ g.hasNode goal = true ∧ g.Reaches start goal) ∧
    (∀ path, g.shortestPath? start goal = some path → g.ShortestPath start goal path) ∧
    (∀ n, g.distance? start goal = some n ↔
      ∃ path, g.shortestPath? start goal = some path ∧ path.length = n + 1) ∧
    (goal ∈ g.reachable start ↔ (g.distance? start goal).isSome = true) := by
  refine ⟨isSome_shortestPath?, fun path hpath => (shortestPath_of_eq_some hpath).2.2,
    fun n => distance?_eq_some_iff, ?_⟩
  rw [distance?, Option.isSome_map, isSome_shortestPath?]
  by_cases hstart : g.hasNode start = true
  · rw [mem_reachable_iff hstart]
    exact ⟨fun hreach => ⟨hstart, h.hasNode_of_reaches hstart hreach, hreach⟩, fun hall => hall.2.2⟩
  · simp [reachable, hstart]

/-- An entry that calls a function directly and by way of another one. -/
def ofShortcut : CallGraph :=
  ((((ofCall "main" "parse").insert (.named "emit")).2.addCall 1 2 {}).2.addCall 0 2 {}).2

/-- The shortcut is taken, and there is no way back. -/
theorem shortestPath?_shortest_ofShortcut :
    ofShortcut.WellFormed ∧
      ofShortcut.shortestPath? 0 2 = some [0, 2] ∧
      (∀ walk, ofShortcut.CallPath 0 2 walk → 2 ≤ walk.length) ∧
      ofShortcut.distance? 0 2 = some 1 ∧
      2 ∈ ofShortcut.reachable 0 ∧
      ¬ ofShortcut.Reaches 2 0 := by
  have hbuilt : ofShortcut.Built :=
    .addCall (.addCall (.insert (built_ofCall _ _) _) 1 2 {}) 0 2 {}
  have hpath : ofShortcut.shortestPath? 0 2 = some [0, 2] := by cbv
  have hback : ofShortcut.shortestPath? 2 0 = none := by cbv
  have hnodes : ofShortcut.hasNode 2 = true ∧ ofShortcut.hasNode 0 = true := by
    refine ⟨?_, ?_⟩ <;> cbv
  obtain ⟨-, hshortest, hdistance, hreachable⟩ :=
    shortestPath?_shortest hbuilt.wellFormed 0 2
  have hone : ofShortcut.distance? 0 2 = some 1 := (hdistance 1).2 ⟨_, hpath, rfl⟩
  refine ⟨hbuilt.wellFormed, hpath, (hshortest _ hpath).length_le, hone,
    hreachable.2 (by rw [hone]; rfl), ?_⟩
  intro hreach
  have hsome := (shortestPath?_shortest hbuilt.wellFormed 2 0).1.2 ⟨hnodes.1, hnodes.2, hreach⟩
  rw [hback] at hsome
  exact absurd hsome (by simp)

end CallGraph

end FuzzCampaign

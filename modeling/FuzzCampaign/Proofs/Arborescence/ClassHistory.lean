import FuzzCampaign.Proofs.Arborescence.ClassForest

/-!
# Unions that are rolled back

Unions can be undone, the latest first, back to any time.  A sequence of calls is told by
the unions that stand: those that were made and not rolled back.  What they connect is
compared with the classes at each time at once, so that a rollback only restricts what is
known already.

Main definitions:

- `Connected`: two vertices are connected by unions.
- `Tracks`: the classes are what the unions connect.

Main results:

- `Grown.rollback`: unions can be undone, back to any time.
- `Tracks.call` and `run_connects`: what a call and what a sequence of calls does.
-/

namespace FuzzCampaign

namespace Classes

variable {c c' : Classes} {n : Nat}

/-! ## Undoing unions -/

/-- A rollback to a time that is not over changes nothing. -/
theorem rollback_of_le {t : Nat} (ht : c.time ≤ t) : c.rollback t = c := by
  rw [rollback, Nat.sub_eq_zero_of_le ht, undoLatest]

namespace Grown

/-- A union keeps the forest one that has grown by links. -/
theorem union (h : Grown n c) {a b : Nat} (ha : a < n) (hb : b < n) :
    Grown n (c.union a b).2 := by
  by_cases hab : c.find a = c.find b
  · rwa [union_of_eq hab]
  · obtain ⟨root, child, hunion, hl, -⟩ := h.wellFormed.union_of_ne ha hb hab
    rw [hunion]
    exact h.link hl

/-- A rollback past a link does not see it. -/
theorem rollback_link (h : Grown n c) {root child t : Nat} (hl : Linkable c n root child)
    (ht : t ≤ c.time) : (c.link root child).rollback t = c.rollback t :=
  rollback_eq_of_undo (h.wellFormed.undo_link hl) rfl ht

/-- A union does not change what was there before it. -/
theorem rollback_union (h : Grown n c) {a b t : Nat} (ha : a < n) (hb : b < n)
    (ht : t < (c.union a b).2.time) : (c.union a b).2.rollback t = c.rollback t := by
  by_cases hab : c.find a = c.find b
  · rw [union_of_eq hab]
  · obtain ⟨root, child, hunion, hl, -⟩ := h.wellFormed.union_of_ne ha hb hab
    rw [hunion] at ht ⊢
    exact h.rollback_link hl (Nat.le_of_lt_succ ht)

/-- A union does not turn back the time. -/
theorem le_time_union (h : Grown n c) {a b : Nat} (ha : a < n) (hb : b < n) :
    c.time ≤ (c.union a b).2.time := by
  by_cases hab : c.find a = c.find b
  · rw [union_of_eq hab]
  · obtain ⟨root, child, hunion, -, -⟩ := h.wellFormed.union_of_ne ha hb hab
    rw [hunion]
    exact Nat.le_succ _

/-- The latest union can be undone: its two vertices are in the tables, and the size that is
taken off is not larger than the one it is taken from. -/
theorem undo?_link (h : Grown n c) {root child : Nat} (hl : Linkable c n root child) :
    (c.link root child).undo? = some c := by
  have hforest := Forest.link h.wellFormed hl
  have hsize : ∀ v, (c.link root child).sizeOf v =
      if v = root then c.sizeOf root + c.sizeOf child else c.sizeOf v :=
    sizeOf_link h.wellFormed.toForest hl.root_lt
  rw [undo?, show (c.link root child).history = (root, child) :: c.history from rfl]
  simp only [Option.bind_eq_bind, hforest.size_getElem? hl.root_lt,
    hforest.size_getElem? hl.child_lt, Option.bind_some]
  rw [if_pos, h.wellFormed.undo_link hl]
  rw [hsize, hsize, if_pos rfl, if_neg hl.ne.symm, hforest.size_parent]
  exact ⟨Nat.le_add_left _ _, hl.child_lt⟩

/-- Undoing some of the unions leaves classes that were made by the others. -/
theorem rollback (h : Grown n c) (t : Nat) : c.rollback? t = some (c.rollback t) ∧
    Grown n (c.rollback t) ∧ (c.rollback t).time = min t c.time := by
  induction h with
  | discrete =>
    rw [rollback_of_le (show (Classes.discrete n).time ≤ t from Nat.zero_le t), time_discrete,
      Nat.min_zero, rollback?, time_discrete, Nat.zero_sub]
    exact ⟨rfl, .discrete, rfl⟩
  | @link c root child earlier hl ih =>
    rcases Nat.lt_or_ge c.time t with hlt | hle
    · have ht : (c.link root child).time ≤ t := hlt
      rw [rollback_of_le ht, rollback?, Nat.sub_eq_zero_of_le ht, Nat.min_eq_right ht]
      exact ⟨rfl, earlier.link hl, rfl⟩
    · obtain ⟨hanswer, hgrown, htime⟩ := ih
      have hsteps : (c.link root child).time - t = c.time - t + 1 := by
        rw [time_link]
        omega
      rw [earlier.rollback_link hl hle, rollback?, hsteps, undoLatest?, earlier.undo?_link hl,
        htime, Nat.min_eq_left hle,
        Nat.min_eq_left (show t ≤ (c.link root child).time from Nat.le_succ_of_le hle)]
      exact ⟨hanswer, hgrown, rfl⟩

/-- Of two rollbacks the one that reaches further back counts. -/
theorem rollback_rollback (h : Grown n c) (t t' : Nat) :
    (c.rollback t').rollback t = c.rollback (min t t') := by
  induction h with
  | discrete =>
    have hkeep (t : Nat) : (Classes.discrete n).rollback t = Classes.discrete n :=
      rollback_of_le (Nat.zero_le t)
    rw [hkeep, hkeep, hkeep]
  | @link c root child earlier hl ih =>
    rcases Nat.lt_or_ge c.time t' with hlt | hle
    · rw [rollback_of_le (show (c.link root child).time ≤ t' from hlt)]
      rcases Nat.le_total t t' with ht | ht
      · rw [Nat.min_eq_left ht]
      · have ht' : (c.link root child).time ≤ t' := hlt
        rw [Nat.min_eq_right ht, rollback_of_le ht', rollback_of_le (Nat.le_trans ht' ht)]
    · rw [earlier.rollback_link hl hle, ih,
        earlier.rollback_link hl (Nat.le_trans (Nat.min_le_right t t') hle)]

end Grown

/-! ## Sequences of calls -/

/-- A call is given vertices below `n`. -/
def Call.InRange (n : Nat) : Call → Prop
  | .union a b => a < n ∧ b < n
  | _ => True

instance (n : Nat) : (call : Call) → Decidable (call.InRange n)
  | .union _ _ => inferInstanceAs (Decidable (_ ∧ _))
  | .time => inferInstanceAs (Decidable True)
  | .rollback _ => inferInstanceAs (Decidable True)

/-- A union that was made, with the time after it. -/
structure Made where
  time : Nat
  a : Nat
  b : Nat
  deriving Repr, DecidableEq

/-- The unions that stand after a call which ends at a time.  A rollback leaves those that were
made until then. -/
def record (made : List Made) (time : Nat) : Call → List Made
  | .union a b => ⟨time, a, b⟩ :: made
  | .time => made
  | .rollback t => made.filter (·.time ≤ t)

/-- The unions that stand after some calls. -/
def standing (c : Classes) (made : List Made) : List Call → List Made
  | [] => made
  | call :: calls =>
    match c.call call with
    | some (_, c) => c.standing (record made c.time call) calls
    | none => made

/-- Two vertices are connected by unions. -/
def Connected (made : List Made) : Nat → Nat → Prop :=
  Relation.EqvGen fun a b => ∃ union ∈ made, union.a = a ∧ union.b = b

/-- More unions connect more. -/
theorem Connected.mono {made more : List Made} (hsub : made ⊆ more) {v w : Nat}
    (h : Connected made v w) : Connected more v w :=
  Relation.EqvGen.mono (fun _ _ ⟨union, hmem, hends⟩ => ⟨union, hsub hmem, hends⟩) v w h

/-- What is connected by unions is in one class, if the unions are. -/
theorem Connected.find_eq {made : List Made}
    (hmade : ∀ union ∈ made, c.find union.a = c.find union.b) {v w : Nat}
    (h : Connected made v w) : c.find v = c.find w := by
  induction h with
  | rel v w hvw =>
    obtain ⟨union, hmem, rfl, rfl⟩ := hvw
    exact hmade union hmem
  | refl v => rfl
  | symm v w _ ih => exact ih.symm
  | trans u v w _ _ ihu ihv => exact ihu.trans ihv

/-- The classes are those that the unions connect, and so were they at each earlier time for the
unions until then. -/
structure Tracks (n : Nat) (c : Classes) (made : List Made) : Prop where
  grown : Grown n c
  time_le : ∀ union ∈ made, union.time ≤ c.time
  find_eq_iff : ∀ t v w, (c.rollback t).find v = (c.rollback t).find w ↔
    Connected (made.filter (·.time ≤ t)) v w

namespace Tracks
variable {made : List Made}

/-- All unions stand that are not later than a time. -/
theorem filter_eq (h : Tracks n c made) {t : Nat} (ht : c.time ≤ t) :
    made.filter (·.time ≤ t) = made :=
  List.filter_eq_self.2 fun union hmem => decide_eq_true ((h.time_le union hmem).trans ht)

/-- Two vertices are in one class just when the unions that stand connect them. -/
theorem find_iff (h : Tracks n c made) (v w : Nat) :
    c.find v = c.find w ↔ Connected made v w := by
  have hnow := h.find_eq_iff c.time v w
  rwa [rollback_of_le (Nat.le_refl _), h.filter_eq (Nat.le_refl _)] at hnow

/-- At first no unions stand. -/
theorem discrete (n : Nat) : Tracks n (discrete n) [] := by
  refine ⟨.discrete, by simp, fun t v w => ?_⟩
  rw [rollback_of_le (Nat.zero_le t), find_discrete, find_discrete]
  constructor
  · rintro rfl
    exact Relation.EqvGen.refl v
  · intro hvw
    simpa using hvw.find_eq (c := Classes.discrete n) (by simp)

/-- A union connects its two vertices. -/
theorem connected_cons_iff (h : Tracks n c made) {a b : Nat} (ha : a < n) (hb : b < n)
    (time v w : Nat) : Connected (⟨time, a, b⟩ :: made) v w ↔
      (c.union a b).2.find v = (c.union a b).2.find w := by
  have hjoin := h.grown.wellFormed.find_union_iff ha hb
  constructor
  · refine Connected.find_eq fun union hmem => (hjoin _ _).2 ?_
    rcases List.mem_cons.1 hmem with rfl | hmem
    · exact Or.inr (Or.inl ⟨rfl, rfl⟩)
    · exact Or.inl ((h.find_iff _ _).2 (.rel _ _ ⟨union, hmem, rfl, rfl⟩))
  · have hold : ∀ x y, c.find x = c.find y → Connected (⟨time, a, b⟩ :: made) x y :=
      fun x y hxy => ((h.find_iff x y).1 hxy).mono (List.subset_cons_self _ _)
    have hnew : Connected (⟨time, a, b⟩ :: made) a b :=
      .rel _ _ ⟨⟨time, a, b⟩, List.mem_cons_self, rfl, rfl⟩
    intro hvw
    rcases (hjoin v w).1 hvw with hvw | ⟨hv, hw⟩ | ⟨hv, hw⟩
    · exact hold v w hvw
    · exact ((hold v a hv).trans _ _ _ hnew).trans _ _ _ (hold b w hw.symm)
    · exact ((hold v b hv).trans _ _ _ (hnew.symm _ _)).trans _ _ _ (hold a w hw.symm)

/-- A union that is made stands. -/
theorem union (h : Tracks n c made) {a b : Nat} (ha : a < n) (hb : b < n) :
    Tracks n (c.union a b).2 (⟨(c.union a b).2.time, a, b⟩ :: made) := by
  have htime := h.grown.le_time_union ha hb
  refine ⟨h.grown.union ha hb, ?_, fun t v w => ?_⟩
  · rw [List.forall_mem_cons]
    exact ⟨Nat.le_refl _, fun union hmem => (h.time_le union hmem).trans htime⟩
  · by_cases ht : (c.union a b).2.time ≤ t
    · rw [rollback_of_le ht, List.filter_cons_of_pos (by simpa using ht),
        h.filter_eq (htime.trans ht), h.connected_cons_iff ha hb]
    · rw [h.grown.rollback_union ha hb (Nat.lt_of_not_le ht),
        List.filter_cons_of_neg (by simpa using ht), h.find_eq_iff]

/-- After a rollback those unions stand that were made before. -/
theorem rollback (h : Tracks n c made) (t : Nat) :
    Tracks n (c.rollback t) (made.filter (·.time ≤ t)) := by
  obtain ⟨-, hgrown, htime⟩ := h.grown.rollback t
  refine ⟨hgrown, fun union hmem => ?_, fun t' v w => ?_⟩
  · obtain ⟨hmem, hle⟩ := List.mem_filter.1 hmem
    rw [htime]
    exact Nat.le_min.2 ⟨of_decide_eq_true hle, h.time_le union hmem⟩
  · rw [h.grown.rollback_rollback, h.find_eq_iff, List.filter_filter]
    simp only [← Bool.decide_and, ← Nat.le_min]

/-- A call that is given vertices of the graph is answered.  It does not change what was there
at a time past which it does not roll back. -/
theorem call (h : Tracks n c made) {call : Call} (hcall : call.InRange n) :
    ∃ answer c', c.call call = some (answer, c') ∧ Tracks n c' (record made c'.time call) ∧
      ∀ t ≤ c.time, (∀ time, call = .rollback time → t ≤ time) →
        t ≤ c'.time ∧ c'.rollback t = c.rollback t := by
  cases call with
  | union a b =>
    obtain ⟨ha, hb⟩ := hcall
    refine ⟨.joined (c.union a b).1, (c.union a b).2, ?_, h.union ha hb, fun t ht _ => ?_⟩
    · rw [Classes.call, h.grown.wellFormed.union?_eq ha hb]
      rfl
    · have htime := ht.trans (h.grown.le_time_union ha hb)
      refine ⟨htime, ?_⟩
      rcases Nat.lt_or_eq_of_le htime with hlt | heq
      · exact h.grown.rollback_union ha hb hlt
      · have hsame := union_of_eq (c := c) (x := a) (y := b)
        by_cases hab : c.find a = c.find b
        · rw [hsame hab]
        · obtain ⟨root, child, hunion, -, -⟩ := h.grown.wellFormed.union_of_ne ha hb hab
          rw [hunion, time_link] at heq
          omega
  | time => exact ⟨.time c.time, c, rfl, h, fun t ht _ => ⟨ht, rfl⟩⟩
  | rollback time =>
    obtain ⟨hanswer, -, htime⟩ := h.grown.rollback time
    refine ⟨.done, c.rollback time, ?_, h.rollback time, fun t ht hcall => ?_⟩
    · rw [Classes.call, hanswer]
      rfl
    · have hle := hcall time rfl
      rw [htime, h.grown.rollback_rollback, Nat.min_eq_left hle]
      exact ⟨Nat.le_min.2 ⟨hle, ht⟩, rfl⟩

/-- Every run of calls in range is answered, and keeps track of the unions that stand. -/
theorem run (h : Tracks n c made) {calls : List Call} (hcalls : ∀ call ∈ calls, call.InRange n) :
    ∃ answers c', c.run calls = some (answers, c') ∧ Tracks n c' (c.standing made calls) ∧
      ∀ t ≤ c.time, (∀ time, .rollback time ∈ calls → t ≤ time) →
        c'.rollback t = c.rollback t := by
  induction calls generalizing c made with
  | nil => exact ⟨[], c, rfl, h, fun _ _ _ => rfl⟩
  | cons call calls ih =>
    rw [List.forall_mem_cons] at hcalls
    obtain ⟨answer, c₁, hcall, hnext, hkeep⟩ := h.call hcalls.1
    obtain ⟨answers, c', hrun, htracks, hkeeps⟩ := ih hnext hcalls.2
    refine ⟨answer :: answers, c', ?_, ?_, fun t ht hback => ?_⟩
    · rw [Classes.run, hcall]
      simp only [Option.bind_eq_bind, Option.bind_some, hrun]
      rfl
    · rw [standing, hcall]
      exact htracks
    · obtain ⟨htime, hsame⟩ := hkeep t ht fun time heq => hback time (heq ▸ List.mem_cons_self)
      rw [hkeeps t htime fun time hmem => hback time (List.mem_cons_of_mem _ hmem), hsame]

end Tracks

/-- Some calls after others. -/
theorem run_append (c : Classes) (before after : List Call) : c.run (before ++ after) =
    (c.run before).bind fun (answers, c) => (c.run after).map fun (more, c) =>
      (answers ++ more, c) := by
  induction before generalizing c with
  | nil => simp [run]
  | cons call before ih =>
    rw [List.cons_append, run, run]
    cases c.call call with
    | none => rfl
    | some next =>
      simp only [Option.bind_eq_bind, Option.bind_some, ih]
      cases next.2.run before with
      | none => rfl
      | some rest =>
        cases hafter : rest.2.run after with
        | none => simp [hafter]
        | some more => simp [hafter]

/-- Calls with vertices below `n` are all answered.  Afterwards two vertices have one
representative exactly when the unions that stand connect them; a climb comes to its root over at
most as many links as the binary logarithm of `n`; the size recorded at a representative is that
of its class; and a rollback to the time of an earlier moment, past which no call has rolled
back, restores everything that was there at that moment. -/
theorem run_connects {calls : List Call} (hcalls : ∀ call ∈ calls, call.InRange n) :
    ∃ answers c, (discrete n).run calls = some (answers, c) ∧
      (∀ v w, c.find v = c.find w ↔ Connected ((discrete n).standing [] calls) v w) ∧
      (∀ v < n, c.find? v = some (c.find v) ∧
        c.climb? (Nat.log2 n + 1) v = some (c.find v)) ∧
      (∀ r < n, c.find r = r → c.sizeOf r = (c.members r).card) ∧
      ∀ before after, calls = before ++ after → ∃ replies moment,
        (discrete n).run before = some (replies, moment) ∧
        ((∀ time, .rollback time ∈ after → moment.time ≤ time) →
          c.rollback? moment.time = some moment) := by
  obtain ⟨answers, c, hrun, htracks, -⟩ := (Tracks.discrete n).run hcalls
  have hw := htracks.grown.wellFormed
  refine ⟨answers, c, hrun, htracks.find_iff, fun v hv => ⟨hw.find?_eq hv, ?_⟩,
    fun r hr hroot => hw.sizeOf_root r hr (hw.find_eq_self_iff.1 hroot), ?_⟩
  · exact hw.climb?_of_lt hv Nat.lt_log2_self
  · rintro before after rfl
    rw [List.forall_mem_append] at hcalls
    obtain ⟨replies, moment, hbefore, hmoment, -⟩ := (Tracks.discrete n).run hcalls.1
    obtain ⟨more, c', hafter, -, hkeep⟩ := hmoment.run hcalls.2
    simp only [run_append, hbefore, Option.bind_some, hafter, Option.map_some, Option.some.injEq,
      Prod.mk.injEq] at hrun
    obtain ⟨-, rfl⟩ := hrun
    refine ⟨replies, moment, hbefore, fun hback => ?_⟩
    rw [(htracks.grown.rollback _).1, hkeep _ (Nat.le_refl _) hback,
      rollback_of_le (Nat.le_refl _)]

/-- The third union is undone, with the second one; the vertices 0, 1 and 2 are connected by the
two that stand. -/
theorem run_connects_rollback : ∃ c : Classes, (discrete 4).run [.union 0 1, .time, .union 2 3,
    .union 0 3, .rollback 1, .union 1 2] = some ([.joined true, .time 1, .joined true,
      .joined true, .done, .joined true], c) ∧
      Connected [⟨2, 1, 2⟩, ⟨1, 0, 1⟩] 0 2 ∧ ¬ Connected [⟨2, 1, 2⟩, ⟨1, 0, 1⟩] 0 3 := by
  obtain ⟨answers, c, hrun, hfind, -⟩ := @run_connects 4 [.union 0 1, .time, .union 2 3,
    .union 0 3, .rollback 1, .union 1 2] (by decide)
  obtain ⟨rfl, rfl⟩ := Prod.mk.inj (Option.some.inj hrun)
  exact ⟨_, rfl, (hfind 0 2).1 (by decide), mt (hfind 0 3).2 (by decide)⟩

end Classes

end FuzzCampaign

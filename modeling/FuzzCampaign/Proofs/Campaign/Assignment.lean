import FuzzCampaign.Proofs.Campaign.Conduct
import FuzzCampaign.Proofs.Campaign.Rounds

/-!
# Every task is handed to one worker

In every round that exploits, the graph that a profiling pass leaves can be cut, so that
there is a task for each worker of the round.  The tasks are written to files, and each
worker is told the file of the task of its own number.  Together the files name every
function of the graph, in every file where it is defined.

Main definitions:

- `optionValue?`: what a command is told by an option.
- `Campaign.untilCut` and `Campaign.afterCut`: a campaign before and after it cuts the
  graph of a round.
- `Campaign.Assigned`: the tasks of a round, their files and their workers.

Main results:

- `drive_eq_afterCut`: a campaign is what it does before, at and after a cut.
- `assigned_of_untilCut`: the tasks of every round are assigned.
-/

namespace FuzzCampaign

open FuzzCampaign.Action

/-! ## Task files -/

/-- What a command is told by an option that is followed by its value.  Nothing behind two
dashes is an option. -/
def optionValue? (option : String) : List String → Option String
  | name :: value :: rest =>
    if name = "--" then none
    else if name = option then some value
    else optionValue? option rest
  | _ => none

/-- A worker that is bound to a task is told its file. -/
theorem optionValue?_taskBound (f : Fleet) (index round : Nat) :
    optionValue? "-p" (f.taskBound index round).args =
      some (Layout.taskFile f.layout.tasks index).text := by
  simp only [Fleet.taskBound, Fleet.commonArgs]
  cases f.fuzzer.dictionary <;> simp [optionValue?]

/-- Tasks with different numbers are written to different files. -/
theorem text_taskFile_injective {dir : Path} {i j : Nat}
    (h : (Layout.taskFile dir i).text = (Layout.taskFile dir j).text) : i = j := by
  have hrelative : ∀ number : Nat,
      Path.isAbsoluteText ("task_" ++ toString number ++ ".txt") = false := by
    intro number
    simp [Path.isAbsoluteText]
  rw [Layout.taskFile, Layout.taskFile, Path.text_join (hrelative i), Path.text_join (hrelative j),
    String.append_right_inj, String.append_left_inj, String.append_right_inj,
    Nat.toString_eq_repr, Nat.toString_eq_repr, Nat.repr_inj] at h
  exact h

/-- The requests to write tasks, numbered from some number on. -/
def Task.writes (dir : Path) (number : Nat) (tasks : List Task) : List Request :=
  (tasks.zipIdx number).map fun entry =>
    .write (Layout.taskFile dir entry.2) entry.1.render (.ok ())

theorem requests_writeText {σ : Type} (files : FileSystem σ) {file : Path} {text : String}
    {n n' : Noted σ} (h : files.noted.writeText file text n = (.ok (), n')) :
    n'.requests = n.requests ++ [.write file text (.ok ())] := by
  have hanswer : (files.writeText file text n.world).1 = .ok () := congrArg Prod.fst h
  have hrequests : n.requests ++ [.write file text (files.writeText file text n.world).1] =
      n'.requests := congrArg (fun r => r.2.requests) h
  rw [← hrequests, hanswer]

theorem requests_writeAll {σ : Type} (files : FileSystem σ) {dir : Path} {number : Nat}
    {tasks : List Task} {paths : List Path} {n n' : Noted σ}
    (h : Task.writeAll files.noted dir number tasks n = (.ok paths, n')) :
    n'.requests = n.requests ++ Task.writes dir number tasks := by
  induction tasks generalizing number n paths with
  | nil =>
    cases h
    exact (List.append_nil _).symm
  | cons task rest ih =>
    obtain ⟨_, n₁, hwrite, hrest⟩ := bind_eq_ok h
    obtain ⟨others, n₂, hothers, hpure⟩ := bind_eq_ok hrest
    cases hpure
    rw [ih hothers, requests_writeText files (orFail_eq_ok.1 hwrite), List.append_assoc]
    rfl

/-- The text of a task has a line for each of its obligations. -/
theorem Task.exists_line {task : Task} {o : Obligation} (h : o ∈ task.obligations) :
    ∃ front back, task.render = front ++ (o.sourceFile ++ ":" ++ o.function ++ "\n") ++ back ∧
      (front = "" ∨ ∃ earlier, front = earlier ++ "\n") := by
  obtain ⟨before, after, hsplit⟩ := List.append_of_mem h
  refine ⟨String.join (before.map fun o => o.render ++ "\n"),
    String.join (after.map fun o => o.render ++ "\n"), ?_, ?_⟩
  · rw [Task.render, hsplit, List.map_append, List.map_cons, String.join_append, String.join_cons,
      ← String.append_assoc]
    rfl
  · rcases List.eq_nil_or_concat' before with rfl | ⟨init, last, rfl⟩
    · exact Or.inl rfl
    · refine Or.inr ⟨String.join (init.map fun o => o.render ++ "\n") ++ last.render, ?_⟩
      simp [String.join_append, String.join_cons, String.append_assoc]

namespace Campaign

open Progress

variable {σ : Type} (c : Campaign)

/-! ## Before and after a cut -/

section

variable (crew : Crew σ)

/-- What a campaign does until it cuts the graph of a round. -/
def untilCut (round : Nat) : Step σ Unit := do
  c.prepare crew
  c.launchMonitor crew
  c.runRounds crew (round - 1)
  c.stage crew round
  c.refresh crew (round == 2)

/-- What a campaign does once it has cut the graph of a round. -/
def afterCut (round : Nat) : Step σ Unit := do
  c.dumpGraph crew
  c.watch crew round .exploiting
  finishRound
  c.runRounds crew (c.totalRounds.toNat - round)

/-- The graph of a round is cut once it was brought up to date. -/
theorem untilCut_eq (round : Nat) : c.untilCut crew round = (do
    c.untilPass crew round
    c.refresh crew (round == 2)) := by
  simp only [untilCut, untilPass, untilRound, bind_assoc]

/-- A campaign is what it does until it cuts the graph of a round, the cut, and what it
does after that. -/
theorem drive_eq_afterCut {round : Nat} (hlater : 2 ≤ round)
    (hround : round ≤ c.totalRounds.toNat) {world : σ} {u : Unit} {p : Progress σ}
    (h : c.untilCut crew round (c.start world) = (.ok u, p)) :
    c.drive crew (c.start world) = (do
      c.partition crew
      c.afterCut crew round : Step σ Unit) p := by
  rw [untilCut_eq] at h
  obtain ⟨_, p₁, hpass, hrefresh⟩ := bind_eq_ok h
  obtain ⟨_, p₀, huntil, hstage⟩ := bind_eq_ok hpass
  have hpos : 1 ≤ round := Nat.le_of_succ_le hlater
  have hfits : round < 4294967296 := Nat.lt_of_le_of_lt hround (UInt32.toNat_lt _)
  have hbegun := c.begun_of_untilRound crew hpos hfits huntil
  have hphase : phaseOf round = .exploiting := if_neg (by omega)
  have hcount : c.totalRounds.toNat + 1 - round = c.totalRounds.toNat - round + 1 := by omega
  have hrun : c.runRound crew p₀ = (do
      c.partition crew
      c.dumpGraph crew
      c.watch crew round .exploiting : Step σ Unit) p := by
    rw [c.runRound_of_begun crew hbegun, bind_of_ok_apply hstage, hphase, chart]
    simp only [bind_assoc]
    rw [bind_of_ok_apply hrefresh]
  rw [c.drive_of_untilRound crew hpos (Nat.le_succ_of_le hround) huntil, hcount, runRounds,
    bind_congr_apply hrun]
  simp only [afterCut, bind_assoc]

end

/-- The graph that is cut is pruned, and its entry reaches every function. -/
theorem charted_of_untilCut {crew : Crew σ} (h : c.inputs.graph.Built) {round : Nat}
    {world : Noted σ} {u : Unit} {p : Progress (Noted σ)}
    (huntil : c.untilCut crew.noted round (c.start world) = (.ok u, p)) :
    p.survey.Charted c.inputs.blocks := by
  obtain ⟨_, p₁, hprepare, huntil⟩ := bind_eq_ok huntil
  obtain ⟨_, p₂, hmonitor, huntil⟩ := bind_eq_ok huntil
  obtain ⟨_, p₃, hrounds, huntil⟩ := bind_eq_ok huntil
  obtain ⟨_, p₄, hstage, hrefresh⟩ := bind_eq_ok huntil
  have h₁ := (c.prepare_yields crew (p := c.start world) h).kept _ _ hprepare
  have h₂ := (c.upholds_launchMonitor crew (I := Survey.IsBuilt) h₁).kept _ _ hmonitor
  have h₃ := (c.upholds_runRounds crew h₂ _).kept _ _ hrounds
  have h₄ := (c.upholds_stage crew (I := Survey.IsBuilt) h₃ _).kept _ _ hstage
  exact (c.upholds_refresh crew h₄ _).kept _ _ hrefresh

/-! ## The tasks of a round -/

/-- Cutting a graph writes the tasks and perhaps the tree. -/
theorem requests_partition {crew : Crew σ} {p p' : Progress (Noted σ)} {plan : PartitionPlan}
    (hplan : (c.cut p.survey.graph).1 = .ok plan) {u : Unit}
    (h : c.partition crew.noted p = (.ok u, p')) : ∃ others,
      p'.requests = p.requests ++ Task.writes c.settings.layout.tasks 1 plan.tasks ++ others ∧
      ∀ request ∈ others, ∃ text,
        request = .write c.settings.layout.treeDot text (.ok ()) := by
  rw [c.partition_of_ok crew.noted hplan] at h
  obtain ⟨paths, p₁, hwrite, hrest⟩ := bind_eq_ok h
  obtain ⟨n, hall, rfl⟩ := orFail_onWorld_ok hwrite
  have hrequests := requests_writeAll crew.files hall
  cases htree : plan.arborescence with
  | none =>
    rw [htree] at hrest
    cases hrest
    exact ⟨[], by rw [List.append_nil]; exact hrequests, by simp⟩
  | some tree =>
    rw [htree] at hrest
    obtain ⟨n', hone, rfl⟩ := orFail_onWorld_ok hrest
    refine ⟨_, requests_writeText crew.files hone |>.trans (congrArg (· ++ _) hrequests), ?_⟩
    intro request hrequest
    exact ⟨_, List.mem_singleton.1 hrequest⟩

/-- The workers of a round are launched in the order of their numbers. -/
theorem launched_launchFrom {crew : Crew σ} {round : Nat} {q q' : Progress (Noted σ)} {u : Unit}
    (h : c.launchFrom crew.noted (phaseOf round) round 1 c.settings.roundWorkers q = (.ok u, q')) :
    ∃ asked, q'.requests = q.requests ++ asked ∧
      (Request.launched asked).map (·.1) = c.roundSpecs round := by
  obtain ⟨asked, hrequests, hfollows⟩ :=
    c.performs_launchFrom crew q round 1 c.settings.roundWorkers
  rw [h] at hrequests hfollows
  obtain ⟨hclean, hdeeds⟩ := hfollows.done u rfl
  refine ⟨asked, hrequests, ?_⟩
  rw [Request.map_fst_launched hclean, hdeeds, List.filterMap_flatMap, roundSpecs,
    List.map_eq_flatMap]
  simp only [launches_launchDeeds]

/-- The tasks of a round that exploits, for a campaign that is about to cut its graph. -/
structure Assigned (crew : Crew σ) (round : Nat) (p : Progress (Noted σ))
    (plan : PartitionPlan) : Prop where
  /-- The graph is pruned, and this is how it is cut. -/
  pruned : p.survey.prune c.inputs.blocks = ({}, p.survey)
  plan_eq : (c.cut p.survey.graph).1 = .ok plan
  /-- There is a task for every worker of the round. -/
  length_tasks : plan.tasks.length = c.settings.roundWorkers
  /-- Cutting the graph fails only when a file cannot be written. -/
  error : ∀ e p', c.partition crew.noted p = (.error e, p') → e.IsFault
  /-- Otherwise every task is written to the file of its number. -/
  written : ∀ u p', c.partition crew.noted p = (.ok u, p') → ∃ others,
    p'.requests = p.requests ++ Task.writes c.settings.layout.tasks 1 plan.tasks ++ others ∧
    ∀ request ∈ others, ∃ text, request = .write c.settings.layout.treeDot text (.ok ())
  /-- The workers of the round are launched in the order of their numbers. -/
  launched : ∀ q u q',
    c.launchFrom crew.noted .exploiting round 1 c.settings.roundWorkers q = (.ok u, q') →
    ∃ asked, q'.requests = q.requests ++ asked ∧ (Request.launched asked).map (·.1) =
      (List.range' 1 c.settings.roundWorkers).map (c.roundSpec round)
  /-- Every worker of the round is told the file of the task of its number. -/
  told : ∀ index, 1 ≤ index → index ≤ c.settings.roundWorkers →
    ∃ task, (task, index) ∈ plan.tasks.zipIdx 1 ∧
      optionValue? "-p" (c.roundSpec round index).args =
        some (Layout.taskFile c.settings.layout.tasks index).text
  /-- The file of every task is told to one worker of the round and to no other. -/
  handed : ∀ task number, (task, number) ∈ plan.tasks.zipIdx 1 →
    ∃! index, (1 ≤ index ∧ index ≤ c.settings.roundWorkers) ∧
      optionValue? "-p" (c.roundSpec round index).args =
        some (Layout.taskFile c.settings.layout.tasks number).text
  /-- The text of some task names a function of the graph, in any file where it is
  defined, on a line of its own. -/
  named : ∀ node name, p.survey.graph.name? node = some name →
    ∀ location ∈ c.inputs.sources.values name, ∃ task ∈ plan.tasks, ∃ front back,
      task.render = front ++ (location.file ++ ":" ++ name ++ "\n") ++ back ∧
      (front = "" ∨ ∃ earlier, front = earlier ++ "\n")

theorem assigned_of_charted {crew : Crew σ} {p : Progress (Noted σ)}
    (h : p.survey.Charted c.inputs.blocks) {round : Nat} (hlater : 2 ≤ round) :
    ∃ plan, c.Assigned crew round p plan := by
  obtain ⟨plan, hplan, hlength, hcovers⟩ := c.exists_plan h
  have hphase : phaseOf round = .exploiting := by rw [phaseOf, if_neg (by omega)]
  have hvalue : ∀ index, optionValue? "-p" (c.roundSpec round index).args =
      some (Layout.taskFile c.settings.layout.tasks index).text := by
    intro index
    rw [roundSpec, hphase, Fleet.roundWorker, optionValue?_taskBound]
    rfl
  refine ⟨plan, h.pruned, hplan, hlength, ?_, ?_, ?_, ?_, ?_, ?_⟩
  · exact (c.upholds_partition crew h).excused
  · intro u p' hp'
    exact c.requests_partition hplan hp'
  · intro q u q' hq'
    exact c.launched_launchFrom (by rwa [hphase])
  · intro index hpos hlast
    have hindex : index - 1 < plan.tasks.length := by omega
    refine ⟨plan.tasks[index - 1], ?_, hvalue index⟩
    rw [List.mk_mem_zipIdx_iff_le_and_getElem?_sub]
    exact ⟨hpos, List.getElem?_eq_getElem hindex⟩
  · intro task number hmem
    obtain ⟨hpos, hget⟩ := List.mk_mem_zipIdx_iff_le_and_getElem?_sub.1 hmem
    obtain ⟨hindex, -⟩ := List.getElem?_eq_some_iff.1 hget
    refine ⟨number, ⟨⟨hpos, by omega⟩, hvalue number⟩, ?_⟩
    rintro other ⟨-, hother⟩
    rw [hvalue, Option.some.injEq] at hother
    exact text_taskFile_injective hother
  · intro node name hname location hlocation
    obtain ⟨task, htask, hmem⟩ := hcovers node name hname location hlocation
    obtain ⟨front, back, hrender, hfront⟩ := Task.exists_line hmem
    exact ⟨task, htask, front, back, hrender, hfront⟩

/-- In a campaign whose graph can be built, the graph of every round that exploits is cut
into tasks for its workers; no campaign ends because a graph could not be cut.  Every round
that the loop comes to is such a round. -/
theorem assigned_of_untilCut (h : c.inputs.graph.Built) (crew : Crew σ) (world : σ) :
    (∀ e, (c.run crew world).1 = .error (.partition e) → ∃ path fault, e = .taskFile path fault) ∧
      ∀ round u p, 2 ≤ round → round ≤ 1 + c.exploitationRounds →
        c.untilCut crew.noted round (c.start ⟨world, []⟩) = (.ok u, p) →
        (round ≤ c.totalRounds.toNat → c.drive crew.noted (c.start ⟨world, []⟩) = (do
          c.partition crew.noted
          c.afterCut crew.noted round : Step (Noted σ) Unit) p) ∧
        ∃ plan, c.Assigned crew round p plan := by
  refine ⟨?_, ?_⟩
  · intro e he
    cases hdrive : c.drive crew.noted (c.start ⟨world, []⟩) with
    | mk result p =>
      rw [run_fst, hdrive] at he
      cases result with
      | ok u => cases he
      | error e' =>
        cases he
        rcases c.drive_error crew h hdrive with hfault | ⟨heq, -⟩
        · cases e with
          | capacity tasks totalScore => exact hfault.elim
          | notSpanning => exact hfault.elim
          | taskFile path fault => exact ⟨path, fault, rfl⟩
        · cases heq
  · intro round u p hlater _ huntil
    refine ⟨fun hround => c.drive_eq_afterCut crew.noted hlater hround huntil, ?_⟩
    exact c.assigned_of_charted (c.charted_of_untilCut h huntil) hlater

/-- The brief campaign comes to its second round, and the tasks of that are assigned. -/
theorem assigned_brief : ∃ p plan,
    brief.untilCut willing.noted 2 (brief.start ⟨(), []⟩) = (.ok (), p) ∧
      brief.Assigned willing 2 p plan := by
  obtain ⟨-, hrounds⟩ := assigned_of_untilCut (c := brief) (.ofEntry _) willing ()
  have hok : (brief.untilCut willing.noted 2 (brief.start ⟨(), []⟩)).1.isOk = true := by
    decide +kernel
  cases huntil : brief.untilCut willing.noted 2 (brief.start ⟨(), []⟩) with
  | mk result p =>
    cases result with
    | ok u =>
      obtain ⟨-, plan, hplan⟩ := hrounds 2 u p (Nat.le_refl 2) (Nat.le_refl 2) huntil
      exact ⟨p, plan, rfl, hplan⟩
    | error e =>
      rw [huntil] at hok
      cases hok

end Campaign

end FuzzCampaign

import FuzzCampaign.Proofs.Campaign.Schedule
import FuzzCampaign.Proofs.Partition.Coverage

/-!
# How the steps of a campaign end

A campaign starts with a graph that was built, since it was read, and each of its steps
builds on it.  A profiling pass ends with pruning, so that afterwards the entry reaches
every function of the graph, and such a graph can be cut.  Therefore every step fails only
when a request to the crew does; the import of the corpus is the only exception, since
there may be nothing to import.

Main definitions:

- `Action.Yields`: what an action promises, and why it may fail.
- `Survey.Charted`: the graph is pruned, and its entry reaches every function.

Main results:

- `CampaignInputs.built_load`: a graph that was read was built.
- `upholds_refresh` and `upholds_partition`: a pass charts the graph, and a charted
  graph is cut.
- `drive_error`: why a campaign can fail.
-/

namespace FuzzCampaign

/-! ## Promises and reasons -/

namespace Action

variable {τ ε ε' α β : Type} {promise : τ → Prop} {reason : ε → Prop} {t : τ}

/-- How an action ends: where it succeeds it leaves a state as promised, and where it
fails it has a reason. -/
structure Yields (promise : τ → Prop) (reason : ε → Prop) (action : Action τ ε α) (t : τ) :
    Prop where
  kept : ∀ a t', action t = (.ok a, t') → promise t'
  excused : ∀ e t', action t = (.error e, t') → reason e

namespace Yields

/-- An action that cannot fail. -/
theorem of_ok {action : Action τ ε α} {a : α} {t' : τ} (happly : action t = (.ok a, t'))
    (h : promise t') : action.Yields promise reason t := by
  refine ⟨?_, ?_⟩
  · intro b t'' hb
    rw [happly] at hb
    cases hb
    exact h
  · intro e t'' he
    rw [happly] at he
    cases he

/-- What the first action promises is what the second may build on. -/
theorem bind {middle : τ → Prop} {x : Action τ ε α} {f : α → Action τ ε β}
    (h : x.Yields middle reason t)
    (h' : ∀ a t', x t = (.ok a, t') → middle t' → (f a).Yields promise reason t') :
    (x >>= f).Yields promise reason t := by
  refine ⟨?_, ?_⟩
  · intro b t'' hb
    obtain ⟨a, t', hx, hf⟩ := bind_eq_ok hb
    exact (h' a t' hx (h.kept a t' hx)).kept b t'' hf
  · intro e t'' he
    rw [bind_apply] at he
    cases hx : x t with
    | mk result t' =>
      rw [hx] at he
      cases result with
      | ok a => exact (h' a t' hx (h.kept a t' hx)).excused e t'' he
      | error e' =>
        cases he
        exact h.excused e _ hx

/-- An action and a start that do the same end the same way. -/
theorem congr {action action' : Action τ ε α} {t' : τ} (happly : action t = action' t')
    (h : action.Yields promise reason t) : action'.Yields promise reason t' :=
  ⟨fun a t'' ha => h.kept a t'' (happly.trans ha),
    fun e t'' he => h.excused e t'' (happly.trans he)⟩

/-- Reading the state changes nothing. -/
theorem get_bind {f : τ → Action τ ε β} (h : (f t).Yields promise reason t) :
    (get >>= f).Yields promise reason t := ⟨h.kept, h.excused⟩

/-- Changing the state cannot fail. -/
theorem modify {f : τ → τ} (h : promise (f t)) :
    (modify f : Action τ ε PUnit).Yields promise reason t := .of_ok (a := PUnit.unit) rfl h

end Yields

/-- Two opinions on which errors are faults agree on the errors that occur. -/
theorem Performs.fault_iff {log : τ → List Request} {fault fault' : ε → Prop}
    {plan plan' : List Deed} {action : Action τ ε α} (h : action.Performs log fault plan t)
    (h' : action.Performs log fault' plan' t) {e : ε} {t' : τ}
    (he : action t = (.error e, t')) : fault e ↔ fault' e := by
  obtain ⟨asked, hlog, hfollows⟩ := h
  obtain ⟨asked', hlog', hfollows'⟩ := h'
  have hasked : asked = asked' := List.append_cancel_left (hlog.symm.trans hlog')
  have hresult : (action t).1 = .error e := congrArg Prod.fst he
  rw [hfollows.blame e hresult, hfollows'.blame e hresult, hasked]

end Action

open FuzzCampaign.Action

/-! ## Work on files -/

section

variable {σ : Type} (files : FileSystem σ) {n n' : Noted σ}

/-- Staging fails only for a fault of the file system. -/
theorem isFault_of_stageSeeds {source target : Path} {round : Nat} {e : StagingError}
    (h : stageSeeds files.noted source target round n = (.error e, n')) : e.IsFault := by
  have hfaults := performs_stageSeeds files StagingError.IsFault (fun _ _ => trivial)
  have hall := performs_stageSeeds files (fun _ => True) (fun _ _ => trivial)
  exact ((hfaults _ _ _ n).fault_iff (hall _ _ _ n) h).2 trivial

/-- Rotation fails only for a fault of the file system. -/
theorem isFault_of_rotateArtifacts {layout : Layout} {round workers : Nat} {e : StagingError}
    (h : rotateArtifacts files.noted layout round workers n = (.error e, n')) : e.IsFault := by
  have hfaults := performs_rotateArtifacts files StagingError.IsFault (fun _ _ => trivial)
  have hall := performs_rotateArtifacts files (fun _ => True) (fun _ _ => trivial)
  exact ((hfaults _ _ _ n).fault_iff (hall _ _ _ n) h).2 trivial

/-- Writing the task files fails only for a fault of the file system. -/
theorem isFault_of_writeTasks {plan : PartitionPlan} {dir : Path} {e : PartitionError}
    (h : plan.writeTasks files.noted dir n = (.error e, n')) : e.IsFault := by
  have hfaults := performs_writeAll files PartitionError.IsFault (fun _ _ => trivial)
  have hall := performs_writeAll files (fun _ => True) (fun _ _ => trivial)
  exact ((hfaults _ _ _ n).fault_iff (hall _ _ _ n) h).2 trivial

/-- The import of the corpus fails because a request does, or because there are no seeds. -/
theorem importCorpus_error {source target : Path} {e : StagingError}
    (h : importCorpus files.noted source target n = (.error e, n')) :
    e.IsFault ∨ e = .emptyCorpus source := by
  have hfaults := performs_importCorpus files StagingError.IsFault (fun _ _ => trivial)
    (id : ¬ (StagingError.emptyCorpus source).IsFault) target n
  have hothers := performs_importCorpus files (fun e => e ≠ .emptyCorpus source)
    (fun _ _ he => by cases he) (fun hne => hne rfl) target n
  have hiff := hfaults.fault_iff hothers h
  by_cases he : e = .emptyCorpus source
  · exact Or.inr he
  · exact Or.inl (hiff.2 he)

end

/-! ## Requests to the crew -/

namespace Progress

variable {σ α ε : Type} {I : Survey → Prop} (crew : Crew σ) (p : Progress (Noted σ))

/-- From a state on, a step leaves a survey of which something holds, or a request to
the crew fails. -/
abbrev Upholds (I : Survey → Prop) (step : Step (Noted σ) α) (p : Progress (Noted σ)) : Prop :=
  step.Yields (fun p' => I p'.survey) CampaignError.IsFault p

variable {p}

/-- Work on the world that fails for a reason. -/
theorem yields_onWorld {action : Action (Noted σ) ε α} {f : ε → CampaignError}
    {reason : CampaignError → Prop} (hI : I p.survey)
    (hf : ∀ e n, action p.world = (.error e, n) → reason (f e)) :
    ((onWorld action).orFail f).Yields (fun p' => I p'.survey) reason p := by
  refine ⟨?_, ?_⟩
  · intro a p' hok
    obtain ⟨world, -, rfl⟩ := orFail_onWorld_ok hok
    exact hI
  · intro e p' herror
    have hresult : ((action p.world).1.mapError f) = .error e := by
      rw [orFail_apply] at herror
      exact congrArg Prod.fst herror
    cases hx : action p.world with
    | mk result world =>
      rw [hx] at hresult
      cases result with
      | ok a => cases hresult
      | error e' =>
        cases hresult
        exact hf e' world hx

/-- A change of the survey leaves what holds of the changed survey. -/
theorem yields_modifySurvey {f : Survey → Survey} {reason : CampaignError → Prop}
    (h : I (f p.survey)) : (modify fun p => { p with survey := f p.survey } :
      Step (Noted σ) Unit).Yields (fun p' => I p'.survey) reason p := .modify h

/-- A change of the progress leaves what holds of its survey. -/
theorem yields_modify {f : Progress (Noted σ) → Progress (Noted σ)}
    {reason : CampaignError → Prop} (h : I (f p).survey) :
    (modify f : Step (Noted σ) Unit).Yields (fun p' => I p'.survey) reason p := .modify h

/-- A pause leaves the survey alone. -/
theorem upholds_pause (hI : I p.survey) (millis round : Nat) :
    Upholds I (Progress.pause crew.noted millis round) p := by
  refine ⟨?_, ?_⟩
  · intro u p' hpause
    rw [(keeps_pause crew.noted p inward_survey.discreet millis round).apply_eq hpause]
    exact hI
  · intro e p' hpause
    rw [pause_apply] at hpause
    have hresult := congrArg Prod.fst hpause
    dsimp only at hresult
    split at hresult
    · cases hresult
    · cases hresult
      trivial

/-- Profiling leaves the survey alone. -/
theorem upholds_profile (hI : I p.survey) (seeds : List Path) :
    Upholds I (Progress.profile crew.noted seeds) p := by
  refine ⟨?_, ?_⟩
  · intro u p' hprofile
    rw [(keeps_profile crew.noted p inward_survey seeds).apply_eq hprofile]
    exact hI
  · intro e p' hprofile
    rw [profile_apply] at hprofile
    have hresult := congrArg Prod.fst hprofile
    cases hanswer : (crew.noted.profile seeds p.world).1 with
    | ok output =>
      rw [hanswer] at hresult
      cases hresult
    | error e' =>
      rw [hanswer] at hresult
      cases hresult
      trivial

/-- A launch leaves the survey alone. -/
theorem upholds_launch (hI : I p.survey) (spec : WorkerSpec) :
    Upholds I (Progress.launch crew.noted spec) p := by
  cases hanswer : crew.noted.launch spec p.world with
  | mk answer world =>
    cases answer with
    | ok worker => exact .of_ok (launch_of_ok crew.noted p hanswer) hI
    | error e =>
      refine ⟨?_, ?_⟩
      · intro worker p' hlaunch
        rw [launch_of_error crew.noted p hanswer] at hlaunch
        cases hlaunch
      · intro e' p' hlaunch
        rw [launch_of_error crew.noted p hanswer] at hlaunch
        cases hlaunch
        trivial

end Progress

/-! ## The survey of a campaign -/

/-- The graph of every campaign whose inputs were read was built. -/
theorem CampaignInputs.built_load {σ : Type} {files : FileSystem σ} {settings : Settings}
    {inputs : CampaignInputs} {w w' : σ}
    (h : CampaignInputs.load files settings w = (.ok inputs, w')) : inputs.graph.Built := by
  obtain ⟨graph, w₁, hgraph, h⟩ := bind_eq_ok h
  obtain ⟨sources, w₂, -, h⟩ := bind_eq_ok h
  obtain ⟨blocks, w₃, -, h⟩ := bind_eq_ok h
  cases h
  obtain ⟨text, w₄, -, hdot⟩ := bind_eq_ok hgraph
  cases hread : CallGraph.ofDot text settings.campaign.entryFunction with
  | ok g =>
    rw [hread] at hdot
    cases hdot
    exact CallGraph.built_ofDot hread
  | error e =>
    rw [hread] at hdot
    cases hdot

/-- A graph that was built. -/
abbrev Survey.IsBuilt (s : Survey) : Prop := s.graph.Built

/-- A graph that was built, that pruning does not change any more, and whose entry reaches
every function. -/
structure Survey.Charted (blocks : BlockIndex) (s : Survey) : Prop where
  built : s.graph.Built
  pruned : s.prune blocks = ({}, s)
  reach : ∀ v, s.graph.hasNode v = true → s.graph.Reaches s.graph.entry v

/-! ## Steps that leave the survey alone -/

namespace Campaign

open Progress

variable {σ : Type} {I : Survey → Prop} (c : Campaign) (crew : Crew σ) {p : Progress (Noted σ)}

/-- Staging leaves the survey alone. -/
theorem upholds_stage (hI : I p.survey) (round : Nat) : Upholds I (c.stage crew.noted round) p := by
  have hrest : ∀ {p : Progress (Noted σ)}, I p.survey → Upholds I (do
      let tasks := c.settings.layout.tasks
      (onWorld (crew.noted.files.createDirectories tasks)).orFail (.io tasks)
      let _ ← (onWorld (stageSeeds crew.noted.files (c.seedSource round) c.settings.layout.seeds
        round)).orFail .staging) p := by
    intro p hI
    refine .bind (yields_onWorld hI fun _ _ _ => trivial) ?_
    intro _ p' _ hI
    refine .bind (yields_onWorld hI fun _ _ he => isFault_of_stageSeeds crew.files he) ?_
    intro _ p'' _ hI
    exact .of_ok rfl hI
  rw [stage]
  split
  · refine .bind (yields_onWorld hI fun _ _ he => isFault_of_rotateArtifacts crew.files he) ?_
    intro _ p' _ hI
    exact hrest hI
  · exact hrest hI

/-- Writing the graph down leaves the survey alone. -/
theorem upholds_dumpGraph (hI : I p.survey) : Upholds I (c.dumpGraph crew.noted) p := by
  refine .get_bind (.bind (yields_onWorld hI fun _ _ _ => trivial) ?_)
  intro _ p' _ hI
  exact yields_onWorld hI fun _ _ _ => trivial

/-- Launching one worker leaves the survey alone. -/
theorem upholds_launchWorker (hI : I p.survey) (phase : Phase) (index round : Nat) :
    Upholds I (c.launchWorker crew.noted phase index round) p := by
  refine .bind (upholds_launch crew hI _) ?_
  intro worker p' _ hI
  exact yields_modify hI

/-- Launching the workers of a round leaves the survey alone. -/
theorem upholds_launchFrom (hI : I p.survey) (phase : Phase) (round index count : Nat) :
    Upholds I (c.launchFrom crew.noted phase round index count) p := by
  induction count generalizing index p with
  | zero => exact .of_ok rfl hI
  | succ count ih =>
    have hrest : ∀ {p : Progress (Noted σ)}, I p.survey → Upholds I (do
        c.launchWorker crew.noted phase index round
        c.launchFrom crew.noted phase round (index + 1) count) p := by
      intro p hI
      refine .bind (c.upholds_launchWorker crew hI _ _ _) ?_
      intro _ p' _ hI
      exact ih hI (index + 1)
    rw [launchFrom]
    split
    · refine .bind (upholds_pause crew hI _ _) ?_
      intro _ p' _ hI
      exact hrest hI
    · exact hrest hI

/-- Watching over a round leaves the survey alone. -/
theorem upholds_watch (hI : I p.survey) (round : Nat) (phase : Phase) :
    Upholds I (c.watch crew.noted round phase) p := by
  refine .bind (c.upholds_launchFrom crew hI _ _ _ _) ?_
  intro _ p' _ hI
  refine .bind (upholds_pause crew hI _ _) ?_
  intro _ p'' _ hI
  have hsurvey : (p''.stopRoundWorkers crew.noted).survey = p''.survey :=
    view_stopRoundWorkers crew.noted p'' inward_survey.discreet
  exact yields_modify (by rwa [hsurvey])

/-- Launching the monitor leaves the survey alone. -/
theorem upholds_launchMonitor (hI : I p.survey) : Upholds I (c.launchMonitor crew.noted) p := by
  refine .bind (upholds_launch crew hI _) ?_
  intro worker p' _ hI
  refine .bind (yields_modify hI) ?_
  intro _ p'' _ hI
  exact upholds_pause crew hI _ _

/-! ## Steps that change the graph -/

/-- Pruning charts any graph that was built. -/
theorem charted_prune {s : Survey} (h : s.graph.Built) (blocks : BlockIndex) :
    (s.prune blocks).2.Charted blocks := by
  have hpruned : Survey.Pruned blocks s (s.prune blocks).2 (s.prune blocks).1 :=
    Survey.pruned_prune h.wellFormed
  have hbuilt := Survey.built_prune h blocks
  refine ⟨hbuilt, hpruned.prune_eq hbuilt.wellFormed, ?_⟩
  intro v hv
  exact hpruned.reaches ((hpruned.hasNode_iff v).1 hv)

/-- A pruned survey is charted for the blocks of the inputs. -/
theorem yields_prune (h : p.survey.graph.Built) (reason : CampaignError → Prop) :
    c.prune.Yields (fun p' => p'.survey.Charted c.inputs.blocks) reason p :=
  yields_modifySurvey (I := Survey.Charted c.inputs.blocks)
    (f := fun survey => (survey.prune c.inputs.blocks).2) (charted_prune h c.inputs.blocks)

/-- The preparation fails for a fault of the file system or because there is no seed. -/
theorem prepare_yields (h : p.survey.graph.Built) :
    (c.prepare crew.noted).Yields (fun p' => p'.survey.IsBuilt)
      (fun e => e.IsFault ∨ e = .staging (.emptyCorpus c.settings.campaign.seedCorpus)) p := by
  refine .bind (c.yields_prune h _) ?_
  intro _ p' _ hcharted
  refine .bind (yields_onWorld (I := Survey.IsBuilt) hcharted.built fun _ _ _ => Or.inl trivial) ?_
  intro _ p'' _ hbuilt
  refine .bind (yields_onWorld (I := Survey.IsBuilt) hbuilt fun e n he => ?_) ?_
  · exact (importCorpus_error crew.files he).imp id fun heq => by rw [heq]
  · intro _ p₃ _ hbuilt
    exact .of_ok rfl hbuilt

/-- A pass charts the graph. -/
theorem upholds_refresh (h : p.survey.graph.Built) (isFirst : Bool) :
    Upholds (Survey.Charted c.inputs.blocks) (c.refresh crew.noted isFirst) p := by
  rw [refresh_eq]
  refine .get_bind (.bind (yields_onWorld (I := Survey.IsBuilt) h fun _ _ _ => trivial) ?_)
  intro selected p' _ hbuilt
  refine .bind (yields_modify (I := Survey.IsBuilt) hbuilt) ?_
  intro _ p'' _ hbuilt
  refine .bind (upholds_profile crew (I := Survey.IsBuilt) hbuilt _) ?_
  intro output p₃ _ hbuilt
  refine .bind (yields_modifySurvey (I := Survey.IsBuilt)
    (f := fun survey => (survey.ingest output).2) (Survey.built_ingest hbuilt output)) ?_
  intro _ p₄ _ hbuilt
  exact c.yields_prune hbuilt _

/-- A round has workers: valid settings ask for some beside the monitor. -/
theorem roundWorkers_ne_zero : c.settings.roundWorkers ≠ 0 := by
  have hcount := (CampaignSettings.exploitationRounds_eq_ok_iff.1 c.accepted).1
  rw [Settings.roundWorkers]
  omega

/-- Write the tasks of a plan, and the tree that they were cut from. -/
def writePlan (plan : PartitionPlan) (graph : CallGraph) : Step σ Unit := do
  let _ ← (onWorld (plan.writeTasks crew.files c.settings.layout.tasks)).orFail .partition
  match plan.arborescence with
  | none => pure ()
  | some tree =>
    let file := c.settings.layout.treeDot
    (onWorld (crew.files.writeText file (graph.toDotWith tree))).orFail (.io file)

/-- Cutting the graph of a campaign, as its settings say. -/
def cut (graph : CallGraph) : Except PartitionError PartitionPlan × CallGraph :=
  graph.split c.settings.campaign.strategy c.settings.roundWorkers c.inputs.sources
    c.settings.campaign.scoreCap

/-- A partition cuts the graph, keeps the marks that the cut left on it, and writes the plan or
fails. -/
theorem partition_apply (crew : Crew σ) (p : Progress σ) : c.partition crew p =
    (match (c.cut p.survey.graph).1 with
      | .error e => throw (.partition e)
      | .ok plan => c.writePlan crew plan (c.cut p.survey.graph).2 : Step σ Unit)
        { p with survey := { p.survey with graph := (c.cut p.survey.graph).2 } } := rfl

/-- A partition whose cut succeeds goes on to write the plan. -/
theorem partition_of_ok (crew : Crew σ) {p : Progress σ} {plan : PartitionPlan}
    (h : (c.cut p.survey.graph).1 = .ok plan) : c.partition crew p =
      c.writePlan crew plan (c.cut p.survey.graph).2
        { p with survey := { p.survey with graph := (c.cut p.survey.graph).2 } } := by
  rw [partition_apply, h]

/-- A charted graph can be cut, whatever the strategy. -/
theorem exists_plan {s : Survey} (h : s.Charted c.inputs.blocks) :
    ∃ plan, (c.cut s.graph).1 = .ok plan ∧ plan.tasks.length = c.settings.roundWorkers ∧
      s.graph.Covers c.inputs.sources plan :=
  h.built.wellFormed.exists_split h.reach c.roundWorkers_ne_zero _ _ _

/-- Writing a plan leaves the functions alone, whatever marks it puts on the graph. -/
theorem upholds_writePlan {I : Survey → Prop} (hI : I p.survey) (plan : PartitionPlan)
    (graph : CallGraph) : Upholds I (c.writePlan crew.noted plan graph) p := by
  refine .bind (yields_onWorld hI fun _ _ he => isFault_of_writeTasks crew.files he) ?_
  intro _ p' _ hI
  split
  · exact .of_ok rfl hI
  · exact yields_onWorld hI fun _ _ _ => trivial

/-- Cutting a charted graph fails only when a file cannot be written. -/
theorem upholds_partition (h : p.survey.Charted c.inputs.blocks) :
    Upholds Survey.IsBuilt (c.partition crew.noted) p := by
  obtain ⟨plan, hplan, -, -⟩ := c.exists_plan h
  refine .congr (c.partition_of_ok crew.noted hplan).symm ?_
  exact c.upholds_writePlan crew (I := Survey.IsBuilt) (h.built.split _ _ _ _) _ _

/-- What a round does to the graph keeps it built. -/
theorem upholds_chart (h : p.survey.graph.Built) (phase : Phase) (round : Nat) :
    Upholds Survey.IsBuilt (c.chart crew.noted phase round) p := by
  cases phase with
  | scanning => exact c.upholds_dumpGraph crew (I := Survey.IsBuilt) h
  | exploiting =>
    refine .bind (c.upholds_refresh crew h (round == 2)) ?_
    intro _ p' _ hcharted
    refine .bind (c.upholds_partition crew hcharted) ?_
    intro _ p'' _ hbuilt
    exact c.upholds_dumpGraph crew (I := Survey.IsBuilt) hbuilt

/-- A round keeps the graph built. -/
theorem upholds_runRound (h : p.survey.graph.Built) :
    Upholds Survey.IsBuilt (c.runRound crew.noted) p := by
  rw [runRound_eq]
  refine .get_bind (.bind (c.upholds_stage crew (I := Survey.IsBuilt) h _) ?_)
  intro _ p' _ hbuilt
  refine .bind (c.upholds_chart crew hbuilt _ _) ?_
  intro _ p'' _ hbuilt
  exact c.upholds_watch crew (I := Survey.IsBuilt) hbuilt _ _

/-- Rounds keep the graph built. -/
theorem upholds_runRounds (h : p.survey.graph.Built) (count : Nat) :
    Upholds Survey.IsBuilt (c.runRounds crew.noted count) p := by
  induction count generalizing p with
  | zero => exact .of_ok rfl h
  | succ count ih =>
    refine .bind (c.upholds_runRound crew h) ?_
    intro _ p' _ hbuilt
    refine .bind (yields_modify (I := Survey.IsBuilt) hbuilt) ?_
    intro _ p'' _ hbuilt
    exact ih hbuilt

/-- Why a campaign can fail: because a request does, or at the very start because there
is nothing to import. -/
theorem drive_error (h : c.inputs.graph.Built) {world : Noted σ} {e : CampaignError}
    (he : c.drive crew.noted (c.start world) = (.error e, p)) :
    e.IsFault ∨ e = .staging (.emptyCorpus c.settings.campaign.seedCorpus) ∧
      c.prepare crew.noted (c.start world) = (.error e, p) := by
  have hprepare := c.prepare_yields crew (p := c.start world) h
  rw [drive_apply, bind_apply] at he
  cases hfirst : c.prepare crew.noted (c.start world) with
  | mk result p' =>
    rw [hfirst] at he
    cases result with
    | ok u =>
      have hrest : Upholds Survey.IsBuilt (do
          c.launchMonitor crew.noted
          c.runRounds crew.noted c.totalRounds.toNat) p' := by
        refine .bind (c.upholds_launchMonitor crew (I := Survey.IsBuilt)
          (hprepare.kept _ _ hfirst)) ?_
        intro _ p'' _ hbuilt
        exact c.upholds_runRounds crew hbuilt _
      exact Or.inl (hrest.excused _ _ he)
    | error e' =>
      cases he
      exact (hprepare.excused _ _ hfirst).imp id fun heq => ⟨heq, rfl⟩

end Campaign

end FuzzCampaign

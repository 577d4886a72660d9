import FuzzCampaign.Proofs.Campaign.Transcript

/-!
# What the steps of a campaign leave alone

Work on files, waiting and profiling change the world and the journal only.  Pruning
and profiling also change the survey, but neither the round nor its phase.  None of
them changes which workers run.

Main definitions:

- `Progress.Unworldly`, `Progress.Discreet` and `Progress.Inward`: views of a campaign that
  show neither its world nor, some of them, its journal.
- `Progress.standing`: the round, its phase and the running workers.
- `Action.Keeps`: an action leaves a view alone.

Main results:

- `keeps_stage`, `keeps_prepare` and `keeps_chart`: steps that keep the standing.
- `muster_launchFrom`: launching workers adds them to those of the round.
- `runRound_ok`: what a round that is over leaves behind.
- `opened_of_launchMonitor`: where a campaign stands when its first round begins.
-/

namespace FuzzCampaign

/-! ## Bookkeeping besides the spare set -/

/-- The bookkeeping besides the spare set. -/
def CampaignState.forgetSpare (s : CampaignState) : CampaignState := { s with spare := ∅ }

namespace Survey

/-- Dropping a function parks it, if anything. -/
theorem forgetSpare_drop (s : Survey) (node : Nat) :
    (s.drop node).2.state.forgetSpare = s.state.forgetSpare := by
  rw [drop]
  split <;> rfl

/-- Dropping functions one after the other parks them. -/
theorem forgetSpare_dropAll (s : Survey) (nodes : List Nat) :
    (s.dropAll nodes).2.state.forgetSpare = s.state.forgetSpare := by
  induction nodes generalizing s with
  | nil => rfl
  | cons node rest ih => exact (ih (s.drop node).2).trans (s.forgetSpare_drop node)

/-- Pruning parks functions and changes nothing else of the bookkeeping. -/
theorem forgetSpare_prune (blocks : BlockIndex) (s : Survey) :
    (s.prune blocks).2.state.forgetSpare = s.state.forgetSpare := by
  simp only [prune, dropUnreachable, dropDisconnected, dropUninstrumented, forgetSpare_dropAll]

/-- Looking up an observed function takes it out of the spare set, if anything. -/
theorem forgetSpare_observedNode (s : Survey) (name : String) :
    (s.observedNode name).2.state.forgetSpare = s.state.forgetSpare := by
  rw [observedNode]
  split <;> rfl

/-- The same for all calls that were observed. -/
theorem forgetSpare_observe (s : Survey) (facts : List CallFact) :
    (s.observe facts).state.forgetSpare = s.state.forgetSpare := by
  induction facts generalizing s with
  | nil => rfl
  | cons fact rest ih =>
    rw [observe_cons, ih]
    exact (forgetSpare_observedNode _ _).trans (forgetSpare_observedNode _ _)

/-- Observed calls take functions out of the spare set and change nothing else of the
bookkeeping. -/
theorem forgetSpare_ingest (s : Survey) (output : ProfileOutput) :
    (s.ingest output).2.state.forgetSpare = s.state.forgetSpare :=
  s.forgetSpare_observe _

end Survey

/-! ## Taking seeds -/

/-- Taking seeds does not change the round. -/
theorem CampaignState.round_takeSeeds (isFirst : Bool) (names : List String) (s : CampaignState) :
    (takeSeeds isFirst names s).2.round = s.round := by
  induction names generalizing s with
  | nil => rfl
  | cons name rest ih =>
    rw [takeSeeds]
    split
    · exact ih (s.recordProfiled name)
    · exact ih s

/-- Taking seeds does not change the phase. -/
theorem CampaignState.phase_takeSeeds (isFirst : Bool) (names : List String) (s : CampaignState) :
    (takeSeeds isFirst names s).2.phase = s.phase := by
  induction names generalizing s with
  | nil => rfl
  | cons name rest ih =>
    rw [takeSeeds]
    split
    · exact ih (s.recordProfiled name)
    · exact ih s

/-! ## Actions that leave something alone -/

namespace Action

variable {τ ε ε' α β γ : Type} {view : τ → γ} {t : τ}

/-- An action leaves what a view shows of a state as it is, however the action ends. -/
def Keeps (view : τ → γ) (action : Action τ ε α) (t : τ) : Prop := view (action t).2 = view t

/-- What an action leaves alone is after it as it was before. -/
theorem Keeps.apply_eq {action : Action τ ε α} (h : action.Keeps view t) {result : Except ε α}
    {t' : τ} (happly : action t = (result, t')) : view t' = view t := by
  rw [Keeps, happly] at h
  exact h

/-- Actions one after the other leave alone what each of them does. -/
theorem Keeps.bind {x : Action τ ε α} {f : α → Action τ ε β} (h : x.Keeps view t)
    (h' : ∀ a t', x t = (.ok a, t') → (f a).Keeps view t') : (x >>= f).Keeps view t := by
  rw [Keeps] at h ⊢
  rw [bind_apply]
  cases hx : x t with
  | mk result t' =>
    rw [hx] at h
    cases result with
    | ok a => exact (h' a t' hx).trans h
    | error e => exact h

/-- An error that is passed on changes nothing more. -/
theorem Keeps.orFail {action : Action τ ε α} (h : action.Keeps view t) (f : ε → ε') :
    (action.orFail f).Keeps view t := by
  rw [Keeps, orFail_apply]
  exact h

/-- A change leaves alone what the view shows after it as before. -/
theorem Keeps.modify {f : τ → τ} (h : view (f t) = view t) :
    (modify f : Action τ ε PUnit).Keeps view t := h

/-- The same for a new state. -/
theorem Keeps.set {t' : τ} (h : view t' = view t) : (set t' : Action τ ε PUnit).Keeps view t := h

end Action

open FuzzCampaign.Action

namespace Progress

variable {σ γ : Type}

/-- A view of a campaign that does not show its world. -/
def Unworldly (view : Progress σ → γ) : Prop :=
  ∀ (p : Progress σ) (world : σ), view { p with world := world } = view p

/-- A view of a campaign that shows neither its world nor what its journal says besides
profiling passes. -/
structure Discreet (view : Progress σ → γ) : Prop where
  world : Unworldly view
  record : ∀ (p : Progress σ) (event : Event), (∀ seeds, event ≠ .profiled seeds) →
    view (p.record event) = view p

/-- A view of a campaign that shows neither its world nor its journal. -/
structure Inward (view : Progress σ → γ) : Prop where
  world : Unworldly view
  journal : ∀ (p : Progress σ) (journal : List Event), view { p with journal := journal } = view p

/-- Who does not see the journal does not see its entries. -/
theorem Inward.discreet {view : Progress σ → γ} (hview : Inward view) : Discreet view :=
  ⟨hview.world, fun _ _ _ => hview.journal _ _⟩

/-- Where a campaign stands: its round, the phase of it, and its workers. -/
structure Standing where
  round : UInt32
  phase : Phase
  monitor : Option Worker
  roundWorkers : List Worker
  roundsRun : Nat
  workersLaunched : Nat

/-- Where a campaign stands. -/
def standing (p : Progress σ) : Standing where
  round := p.survey.state.round
  phase := p.survey.state.phase
  monitor := p.monitor
  roundWorkers := p.roundWorkers
  roundsRun := p.roundsRun
  workersLaunched := p.workersLaunched

/-- The bookkeeping of a campaign besides the spare set. -/
def ledger (p : Progress σ) : CampaignState := p.survey.state.forgetSpare

/-- The bookkeeping shows neither the world nor the journal. -/
theorem inward_ledger : Inward (ledger : Progress σ → CampaignState) :=
  ⟨fun _ _ => rfl, fun _ _ => rfl⟩

/-- A change of the survey that keeps its bookkeeping besides the spare set. -/
theorem keeps_modifySurvey {f : Survey → Survey} (p : Progress σ)
    (h : (f p.survey).state.forgetSpare = p.survey.state.forgetSpare) :
    (modify fun p => { p with survey := f p.survey } : Step σ Unit).Keeps ledger p := h

/-- Where a campaign stands shows neither the world nor the journal. -/
theorem inward_standing : Inward (standing : Progress σ → Standing) :=
  ⟨fun _ _ => rfl, fun _ _ => rfl⟩

theorem inward_survey : Inward (Progress.survey : Progress σ → Survey) :=
  ⟨fun _ _ => rfl, fun _ _ => rfl⟩

theorem inward_monitor : Inward (Progress.monitor : Progress σ → Option Worker) :=
  ⟨fun _ _ => rfl, fun _ _ => rfl⟩

theorem inward_roundsRun : Inward (Progress.roundsRun : Progress σ → Nat) :=
  ⟨fun _ _ => rfl, fun _ _ => rfl⟩

theorem inward_workersLaunched : Inward (Progress.workersLaunched : Progress σ → Nat) :=
  ⟨fun _ _ => rfl, fun _ _ => rfl⟩

/-- The standing depends on the survey through its bookkeeping besides the spare set. -/
theorem standing_of_forgetSpare (p : Progress σ) {survey : Survey}
    (h : survey.state.forgetSpare = p.survey.state.forgetSpare) :
    ({ p with survey := survey } : Progress σ).standing = p.standing := by
  have hround : survey.state.forgetSpare.round = p.survey.state.forgetSpare.round := by rw [h]
  have hphase : survey.state.forgetSpare.phase = p.survey.state.forgetSpare.phase := by rw [h]
  exact congrArg₂
    (fun round phase => ({ p.standing with round := round, phase := phase } : Standing))
    hround hphase

/-- Work on the world leaves everything else as it is. -/
theorem onWorld_apply {ε α : Type} (action : Action σ ε α) (p : Progress σ) :
    onWorld action p = ((action p.world).1, { p with world := (action p.world).2 }) :=
  rfl

/-- Work on the world that succeeds. -/
theorem orFail_onWorld_ok {ε α : Type} {action : Action σ ε α} {f : ε → CampaignError} {a : α}
    {p p' : Progress σ} (h : (onWorld action).orFail f p = (.ok a, p')) :
    ∃ world, action p.world = (.ok a, world) ∧ p' = { p with world := world } := by
  have honWorld := orFail_eq_ok.1 h
  have hresult : (action p.world).1 = .ok a := congrArg Prod.fst honWorld
  have hstate : { p with world := (action p.world).2 } = p' := congrArg Prod.snd honWorld
  exact ⟨_, Prod.ext hresult rfl, hstate.symm⟩

variable (crew : Crew σ) (p : Progress σ)

/-- A launch that the crew answers with a worker. -/
theorem launch_of_ok {spec : WorkerSpec} {worker : Worker} {world : σ}
    (h : crew.launch spec p.world = (.ok worker, world)) : Progress.launch crew spec p =
      (.ok worker, Progress.record
        { p with world := world, workersLaunched := p.workersLaunched + 1 } (.launched spec)) := by
  simp only [Progress.launch, h]

/-- A launch that fails. -/
theorem launch_of_error {spec : WorkerSpec} {e : WorkerError} {world : σ}
    (h : crew.launch spec p.world = (.error e, world)) : Progress.launch crew spec p =
      (.error (.launch e), Progress.record { p with world := world } (.launchFailed spec)) := by
  simp only [Progress.launch, h]

/-- A pause ends well exactly when nobody interrupted. -/
theorem pause_apply (millis round : Nat) : Progress.pause crew millis round p =
    (if (crew.pause millis p.world).1 = true then .ok () else .error (.interrupted round),
      Progress.record { p with world := (crew.pause millis p.world).2 }
        (.paused millis (crew.pause millis p.world).1)) := by
  cases hpause : crew.pause millis p.world with
  | mk completed world => cases completed <;> simp [Progress.pause, hpause]

/-- A profiling pass ends as the crew answers. -/
theorem profile_apply (seeds : List Path) : Progress.profile crew seeds p =
    ((crew.profile seeds p.world).1.mapError fun e => .coverage (.profile e),
      Progress.record { p with world := (crew.profile seeds p.world).2 } (.profiled seeds)) := by
  rw [Progress.profile]
  split <;> simp_all [Except.mapError]

variable {view : Progress σ → γ}

/-- Work on the world is not seen by a view that does not show the world. -/
theorem keeps_onWorld (hworld : Unworldly view) {ε α : Type} (action : Action σ ε α) :
    (onWorld action).Keeps view p :=
  hworld _ _

/-- A profiling pass is not seen by a view that shows neither the world nor the journal. -/
theorem keeps_profile (hview : Inward view) (seeds : List Path) :
    (Progress.profile crew seeds).Keeps view p := by
  rw [Keeps, profile_apply]
  exact (hview.journal _ _).trans (hview.world _ _)

section

variable (hview : Discreet view)

include hview

/-- A pause is not seen by a discreet view. -/
theorem keeps_pause (millis round : Nat) : (Progress.pause crew millis round).Keeps view p := by
  rw [Keeps, pause_apply]
  exact (hview.record _ _ (by simp)).trans (hview.world _ _)

/-- Nor is stopping a worker. -/
theorem view_stop (worker : Worker) : view (p.stop crew worker) = view p :=
  (hview.record _ _ (by simp)).trans (hview.world _ _)

/-- Stopping the workers of a round changes no view that does not show them. -/
theorem view_stopRoundWorkers :
    view (p.stopRoundWorkers crew) = view { p with roundWorkers := [] } := by
  have hfold : ∀ (workers : List Worker) (q : Progress σ),
      view (workers.foldl (stop crew) q) = view q := by
    intro workers
    induction workers with
    | nil => exact fun _ => rfl
    | cons worker rest ih =>
      intro q
      exact (ih (q.stop crew worker)).trans (view_stop crew q hview worker)
  exact hfold p.roundWorkers { p with roundWorkers := [] }

/-- Stopping the monitor changes no view that does not show it. -/
theorem view_stopMonitor (hmonitor : ∀ p : Progress σ, view { p with monitor := none } = view p) :
    view (p.stopMonitor crew) = view p := by
  rw [stopMonitor]
  split
  · exact (view_stop crew _ hview _).trans (hmonitor p)
  · rfl

/-- Stopping everybody changes no view that shows no workers. -/
theorem view_stopAll (hmonitor : ∀ p : Progress σ, view { p with monitor := none } = view p)
    (hworkers : ∀ p : Progress σ, view { p with roundWorkers := [] } = view p) :
    view ((p.stopRoundWorkers crew).stopMonitor crew) = view p := by
  rw [view_stopMonitor crew _ hview hmonitor, view_stopRoundWorkers crew p hview, hworkers]

end

end Progress

/-! ## The steps of a campaign -/

namespace Campaign

open Progress

variable {σ γ : Type} (c : Campaign) (crew : Crew σ) (p : Progress σ)

/-- A run drives the campaign, stops everybody and sums up. -/
theorem run_apply (world : σ) : c.run crew world =
    ((c.drive crew (c.start world)).1.map fun _ => c.summary
        (((c.drive crew (c.start world)).2.stopRoundWorkers crew).stopMonitor crew),
      ((c.drive crew (c.start world)).2.stopRoundWorkers crew).stopMonitor crew) := rfl

section

variable {view : Progress σ → γ} (hworld : Unworldly view)

include hworld

/-- Putting the files of a round into place changes the world only. -/
theorem keeps_stage (round : Nat) : (c.stage crew round).Keeps view p := by
  have hrest : ∀ p', (do
      let tasks := c.settings.layout.tasks
      (onWorld (crew.files.createDirectories tasks)).orFail (.io tasks)
      let _ ← (onWorld (stageSeeds crew.files (c.seedSource round) c.settings.layout.seeds
        round)).orFail .staging : Step σ Unit).Keeps view p' := by
    intro p'
    refine .bind ((keeps_onWorld p' hworld _).orFail _) ?_
    intro _ p'' _
    refine .bind ((keeps_onWorld p'' hworld _).orFail _) ?_
    intro _ p₃ _
    exact rfl
  rw [stage]
  split
  · refine .bind ((keeps_onWorld p hworld _).orFail _) ?_
    intro _ p' _
    exact hrest p'
  · exact hrest p

/-- So does writing the graph. -/
theorem keeps_dumpGraph : (c.dumpGraph crew).Keeps view p := by
  refine .bind (rfl : view p = view p) ?_
  intro _ p' hp
  cases hp
  refine .bind ((keeps_onWorld p hworld _).orFail _) ?_
  intro _ p'' _
  exact (keeps_onWorld p'' hworld _).orFail _

end

/-- Pruning does not change where a campaign stands. -/
theorem keeps_prune : (c.prune).Keeps standing p :=
  p.standing_of_forgetSpare (p.survey.forgetSpare_prune c.inputs.blocks)

/-- Pruning changes no bookkeeping besides the spare set. -/
theorem keeps_prune_ledger : (c.prune).Keeps ledger p :=
  keeps_modifySurvey (f := fun survey => (survey.prune c.inputs.blocks).2) p
    (p.survey.forgetSpare_prune c.inputs.blocks)

/-- Preparing changes no view that pruning does not change. -/
theorem keeps_prepare {view : Progress σ → γ} (hworld : Unworldly view)
    (hprune : (c.prune).Keeps view p) : (c.prepare crew).Keeps view p := by
  refine .bind hprune ?_
  intro _ p' _
  refine .bind ((keeps_onWorld p' hworld _).orFail _) ?_
  intro _ p'' _
  refine .bind ((keeps_onWorld p'' hworld _).orFail _) ?_
  intro _ p₃ _
  exact rfl

/-- What a pass selects is what it takes of some names, the listed ones. -/
theorem selectSeeds_ok {files : FileSystem σ} {dir : Path} {isFirst : Bool} {s s' : CampaignState}
    {seeds : List Path} {w w' : σ}
    (h : selectSeeds files dir isFirst s w = (.ok (seeds, s'), w')) :
    ∃ listed, seeds = (CampaignState.takeSeeds isFirst listed s).1.map dir.join ∧
      s' = (CampaignState.takeSeeds isFirst listed s).2 := by
  rw [selectSeeds, bind_apply] at h
  simp only [Action.observe] at h
  split at h
  · rw [bind_apply] at h
    split at h
    · next names _ _ =>
      cases h
      exact ⟨names, rfl, rfl⟩
    · cases h
  · cases h
    exact ⟨[], rfl, rfl⟩

/-- What a profiling pass does once its seeds are selected. -/
def profileAndPrune (seeds : List Path) (state : CampaignState) : Step σ Unit := do
  modify fun p => { p with survey := { p.survey with state := state } }
  let output ← Progress.profile crew seeds
  modify fun p => { p with survey := (p.survey.ingest output).2 }
  c.prune

/-- A pass selects seeds, and then profiles them. -/
theorem refresh_eq (isFirst : Bool) : c.refresh crew isFirst = (do
    let p ← get
    let selected ← (onWorld (selectSeeds crew.files c.settings.layout.monitorQueue isFirst
      p.survey.state)).orFail .coverage
    c.profileAndPrune crew selected.1 selected.2) := rfl

/-- What ingesting and pruning leave alone is after a pass as profiling left it. -/
theorem view_profileAndPrune {view : Progress σ → γ}
    (hingest : ∀ (p : Progress σ) (output : ProfileOutput),
      view { p with survey := (p.survey.ingest output).2 } = view p)
    (hprune : ∀ p, (c.prune).Keeps view p) (seeds : List Path) (state : CampaignState) :
    view (c.profileAndPrune crew seeds state p).2 = view (Progress.profile crew seeds
      { p with survey := { p.survey with state := state } }).2 := by
  have happly : c.profileAndPrune crew seeds state p = (do
      let output ← Progress.profile crew seeds
      modify fun p => { p with survey := (p.survey.ingest output).2 }
      c.prune : Step σ Unit) { p with survey := { p.survey with state := state } } := rfl
  rw [happly, bind_apply]
  cases Progress.profile crew seeds { p with survey := { p.survey with state := state } } with
  | mk answer p' =>
    cases answer with
    | error e => rfl
    | ok output => exact Keeps.bind (.modify (hingest p' output)) fun _ p'' _ => hprune p''

/-- After a pass the bookkeeping is the one that selecting the seeds left, but for the
spare set. -/
theorem ledger_profileAndPrune {seeds : List Path} {state : CampaignState} {p p' : Progress σ}
    {result : Except CampaignError Unit}
    (h : c.profileAndPrune crew seeds state p = (result, p')) :
    p'.ledger = state.forgetSpare := by
  have hafter : (c.profileAndPrune crew seeds state p).2.ledger = state.forgetSpare :=
    (c.view_profileAndPrune crew p (fun q output => q.survey.forgetSpare_ingest output)
      c.keeps_prune_ledger seeds state).trans (keeps_profile crew _ inward_ledger seeds)
  rwa [h] at hafter

/-- Profiling does not change where a campaign stands, if the new bookkeeping has its round and
phase. -/
theorem keeps_profileAndPrune (seeds : List Path) {state : CampaignState}
    (hround : state.round = p.survey.state.round) (hphase : state.phase = p.survey.state.phase) :
    (c.profileAndPrune crew seeds state).Keeps standing p := by
  refine .bind (.modify ?_) ?_
  · simp only [standing, hround, hphase]
  · intro _ p' _
    refine .bind (keeps_profile crew p' inward_standing seeds) ?_
    intro output p'' _
    refine .bind (.modify (p''.standing_of_forgetSpare (p''.survey.forgetSpare_ingest output))) ?_
    intro _ p₃ _
    exact c.keeps_prune p₃

/-- A pass does not change where a campaign stands. -/
theorem keeps_refresh (isFirst : Bool) : (c.refresh crew isFirst).Keeps standing p := by
  rw [refresh_eq]
  refine .bind (rfl : p.standing = p.standing) ?_
  intro _ p' hp
  cases hp
  refine .bind ((keeps_onWorld p inward_standing.world _).orFail _) ?_
  rintro ⟨seeds, state⟩ p' hseeds
  obtain ⟨world, hselect, rfl⟩ := orFail_onWorld_ok hseeds
  obtain ⟨listed, -, rfl⟩ := selectSeeds_ok hselect
  exact c.keeps_profileAndPrune crew _ seeds (CampaignState.round_takeSeeds _ _ _)
    (CampaignState.phase_takeSeeds _ _ _)

/-- Cutting the graph changes no view that does not show it. -/
theorem keeps_partition {view : Progress σ → γ} (hworld : Unworldly view)
    (hgraph : ∀ (p : Progress σ) (graph : CallGraph),
      view { p with survey := { p.survey with graph := graph } } = view p) :
    (c.partition crew).Keeps view p := by
  refine .bind (rfl : view p = view p) ?_
  intro _ p' hp
  cases hp
  refine .bind (.set (hgraph p _)) ?_
  intro _ p' _
  split
  · exact rfl
  · refine .bind ((keeps_onWorld p' hworld _).orFail _) ?_
    intro _ p'' _
    split
    · exact rfl
    · exact (keeps_onWorld p'' hworld _).orFail _

/-- What follows a pass leaves the bookkeeping as it is. -/
theorem keeps_partition_dumpGraph : (do
    c.partition crew
    c.dumpGraph crew : Step σ Unit).Keeps ledger p := by
  refine .bind (c.keeps_partition crew p inward_ledger.world fun _ _ => rfl) ?_
  intro _ p' _
  exact c.keeps_dumpGraph crew p' inward_ledger.world

/-- Bringing the graph up to date does not change where a campaign stands. -/
theorem keeps_chart (phase : Phase) (round : Nat) :
    (c.chart crew phase round).Keeps standing p := by
  cases phase with
  | scanning => exact c.keeps_dumpGraph crew p inward_standing.world
  | exploiting =>
    refine .bind (c.keeps_refresh crew p (round == 2)) ?_
    intro _ p' _
    refine .bind (c.keeps_partition crew p' inward_standing.world fun _ _ => rfl) ?_
    intro _ p'' _
    exact c.keeps_dumpGraph crew p'' inward_standing.world

/-! ## Launching and stopping -/

/-- What launching a worker leaves alone, and the workers of the round, to which it
adds. -/
structure Muster (p p' : Progress σ) (count : Nat) : Prop where
  survey_eq : p'.survey = p.survey
  monitor_eq : p'.monitor = p.monitor
  roundsRun_eq : p'.roundsRun = p.roundsRun
  exists_team : ∃ team, team.length = count ∧ p'.roundWorkers = p.roundWorkers ++ team

/-- Launches one after the other. -/
theorem Muster.trans {p p' p'' : Progress σ} {m n : Nat} (h : Muster p p' m)
    (h' : Muster p' p'' n) : Muster p p'' (m + n) := by
  obtain ⟨front, hfront, hp'⟩ := h.exists_team
  obtain ⟨back, hback, hp''⟩ := h'.exists_team
  refine ⟨h'.survey_eq.trans h.survey_eq, h'.monitor_eq.trans h.monitor_eq,
    h'.roundsRun_eq.trans h.roundsRun_eq, front ++ back, ?_, ?_⟩
  · rw [List.length_append, hfront, hback]
  · rw [hp'', hp', List.append_assoc]

/-- A pause launches nobody. -/
theorem muster_pause {millis round : Nat} {u : Unit} {p p' : Progress σ}
    (h : Progress.pause crew millis round p = (.ok u, p')) : Muster p p' 0 := by
  have hsurvey := (keeps_pause crew p inward_survey.discreet millis round).apply_eq h
  have hstanding := (keeps_pause crew p inward_standing.discreet millis round).apply_eq h
  have hworkers : p'.roundWorkers = p.roundWorkers := congrArg Standing.roundWorkers hstanding
  exact ⟨hsurvey, congrArg Standing.monitor hstanding, congrArg Standing.roundsRun hstanding, [],
    rfl, by rw [hworkers, List.append_nil]⟩

/-- Launching a worker adds it to those of the round. -/
theorem muster_launchWorker {phase : Phase} {index round : Nat} {u : Unit} {p p' : Progress σ}
    (h : c.launchWorker crew phase index round p = (.ok u, p')) : Muster p p' 1 := by
  obtain ⟨worker, p₁, hlaunch, hmodify⟩ := bind_eq_ok h
  cases hanswer : crew.launch (c.settings.fleet.roundWorker phase index round) p.world with
  | mk answer world =>
    cases answer with
    | ok worker' =>
      rw [launch_of_ok crew p hanswer] at hlaunch
      cases hlaunch
      cases hmodify
      exact ⟨rfl, rfl, rfl, [worker], rfl, rfl⟩
    | error e =>
      rw [launch_of_error crew p hanswer] at hlaunch
      cases hlaunch

/-- After launching, the workers of the round are those from before and the new ones. -/
theorem muster_launchFrom {phase : Phase} {round index count : Nat} {u : Unit}
    {p p' : Progress σ} (h : c.launchFrom crew phase round index count p = (.ok u, p')) :
    Muster p p' count := by
  induction count generalizing index p with
  | zero =>
    cases h
    exact ⟨rfl, rfl, rfl, [], rfl, (List.append_nil _).symm⟩
  | succ count ih =>
    have hrest : ∀ {p : Progress σ} {u : Unit}, (do
        c.launchWorker crew phase index round
        c.launchFrom crew phase round (index + 1) count : Step σ Unit) p = (.ok u, p') →
        Muster p p' (count + 1) := by
      intro p u h
      obtain ⟨_, p₁, hworker, hothers⟩ := bind_eq_ok h
      rw [Nat.add_comm]
      exact (c.muster_launchWorker crew hworker).trans (ih hothers)
    rw [launchFrom] at h
    split at h
    · obtain ⟨_, p₁, hpause, hlaunch⟩ := bind_eq_ok h
      simpa using (muster_pause crew hpause).trans (hrest hlaunch)
    · exact hrest h

/-- Launch the workers of a round, let them run and stop them. -/
def watch (round : Nat) (phase : Phase) : Step σ Unit := do
  c.launchFrom crew phase round 1 c.settings.roundWorkers
  Progress.pause crew (c.settings.phaseMillis phase) round
  modify (Progress.stopRoundWorkers crew)

/-- A round puts its files into place, brings the graph up to date and is watched. -/
theorem runRound_eq : c.runRound crew = (do
    let p ← get
    c.stage crew p.survey.state.round.toNat
    c.chart crew p.survey.state.phase p.survey.state.round.toNat
    c.watch crew p.survey.state.round.toNat p.survey.state.phase) := by
  simp only [runRound, watch]

/-- A round under its number and phase. -/
theorem runRound_apply {round : Nat} {phase : Phase}
    (hround : p.survey.state.round.toNat = round) (hphase : p.survey.state.phase = phase) :
    c.runRound crew p = (do
      c.stage crew round
      c.chart crew phase round
      c.watch crew round phase : Step σ Unit) p := by
  rw [runRound_eq, bind_apply, ← hround, ← hphase]
  rfl

/-- After a round was watched its workers are gone, and everything else is as it was. -/
theorem watch_ok {round : Nat} {phase : Phase} {u : Unit} {p p' : Progress σ}
    (h : c.watch crew round phase p = (.ok u, p')) :
    p'.survey = p.survey ∧ p'.monitor = p.monitor ∧ p'.roundsRun = p.roundsRun ∧
      p'.roundWorkers = [] := by
  obtain ⟨_, p₁, hlaunch, hrest⟩ := bind_eq_ok h
  obtain ⟨_, p₂, hpause, hstop⟩ := bind_eq_ok hrest
  have hmuster := (c.muster_launchFrom crew hlaunch).trans (muster_pause crew hpause)
  cases hstop
  refine ⟨?_, ?_, ?_, roundWorkers_stopRoundWorkers crew p₂⟩
  · exact (view_stopRoundWorkers crew p₂ inward_survey.discreet).trans hmuster.survey_eq
  · exact (view_stopRoundWorkers crew p₂ inward_monitor.discreet).trans hmuster.monitor_eq
  · exact (view_stopRoundWorkers crew p₂ inward_roundsRun.discreet).trans hmuster.roundsRun_eq

/-- A round that is over leaves the campaign where it was, and without its workers. -/
theorem runRound_ok {u : Unit} {p p' : Progress σ} (h : c.runRound crew p = (.ok u, p')) :
    p'.survey.state.round = p.survey.state.round ∧ p'.survey.state.phase = p.survey.state.phase ∧
      p'.monitor = p.monitor ∧ p'.roundsRun = p.roundsRun ∧ p'.roundWorkers = [] := by
  rw [c.runRound_apply crew p rfl rfl] at h
  obtain ⟨_, p₁, hstage, hrest⟩ := bind_eq_ok h
  obtain ⟨_, p₂, hchart, hwatch⟩ := bind_eq_ok hrest
  have hstanding : p₂.standing = p.standing :=
    ((c.keeps_chart crew p₁ _ _).apply_eq hchart).trans
      ((c.keeps_stage crew p inward_standing.world _).apply_eq hstage)
  obtain ⟨hsurvey, hmonitor, hroundsRun, hidle⟩ := c.watch_ok crew hwatch
  refine ⟨?_, ?_, ?_, ?_, hidle⟩
  · rw [hsurvey]
    exact congrArg Standing.round hstanding
  · rw [hsurvey]
    exact congrArg Standing.phase hstanding
  · rw [hmonitor]
    exact congrArg Standing.monitor hstanding
  · rw [hroundsRun]
    exact congrArg Standing.roundsRun hstanding

/-- Launching the monitor. -/
theorem launchMonitor_ok {u : Unit} {p p' : Progress σ}
    (h : c.launchMonitor crew p = (.ok u, p')) :
    p'.survey = p.survey ∧ p'.roundsRun = p.roundsRun ∧ p'.roundWorkers = p.roundWorkers ∧
      ∃ worker, p'.monitor = some worker := by
  obtain ⟨worker, p₁, hlaunch, hrest⟩ := bind_eq_ok h
  obtain ⟨_, p₂, hmodify, hpause⟩ := bind_eq_ok hrest
  cases hmodify
  have hsurvey := (keeps_pause crew _ inward_survey.discreet _ _).apply_eq hpause
  have hstanding := (keeps_pause crew _ inward_standing.discreet _ _).apply_eq hpause
  have hmonitor := congrArg Standing.monitor hstanding
  have hroundsRun := congrArg Standing.roundsRun hstanding
  have hroundWorkers := congrArg Standing.roundWorkers hstanding
  cases hanswer : crew.launch c.settings.fleet.monitor p.world with
  | mk answer world =>
    cases answer with
    | ok worker' =>
      rw [launch_of_ok crew p hanswer] at hlaunch
      cases hlaunch
      exact ⟨hsurvey, hroundsRun, hroundWorkers, worker, hmonitor⟩
    | error e =>
      rw [launch_of_error crew p hanswer] at hlaunch
      cases hlaunch

/-- Where a campaign stands once its monitor runs: before its first round, which scans. -/
structure Opened (p : Progress σ) : Prop where
  round_eq : p.survey.state.round = 1
  phase_eq : p.survey.state.phase = .scanning
  idle : p.roundWorkers = []
  roundsRun_eq : p.roundsRun = 0
  profiled : ∀ name, name ∉ p.survey.state.profiled
  attended : ∃ worker, p.monitor = some worker

/-- Preparing a campaign and launching its monitor opens it. -/
theorem opened_of_launchMonitor {world : σ} {u u' : Unit} {p p' : Progress σ}
    (hprepare : c.prepare crew (c.start world) = (.ok u, p))
    (hmonitor : c.launchMonitor crew p = (.ok u', p')) : Opened p' := by
  have hstanding :=
    (c.keeps_prepare crew _ inward_standing.world (c.keeps_prune _)).apply_eq hprepare
  have hledger :=
    (c.keeps_prepare crew _ inward_ledger.world (c.keeps_prune_ledger _)).apply_eq hprepare
  obtain ⟨hsurvey, hroundsRun, hidle, hattended⟩ := c.launchMonitor_ok crew hmonitor
  have hnone : p.survey.state.profiled = ∅ := congrArg CampaignState.profiled hledger
  refine ⟨?_, ?_, hidle.trans (congrArg Standing.roundWorkers hstanding),
    hroundsRun.trans (congrArg Standing.roundsRun hstanding), ?_, hattended⟩
  · rw [hsurvey]
    exact congrArg Standing.round hstanding
  · rw [hsurvey]
    exact congrArg Standing.phase hstanding
  · intro name
    rw [hsurvey, hnone]
    exact Std.TreeSet.not_mem_emptyc

end Campaign

end FuzzCampaign

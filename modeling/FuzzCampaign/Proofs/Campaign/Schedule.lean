import FuzzCampaign.Proofs.Campaign.FileWork
import FuzzCampaign.Proofs.Campaign.Loop
import FuzzCampaign.Proofs.Campaign.Notes

/-!
# The schedule of a campaign

What a campaign asks of its crew, work on files apart, is laid down beforehand: the
monitor is launched, then the rounds follow one another, and the monitor is stopped.
A round profiles seeds when it exploits, launches its workers one after the other,
waits for the length of its phase and stops the workers in the order of their launch.
Only which seeds are profiled and which workers are stopped turns out as it goes.

Main definitions:

- `RoundRecord`: what turned out in a round.
- `Campaign.schedule`: the schedule of a campaign.

Main results:

- `performs_runRounds` and `performs_drive`: a campaign follows its schedule.
-/

namespace FuzzCampaign

/-! ## The schedule -/

/-- What turned out in a round: the names of the seeds that were profiled, and the
workers in the order of their launch. -/
structure RoundRecord where
  names : List String
  team : List Worker

namespace Campaign

variable (c : Campaign)

/-- A campaign scans in its first round. -/
def phaseOf (round : Nat) : Phase := if round = 1 then .scanning else .exploiting

/-- What is needed to launch a worker of a round. -/
def roundSpec (round index : Nat) : WorkerSpec :=
  c.settings.fleet.roundWorker (phaseOf round) index round

/-- Launching a worker of a round: all but the first one after a pause. -/
def launchDeeds (round index : Nat) : List Deed :=
  (if 1 < index then [.pause c.settings.campaign.staggerMillis] else []) ++
    [.launch (c.roundSpec round index)]

/-- Profiling seeds, which are given by name. -/
def profileDeed (names : List String) : Deed :=
  .profile (names.map c.settings.layout.monitorQueue.join)

/-- The profiling pass of a round: the first round has none. -/
def chartDeeds (round : Nat) (names : List String) : List Deed :=
  if 1 < round then [c.profileDeed names] else []

/-- Launching the workers of a round, letting them run and stopping them. -/
def watchDeeds (round : Nat) (team : List Worker) : List Deed :=
  (List.range' 1 c.settings.roundWorkers).flatMap (c.launchDeeds round) ++
    (.pause (c.settings.phaseMillis (phaseOf round)) :: team.map .terminate)

/-- What a round asks for. -/
def roundDeeds (round : Nat) (record : RoundRecord) : List Deed :=
  c.chartDeeds round record.names ++ c.watchDeeds round record.team

/-- What a number of rounds asks for, the first of which is given. -/
def deedsFrom : Nat → List RoundRecord → List Deed
  | _, [] => []
  | round, record :: rest => c.roundDeeds round record ++ deedsFrom (round + 1) rest

/-- Launching the monitor. -/
def openingDeeds : List Deed :=
  [.launch c.settings.fleet.monitor, .pause c.settings.campaign.staggerMillis]

/-- The schedule of a campaign. -/
def schedule (monitor : Worker) (records : List RoundRecord) : List Deed :=
  c.openingDeeds ++ c.deedsFrom 1 records ++ [.terminate monitor]

/-- The seeds that a pass may profile, given the names of those that were profiled
before.  The first pass is the one of the second round. -/
def Picks {σ : Type} (crew : Crew σ) (earlier : List String) (round : Nat)
    (names : List String) : Prop :=
  ∃ s w s', (∀ name, name ∈ s.profiled ↔ name ∈ earlier) ∧
    (selectSeeds crew.files c.settings.layout.monitorQueue (round == 2) s w).1 =
      .ok (names.map c.settings.layout.monitorQueue.join, s')

/-- What a round may profile: nothing if it is the first one. -/
def PicksIn {σ : Type} (crew : Crew σ) (earlier : List String) (round : Nat)
    (names : List String) : Prop :=
  if 1 < round then c.Picks crew earlier round names else names = []

/-- A number of rounds may profile the seeds that are recorded. -/
def PicksAll {σ : Type} (crew : Crew σ) : List String → Nat → List RoundRecord → Prop
  | _, _, [] => True
  | earlier, round, record :: rest =>
    c.PicksIn crew earlier round record.names ∧
      PicksAll crew (earlier ++ record.names) (round + 1) rest

/-- The records of a number of rounds: every round has all its workers. -/
structure FullTeams (count : Nat) (records : List RoundRecord) : Prop where
  length_eq : records.length = count
  team_length : ∀ record ∈ records, record.team.length = c.settings.roundWorkers

end Campaign

/-! ## Errors -/

/-- An error of a campaign that reports a failed or interrupted request. -/
def CampaignError.IsFault : CampaignError → Prop
  | .input _ => False
  | .staging error => error.IsFault
  | .launch _ => True
  | .partition error => error.IsFault
  | .coverage _ => True
  | .schedule _ => False
  | .io _ _ => True
  | .interrupted _ => True

/-- From a state on, a step of a campaign follows a plan. -/
abbrev CarriesOut {σ α : Type} (plan : List Deed) (step : Step (Noted σ) α)
    (p : Progress (Noted σ)) : Prop :=
  step.Performs Progress.requests CampaignError.IsFault plan p

open FuzzCampaign.Action

/-! ## Asking the crew -/

namespace Progress

variable {σ : Type} (crew : Crew σ) (p : Progress (Noted σ))

/-- Work on the world performs what its action performs. -/
theorem performs_onWorld {ε α : Type} {fault : ε → Prop} {plan : List Deed}
    {action : Action (Noted σ) ε α} (h : action.Performs Noted.requests fault plan p.world) :
    (onWorld action).Performs Progress.requests fault plan p := h

/-- A launch is carried out as a launch. -/
theorem performs_launch (spec : WorkerSpec) :
    CarriesOut [.launch spec] (Progress.launch crew.noted spec) p := by
  have hnoted := crew.launch_noted spec p.world
  cases hanswer : (crew.launch spec p.world.world).1 with
  | ok worker =>
    rw [hanswer] at hnoted
    rw [CarriesOut, Performs, launch_of_ok crew.noted p hnoted]
    exact ⟨[.launch spec (.ok worker)], rfl, .single rfl rfl fun _ he => by cases he⟩
  | error e =>
    rw [hanswer] at hnoted
    rw [CarriesOut, Performs, launch_of_error crew.noted p hnoted]
    exact ⟨[.launch spec (.error e)], rfl, .single rfl rfl fun _ he => by cases he; exact trivial⟩

/-- A pause is carried out as a pause. -/
theorem performs_pause (millis round : Nat) :
    CarriesOut [.pause millis] (Progress.pause crew.noted millis round) p := by
  rw [CarriesOut, Performs, pause_apply]
  refine ⟨[.pause millis (crew.pause millis p.world.world).1], rfl, ?_⟩
  have hpause : (crew.noted.pause millis p.world).1 = (crew.pause millis p.world.world).1 := rfl
  rw [hpause]
  cases (crew.pause millis p.world.world).1 with
  | true => exact .single rfl rfl fun _ he => by cases he
  | false => exact .single rfl rfl fun _ he => by cases he; exact trivial

/-- Profiling is carried out as profiling. -/
theorem performs_profile (seeds : List Path) :
    CarriesOut [.profile seeds] (Progress.profile crew.noted seeds) p := by
  rw [CarriesOut, Performs, profile_apply]
  refine ⟨[.profile seeds (crew.profile seeds p.world.world).1], rfl, ?_⟩
  have hprofile : (crew.noted.profile seeds p.world).1 = (crew.profile seeds p.world.world).1 := rfl
  rw [hprofile]
  cases (crew.profile seeds p.world.world).1 with
  | ok output => exact .single rfl rfl fun _ he => by cases he
  | error e => exact .single rfl rfl fun _ he => by cases he; exact trivial

/-- Stopping the workers of a round dismisses them. -/
theorem requests_stopRoundWorkers : ∃ asked,
    (p.stopRoundWorkers crew.noted).requests = p.requests ++ asked ∧
      Request.Dismisses asked p.roundWorkers := by
  have hfold : ∀ (workers : List Worker) (q : Progress (Noted σ)), ∃ asked,
      (workers.foldl (stop crew.noted) q).requests = q.requests ++ asked ∧
        Request.Dismisses asked workers := by
    intro workers
    induction workers with
    | nil => exact fun q => ⟨[], (List.append_nil _).symm, .nil⟩
    | cons worker rest ih =>
      intro q
      obtain ⟨asked, hasked, hdismisses⟩ := ih (q.stop crew.noted worker)
      refine ⟨.terminate worker (crew.terminate worker q.world.world).1 :: asked, ?_,
        .cons ⟨_, rfl⟩ hdismisses⟩
      rw [List.foldl_cons, hasked]
      exact List.append_assoc _ _ _
  exact hfold p.roundWorkers { p with roundWorkers := [] }

/-- Stopping the workers of a round terminates each of them. -/
theorem performs_stopRoundWorkers :
    CarriesOut (p.roundWorkers.map .terminate) (modify (stopRoundWorkers crew.noted)) p := by
  obtain ⟨asked, hasked, hdismisses⟩ := requests_stopRoundWorkers crew p
  exact ⟨asked, hasked, .dismissal hdismisses _ _⟩

/-- Stopping the monitor dismisses it, if there is one. -/
theorem requests_stopMonitor : ∃ asked,
    (p.stopMonitor crew.noted).requests = p.requests ++ asked ∧
      Request.Dismisses asked p.monitor.toList := by
  cases hmonitor : p.monitor with
  | none => exact ⟨[], by simp [stopMonitor, hmonitor], .nil⟩
  | some worker =>
    refine ⟨[.terminate worker (crew.terminate worker p.world.world).1], ?_, .cons ⟨_, rfl⟩ .nil⟩
    simp only [stopMonitor, hmonitor]
    rfl

end Progress

/-! ## The steps of a round -/

namespace Campaign

open Progress

variable {σ : Type} (c : Campaign) (crew : Crew σ) (p : Progress (Noted σ))

/-- A change of the survey asks the crew for nothing. -/
theorem performs_modifySurvey (f : Survey → Survey) :
    CarriesOut [] (modify fun p => { p with survey := f p.survey }) p := .modify rfl

/-- Pruning asks the crew for nothing. -/
theorem performs_prune : CarriesOut [] c.prune p :=
  performs_modifySurvey p fun survey => (survey.prune c.inputs.blocks).2

/-- The preparation asks the crew for nothing. -/
theorem performs_prepare : CarriesOut [] (c.prepare crew.noted) p := by
  refine .after_idle (c.performs_prune p) ?_
  intro _ p' _
  refine .after_idle (.orFail (performs_onWorld p' (fileWork_createLayout crew.files _ _))
    fun _ => Iff.rfl) ?_
  intro _ p'' _
  refine .after_idle (.orFail (performs_onWorld p'' (performs_importCorpus crew.files
    StagingError.IsFault (fun _ _ => trivial) id _ _))
    fun _ => Iff.rfl) ?_
  intro _ p₃ _
  exact .idle rfl rfl

/-- Staging asks the crew for nothing. -/
theorem performs_stage (round : Nat) : CarriesOut [] (c.stage crew.noted round) p := by
  have hrest : ∀ p', CarriesOut [] (do
      let tasks := c.settings.layout.tasks
      (onWorld (crew.noted.files.createDirectories tasks)).orFail (.io tasks)
      let _ ← (onWorld (stageSeeds crew.noted.files (c.seedSource round) c.settings.layout.seeds
        round)).orFail .staging) p' := by
    intro p'
    refine .after_idle (.orFail (performs_onWorld p' (fileWork_create crew.files _ _))
      fun _ => Iff.rfl) ?_
    intro _ p'' _
    refine .after_idle (.orFail (performs_onWorld p'' (performs_stageSeeds crew.files
      StagingError.IsFault (fun _ _ => trivial) _ _ _ _))
      fun _ => Iff.rfl) ?_
    intro _ p₃ _
    exact .idle rfl rfl
  rw [stage]
  split
  · refine .after_idle (.orFail (performs_onWorld p (performs_rotateArtifacts crew.files
        StagingError.IsFault (fun _ _ => trivial) _ _ _ _))
      fun _ => Iff.rfl) ?_
    intro _ p' _
    exact hrest p'
  · exact hrest p

/-- Writing the graph down asks the crew for nothing. -/
theorem performs_dumpGraph : CarriesOut [] (c.dumpGraph crew.noted) p := by
  refine .get_bind ?_
  refine .after_idle (.orFail (performs_onWorld p (fileWork_write crew.files _ _ _))
    fun _ => Iff.rfl) ?_
  intro _ p' _
  exact .orFail (performs_onWorld p' (fileWork_write crew.files _ _ _)) fun _ => Iff.rfl

/-- A graph that cannot be cut is no failure of a request. -/
theorem not_isFault_of_split {g : CallGraph} {strategy : Strategy} {k : Nat}
    {sources : SourceIndex} {cap : ScoreCap} {e : PartitionError}
    (h : (g.split strategy k sources cap).1 = .error e) : ¬ e.IsFault := by
  cases strategy with
  | tree =>
    rw [CallGraph.split, CallGraph.splitTree] at h
    split at h
    · cases h
      exact id
    · dsimp only at h
      split at h
      · cases h
        exact id
      · cases h
  | naive =>
    rw [CallGraph.split, CallGraph.splitNaive] at h
    split at h
    · cases h
      exact id
    · cases h

/-- Partitioning asks the crew for nothing. -/
theorem performs_partition : CarriesOut [] (c.partition crew.noted) p := by
  refine .get_bind ?_
  refine .after_idle (.set rfl) ?_
  intro _ p' _
  split
  · next e he =>
    exact .giveUp rfl rfl (not_isFault_of_split he)
  · refine .after_idle (.orFail (performs_onWorld p' (performs_writeAll crew.files
      PartitionError.IsFault (fun _ _ => trivial) _ _ _ _))
      fun _ => Iff.rfl) ?_
    intro _ p'' _
    split
    · exact .idle rfl rfl
    · exact .orFail (performs_onWorld p'' (fileWork_write crew.files _ _ _)) fun _ => Iff.rfl

/-- Profiling a round asks for one profile and nothing else. -/
theorem performs_profileAndPrune (seeds : List Path) (state : CampaignState) :
    CarriesOut [.profile seeds] (c.profileAndPrune crew.noted seeds state) p := by
  refine .after_idle (performs_modifySurvey p fun survey => { survey with state := state }) ?_
  intro _ p' _
  refine .before_idle (performs_profile crew p' seeds) ?_
  intro output p'' _
  refine .after_idle (performs_modifySurvey p'' fun survey => (survey.ingest output).2) ?_
  intro _ p₃ _
  exact c.performs_prune p₃

/-- A pass profiles seeds that it may take and enters their names. -/
theorem performs_refresh (round : Nat) {earlier : List String}
    (hprofiled : ∀ name, name ∈ p.survey.state.profiled ↔ name ∈ earlier) :
    ∃ names, True ∧ CarriesOut [c.profileDeed names] (c.refresh crew.noted (round == 2)) p ∧
      ∀ u p', c.refresh crew.noted (round == 2) p = (.ok u, p') →
        c.Picks crew earlier round names ∧
          ∀ name, name ∈ p'.survey.state.profiled ↔ name ∈ earlier ++ names := by
  have hselect : CarriesOut [] ((onWorld (selectSeeds crew.noted.files
      c.settings.layout.monitorQueue (round == 2) p.survey.state)).orFail .coverage) p :=
    .orFail (performs_onWorld p (performs_selectSeeds crew.files _ _ _ _)) fun _ => Iff.rfl
  refine hselect.bind_exists (fun _ => True) (fun names => [c.profileDeed names]) _
    (fun selected => c.profileAndPrune crew.noted selected.1 selected.2) ⟨[], trivial⟩ ?_
  rintro ⟨seeds, state⟩ p₁ hseeds
  obtain ⟨world, hok, rfl⟩ := orFail_onWorld_ok hseeds
  obtain ⟨listed, rfl, rfl⟩ := selectSeeds_ok hok
  refine ⟨_, trivial, c.performs_profileAndPrune crew _ _ _, ?_⟩
  intro u p' hp'
  have hpicks := (mirrors_selectSeeds crew.files _ _ _ _).apply_eq hok
  have hledger := congrArg CampaignState.profiled (c.ledger_profileAndPrune crew.noted hp')
  have hprofiled' : p'.survey.state.profiled =
      (CampaignState.takeSeeds (round == 2) listed p.survey.state).2.profiled := hledger
  refine ⟨⟨_, _, _, hprofiled, congrArg Prod.fst hpicks⟩, ?_⟩
  intro name
  rw [hprofiled', CampaignState.mem_profiled_takeSeeds, hprofiled, List.mem_append, or_comm]

/-- A round that exploits profiles seeds before its graph is cut and written. -/
theorem performs_chart_exploiting (round : Nat) {earlier : List String}
    (hprofiled : ∀ name, name ∈ p.survey.state.profiled ↔ name ∈ earlier) :
    ∃ names, CarriesOut [c.profileDeed names] (c.chart crew.noted .exploiting round) p ∧
      ∀ u p', c.chart crew.noted .exploiting round p = (.ok u, p') →
        c.Picks crew earlier round names ∧
          ∀ name, name ∈ p'.survey.state.profiled ↔ name ∈ earlier ++ names := by
  obtain ⟨names, -, hrefresh, hpost⟩ := c.performs_refresh crew p round hprofiled
  refine ⟨names, ?_, ?_⟩
  · refine hrefresh.before_idle ?_
    intro _ p₁ _
    refine .after_idle (c.performs_partition crew p₁) ?_
    intro _ p₂ _
    exact c.performs_dumpGraph crew p₂
  · intro u p' hchart
    obtain ⟨_, p₁, hfirst, hrest⟩ := bind_eq_ok hchart
    obtain ⟨hpicks, hprofiled'⟩ := hpost _ _ hfirst
    have hledger := (c.keeps_partition_dumpGraph crew.noted p₁).apply_eq hrest
    have hkept := congrArg CampaignState.profiled hledger
    have hkept' : p'.survey.state.profiled = p₁.survey.state.profiled := hkept
    refine ⟨hpicks, ?_⟩
    intro name
    rw [hkept']
    exact hprofiled' name

/-- Charting a round profiles the seeds it picks, and nothing else where it picks none. -/
theorem performs_chart {round : Nat} (hpos : 1 ≤ round) {earlier : List String}
    (hprofiled : ∀ name, name ∈ p.survey.state.profiled ↔ name ∈ earlier) :
    ∃ names, CarriesOut (c.chartDeeds round names) (c.chart crew.noted (phaseOf round) round) p ∧
      ∀ u p', c.chart crew.noted (phaseOf round) round p = (.ok u, p') →
        c.PicksIn crew earlier round names ∧
          ∀ name, name ∈ p'.survey.state.profiled ↔ name ∈ earlier ++ names := by
  by_cases hone : round = 1
  · subst hone
    refine ⟨[], c.performs_dumpGraph crew p, ?_⟩
    intro u p' hchart
    have hsurvey : p'.survey = p.survey :=
      (c.keeps_dumpGraph crew.noted p inward_survey.world).apply_eq hchart
    refine ⟨by simp [PicksIn], ?_⟩
    intro name
    rw [hsurvey, List.append_nil]
    exact hprofiled name
  · have hphase : phaseOf round = .exploiting := by simp [phaseOf, hone]
    have hlater : 1 < round := by omega
    simp only [hphase, PicksIn, chartDeeds, if_pos hlater]
    exact c.performs_chart_exploiting crew p round hprofiled

/-- The workers of a round are launched in the order of their numbers. -/
theorem performs_launchFrom (round index count : Nat) :
    CarriesOut ((List.range' index count).flatMap (c.launchDeeds round))
      (c.launchFrom crew.noted (phaseOf round) round index count) p := by
  induction count generalizing index p with
  | zero => exact .idle rfl rfl
  | succ count ih =>
    have hworker : ∀ p, CarriesOut [.launch (c.roundSpec round index)]
        (c.launchWorker crew.noted (phaseOf round) index round) p := by
      intro p
      refine .before_idle (performs_launch crew p _) ?_
      intro worker p' _
      exact .modify rfl
    have hrest : ∀ p, CarriesOut ([.launch (c.roundSpec round index)] ++
        (List.range' (index + 1) count).flatMap (c.launchDeeds round)) (do
          c.launchWorker crew.noted (phaseOf round) index round
          c.launchFrom crew.noted (phaseOf round) round (index + 1) count) p := by
      intro p
      exact .bind (hworker p) fun _ p' _ => ih p' (index + 1)
    rw [launchFrom, List.range'_succ, List.flatMap_cons, launchDeeds, List.append_assoc]
    split
    · exact .bind (performs_pause crew p _ _) fun _ p' _ => hrest p'
    · exact hrest p

/-- The workers of a round are launched, left to run and stopped. -/
theorem performs_watch (round : Nat) (hidle : p.roundWorkers = []) :
    ∃ team : List Worker, team.length = c.settings.roundWorkers ∧
      CarriesOut (c.watchDeeds round team) (c.watch crew.noted round (phaseOf round)) p := by
  have hexists := (c.performs_launchFrom crew p round 1 c.settings.roundWorkers).bind_exists
    (fun team : List Worker => team.length = c.settings.roundWorkers)
    (fun team => .pause (c.settings.phaseMillis (phaseOf round)) :: team.map .terminate)
    (fun _ _ _ => True)
    (fun _ => do
      Progress.pause crew.noted (c.settings.phaseMillis (phaseOf round)) round
      modify (Progress.stopRoundWorkers crew.noted))
    ⟨List.replicate _ ⟨"", 0⟩, List.length_replicate⟩
  refine (hexists fun _ p₁ hlaunch => ?_).imp fun _ h => ⟨h.1, h.2.1⟩
  obtain ⟨team, hlength, hteam⟩ := (c.muster_launchFrom crew.noted hlaunch).exists_team
  refine ⟨team, hlength, ?_, fun _ _ _ => trivial⟩
  refine .bind (performs_pause crew p₁ _ _) ?_
  intro _ p₂ hpause
  obtain ⟨none, hnone, hteam'⟩ := (muster_pause crew.noted hpause).exists_team
  rw [List.length_eq_zero_iff] at hnone
  have hrunning : p₂.roundWorkers = team := by simp [hteam', hteam, hidle, hnone]
  rw [← hrunning]
  exact performs_stopRoundWorkers crew p₂

/-- Once its files are in place a round follows its part of the schedule and enters the
seeds that it profiled. -/
theorem performs_chart_watch {round : Nat} (hpos : 1 ≤ round) (hidle : p.roundWorkers = [])
    {earlier : List String}
    (hprofiled : ∀ name, name ∈ p.survey.state.profiled ↔ name ∈ earlier) :
    ∃ record : RoundRecord, record.team.length = c.settings.roundWorkers ∧
      CarriesOut (c.roundDeeds round record) (do
        c.chart crew.noted (phaseOf round) round
        c.watch crew.noted round (phaseOf round)) p ∧
      ∀ u p', (do
        c.chart crew.noted (phaseOf round) round
        c.watch crew.noted round (phaseOf round) : Step (Noted σ) Unit) p = (.ok u, p') →
        c.PicksIn crew earlier round record.names ∧
          ∀ name, name ∈ p'.survey.state.profiled ↔ name ∈ earlier ++ record.names := by
  obtain ⟨names, hchart, hnames⟩ := c.performs_chart crew p hpos hprofiled
  have hexists := hchart.bind_exists
    (fun team : List Worker => team.length = c.settings.roundWorkers)
    (c.watchDeeds round)
    (fun _ _ p' => c.PicksIn crew earlier round names ∧
      ∀ name, name ∈ p'.survey.state.profiled ↔ name ∈ earlier ++ names)
    (fun _ => c.watch crew.noted round (phaseOf round))
    ⟨List.replicate _ ⟨"", 0⟩, List.length_replicate⟩
  obtain ⟨team, hteam, hperforms, hpost⟩ := hexists fun _ p₁ hcharted => by
    have hidle' : p₁.roundWorkers = [] := by
      rw [← hidle]
      exact congrArg Standing.roundWorkers ((c.keeps_chart crew.noted p _ _).apply_eq hcharted)
    obtain ⟨team, hteam, hwatch⟩ := c.performs_watch crew p₁ round hidle'
    refine ⟨team, hteam, hwatch, ?_⟩
    intro u p' hwatched
    rw [(c.watch_ok crew.noted hwatched).1]
    exact hnames _ _ hcharted
  exact ⟨⟨names, team⟩, hteam, hperforms, hpost⟩

/-- A round follows its part of the schedule and enters the seeds that it profiled. -/
theorem performs_runRound {round : Nat} (hround : p.survey.state.round.toNat = round)
    (hphase : p.survey.state.phase = phaseOf round) (hpos : 1 ≤ round)
    (hidle : p.roundWorkers = []) {earlier : List String}
    (hprofiled : ∀ name, name ∈ p.survey.state.profiled ↔ name ∈ earlier) :
    ∃ record : RoundRecord, record.team.length = c.settings.roundWorkers ∧
      CarriesOut (c.roundDeeds round record) (c.runRound crew.noted) p ∧
      ∀ u p', c.runRound crew.noted p = (.ok u, p') →
        c.PicksIn crew earlier round record.names ∧
          ∀ name, name ∈ p'.survey.state.profiled ↔ name ∈ earlier ++ record.names := by
  have happly := c.runRound_apply crew.noted p hround hphase
  have hexists := (c.performs_stage crew p round).bind_exists
    (fun record : RoundRecord => record.team.length = c.settings.roundWorkers)
    (c.roundDeeds round)
    (fun record _ p' => c.PicksIn crew earlier round record.names ∧
      ∀ name, name ∈ p'.survey.state.profiled ↔ name ∈ earlier ++ record.names)
    (fun _ => do
      c.chart crew.noted (phaseOf round) round
      c.watch crew.noted round (phaseOf round))
    ⟨⟨[], List.replicate _ ⟨"", 0⟩⟩, List.length_replicate⟩
  obtain ⟨record, hteam, hperforms, hpost⟩ := hexists fun _ p₁ hstage => by
    have hstanding := (c.keeps_stage crew.noted p inward_standing.world round).apply_eq hstage
    have hsurvey := (c.keeps_stage crew.noted p inward_survey.world round).apply_eq hstage
    refine c.performs_chart_watch crew p₁ hpos ?_ ?_
    · rw [← hidle]
      exact congrArg Standing.roundWorkers hstanding
    · rw [hsurvey]
      exact hprofiled
  refine ⟨record, hteam, hperforms.congr happly.symm, ?_⟩
  intro u p' hround
  rw [happly] at hround
  exact hpost u p' hround

/-! ## All rounds -/

/-- Records of nobody in particular have teams of the full size. -/
theorem fullTeams_replicate (count : Nat) : c.FullTeams count
    (List.replicate count ⟨[], List.replicate c.settings.roundWorkers ⟨"", 0⟩⟩) := by
  refine ⟨List.length_replicate, ?_⟩
  intro record hrecord
  rw [(List.mem_replicate.1 hrecord).2, List.length_replicate]

/-- One more full team. -/
theorem FullTeams.cons {c : Campaign} {count : Nat} {record : RoundRecord}
    {records : List RoundRecord} (hteam : record.team.length = c.settings.roundWorkers)
    (h : c.FullTeams count records) :
    c.FullTeams (count + 1) (record :: records) :=
  ⟨by rw [List.length_cons, h.length_eq], List.forall_mem_cons.2 ⟨hteam, h.team_length⟩⟩

/-- After its rounds a campaign still has its monitor, and no other worker. -/
structure RoundsOver (count : Nat) (p p' : Progress σ) : Prop where
  monitor_eq : p'.monitor = p.monitor
  roundsRun_eq : p'.roundsRun = p.roundsRun + count
  idle : p'.roundWorkers = []

/-- Rounds follow their part of the schedule, whichever round they start with, as long as
their numbers have 32 bits. -/
theorem performs_runRounds (count : Nat) {round : Nat}
    (hround : 0 < count → p.survey.state.round.toNat = round)
    (hfits : round + count ≤ 4294967296) (hphase : p.survey.state.phase = phaseOf round)
    (hpos : 1 ≤ round) (hidle : p.roundWorkers = []) {earlier : List String}
    (hprofiled : ∀ name, name ∈ p.survey.state.profiled ↔ name ∈ earlier) :
    ∃ records, c.FullTeams count records ∧
      CarriesOut (c.deedsFrom round records) (c.runRounds crew.noted count) p ∧
      ∀ u p', c.runRounds crew.noted count p = (.ok u, p') →
        c.PicksAll crew earlier round records ∧ RoundsOver count p p' := by
  induction count generalizing round earlier p with
  | zero =>
    refine ⟨[], ⟨rfl, by simp⟩, .idle rfl rfl, ?_⟩
    intro u p' h
    cases h
    exact ⟨trivial, rfl, rfl, hidle⟩
  | succ count ih =>
    obtain ⟨record, hteam, hperforms, hpost⟩ :=
      c.performs_runRound crew p (hround (Nat.succ_pos count)) hphase hpos hidle hprofiled
    have hexists := hperforms.bind_exists (c.FullTeams count)
      (c.deedsFrom (round + 1))
      (fun records _ p' =>
        c.PicksAll crew earlier round (record :: records) ∧ RoundsOver (count + 1) p p')
      (fun _ => do
        finishRound
        c.runRounds crew.noted count)
      ⟨_, c.fullTeams_replicate count⟩
    obtain ⟨records, hteams, hrounds, hover⟩ := hexists fun u p₁ hrun => by
      obtain ⟨hround₁, -, hmonitor, hroundsRun, hidle₁⟩ := c.runRound_ok crew.noted hrun
      obtain ⟨hpicks, hprofiled₁⟩ := hpost u p₁ hrun
      have hphase₂ : phaseOf (round + 1) = .exploiting := by
        rw [phaseOf, if_neg (by omega)]
      -- the count does not start over before there is no round left
      have hround₂ : 0 < count → p₁.survey.state.advance.round.toNat = round + 1 := by
        intro hleft
        rw [CampaignState.toNat_round_advance, hround₁, hround (Nat.succ_pos count)]
        exact Nat.mod_eq_of_lt (by omega)
      obtain ⟨records, hteams, hrounds, hover⟩ := ih
        { p₁ with
          roundsRun := p₁.roundsRun + 1
          survey := { p₁.survey with state := p₁.survey.state.advance } }
        hround₂ (by omega) hphase₂.symm (by omega) hidle₁ hprofiled₁
      refine ⟨records, hteams, .after_idle (.modify rfl) fun _ p₂ hp₂ => ?_, ?_⟩
      · cases hp₂
        exact hrounds
      · intro u' p' hrest
        obtain ⟨hpicks', hmonitor', hroundsRun', hidle'⟩ := hover u' p' hrest
        have hcount : p'.roundsRun = p₁.roundsRun + 1 + count := hroundsRun'
        refine ⟨⟨hpicks, hpicks'⟩, hmonitor'.trans hmonitor, ?_, hidle'⟩
        rw [hcount, hroundsRun]
        omega
    exact ⟨record :: records, .cons hteam hteams, hrounds, hover⟩

/-- Launching the monitor performs the opening of the schedule. -/
theorem performs_launchMonitor : CarriesOut c.openingDeeds (c.launchMonitor crew.noted) p := by
  have hlaunch := performs_launch crew p c.settings.fleet.monitor
  refine hlaunch.bind ?_
  intro worker p₁ _
  refine .after_idle (.modify rfl) ?_
  intro _ p₂ _
  exact performs_pause crew p₂ _ _

/-- From its start on a campaign follows its schedule, up to stopping the monitor. -/
theorem performs_drive (world : σ) :
    ∃ records, c.FullTeams c.totalRounds.toNat records ∧
      CarriesOut (c.openingDeeds ++ c.deedsFrom 1 records) (c.drive crew.noted)
        (c.start ⟨world, []⟩) ∧
      ∀ u p', c.drive crew.noted (c.start ⟨world, []⟩) = (.ok u, p') →
        c.PicksAll crew [] 1 records ∧ p'.roundsRun = c.totalRounds.toNat ∧
          p'.roundWorkers = [] ∧ ∃ worker, p'.monitor = some worker := by
  have hopening : CarriesOut c.openingDeeds (do
      c.prepare crew.noted
      c.launchMonitor crew.noted) (c.start ⟨world, []⟩) :=
    .after_idle (c.performs_prepare crew _) fun _ p₁ _ => c.performs_launchMonitor crew p₁
  have hexists := hopening.bind_exists (c.FullTeams c.totalRounds.toNat)
    (c.deedsFrom 1)
    (fun records _ p' => c.PicksAll crew [] 1 records ∧ p'.roundsRun = c.totalRounds.toNat ∧
      p'.roundWorkers = [] ∧ ∃ worker, p'.monitor = some worker)
    (fun _ => c.runRounds crew.noted c.totalRounds.toNat)
    ⟨_, c.fullTeams_replicate c.totalRounds.toNat⟩
  have hdrive : c.drive crew.noted (c.start ⟨world, []⟩) = ((do
      c.prepare crew.noted
      c.launchMonitor crew.noted) >>= fun _ => c.runRounds crew.noted c.totalRounds.toNat)
        (c.start ⟨world, []⟩) := by
    rw [drive_apply, bind_assoc]
  rw [hdrive]
  refine (hexists fun _ p₂ hopened => ?_).imp fun _ h => ⟨h.1, h.2.1.congr hdrive.symm, h.2.2⟩
  obtain ⟨_, p₁, hprepare, hmonitor⟩ := bind_eq_ok hopened
  have hstart := c.opened_of_launchMonitor crew.noted hprepare hmonitor
  obtain ⟨worker, hworker⟩ := hstart.attended
  have hprofiled : ∀ name, name ∈ p₂.survey.state.profiled ↔ name ∈ [] :=
    fun name => iff_of_false (hstart.profiled name) List.not_mem_nil
  obtain ⟨records, hteams, hrounds, hover⟩ :=
    c.performs_runRounds crew p₂ c.totalRounds.toNat
      (fun _ => congrArg UInt32.toNat hstart.round_eq)
      (Nat.add_comm 1 _ ▸ UInt32.toNat_lt c.totalRounds) hstart.phase_eq (Nat.le_refl 1)
      hstart.idle hprofiled
  refine ⟨records, hteams, hrounds, ?_⟩
  intro u p' hrun
  obtain ⟨hpicks, hmonitor', hroundsRun', hidle'⟩ := hover u p' hrun
  exact ⟨hpicks, by rw [hroundsRun', hstart.roundsRun_eq, Nat.zero_add], hidle', worker,
    hmonitor'.trans hworker⟩

end Campaign

end FuzzCampaign

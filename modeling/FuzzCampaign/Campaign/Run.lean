import FuzzCampaign.CallGraph.Snapshot
import FuzzCampaign.Campaign.Preflight

/-!
# Running a campaign

A campaign prepares its directories, starts the monitor and then runs its
rounds.  A round stages seeds, refreshes and cuts the call graph when it
exploits, starts its workers one after the other, lets them run and stops them.
Whatever happens, the workers of the current round and then the monitor are
stopped in the end.

Launching, stopping, waiting, profiling and all work on files is done by a crew
that may fail at any point.  The campaign keeps a journal of what it asked of
the crew.

Main definitions:

- `Crew`: who does the work.
- `Event`: an entry of the journal.
- `Campaign.run`.

Main results:

- `roundWorkers_stopRoundWorkers` and `monitor_stopMonitor`: after stopping, nothing
  is left to be stopped.
-/

namespace FuzzCampaign

/-! ## The crew and the journal -/

/-- Who does the work of a campaign, on a world of type `σ`. -/
structure Crew (σ : Type) where
  files : FileSystem σ
  launch : WorkerSpec → Action σ WorkerError Worker
  terminate : Worker → Action σ WorkerError Unit
  /-- Wait for some milliseconds; the answer tells whether nobody interrupted. -/
  pause : Nat → σ → Bool × σ
  profile : List Path → Action σ ProfileError ProfileOutput

/-- An entry of the journal. -/
inductive Event where
  | launched (spec : WorkerSpec)
  | launchFailed (spec : WorkerSpec)
  | paused (millis : Nat) (completed : Bool)
  | profiled (seeds : List Path)
  | stopped (worker : Worker)
  deriving Repr, DecidableEq

/-- A campaign with accepted settings. -/
structure Campaign where
  settings : Settings
  inputs : CampaignInputs
  exploitationRounds : Nat
  accepted : settings.campaign.exploitationRounds = .ok exploitationRounds

namespace Campaign

/-- A campaign, if its settings are accepted. -/
def ofSettings (settings : Settings) (inputs : CampaignInputs) : Except CampaignError Campaign :=
  match h : settings.campaign.exploitationRounds with
  | .ok rounds => .ok ⟨settings, inputs, rounds, h⟩
  | .error error => .error (.schedule error)

/-- The number of rounds in 32 bits: one that scans, and those that exploit. -/
def totalRounds (c : Campaign) : UInt32 := 1 + UInt32.ofNat c.exploitationRounds

/-- The number of rounds is what 32 bits hold of it. -/
theorem toNat_totalRounds (c : Campaign) :
    c.totalRounds.toNat = (1 + c.exploitationRounds) % 4294967296 := by
  rw [totalRounds, UInt32.toNat_add, UInt32.toNat_ofNat', Nat.add_mod_mod]
  rfl

/-- No round is lost as long as 32 bits hold the number of rounds. -/
theorem toNat_totalRounds_of_lt (c : Campaign) (h : 1 + c.exploitationRounds < 4294967296) :
    c.totalRounds.toNat = 1 + c.exploitationRounds := by
  rw [toNat_totalRounds, Nat.mod_eq_of_lt h]

end Campaign

/-- How far a campaign has come. -/
structure Progress (σ : Type) where
  world : σ
  survey : Survey
  monitor : Option Worker := none
  /-- The running workers of the current round, in the order of their launch. -/
  roundWorkers : List Worker := []
  roundsRun : Nat := 0
  /-- How many workers were launched, the monitor included. -/
  workersLaunched : Nat := 0
  /-- What was asked of the crew, the earliest first. -/
  journal : List Event := []

/-- What a campaign achieved. -/
structure CampaignSummary where
  roundsRun : Nat
  exploitationRounds : Nat
  vertices : Nat
  edges : Nat
  spareFunctions : Nat
  profiledSeeds : Nat
  workersLaunched : Nat
  deriving Repr, DecidableEq

/-- The text of a summary. -/
def CampaignSummary.render (s : CampaignSummary) : String :=
  "Rounds run:        " ++ toString s.roundsRun ++ " (1 scanning + " ++
    toString s.exploitationRounds ++ " exploitation)\n" ++
  "Workers launched:  " ++ toString s.workersLaunched ++ "\n" ++
  "Call graph:        " ++ toString s.vertices ++ " vertices, " ++ toString s.edges ++ " edges\n" ++
  "Spare functions:   " ++ toString s.spareFunctions ++ "\n" ++
  "Profiled seeds:    " ++ toString s.profiledSeeds

/-- A step of a campaign. -/
abbrev Step (σ α : Type) := Action (Progress σ) CampaignError α

namespace Progress

variable {σ α ε : Type}

/-- Work on the world only. -/
def onWorld (action : Action σ ε α) : Action (Progress σ) ε α :=
  action.within Progress.world fun world p => { p with world := world }

/-- Enter an event into the journal. -/
def record (p : Progress σ) (event : Event) : Progress σ :=
  { p with journal := p.journal ++ [event] }

variable (crew : Crew σ)

/-! ## Asking the crew -/

/-- Launch a worker. -/
def launch (spec : WorkerSpec) : Step σ Worker := fun p =>
  match crew.launch spec p.world with
  | (.ok worker, world) =>
    (.ok worker,
      ({ p with world := world, workersLaunched := p.workersLaunched + 1 } : Progress σ).record
        (.launched spec))
  | (.error error, world) =>
    (.error (.launch error), ({ p with world := world } : Progress σ).record (.launchFailed spec))

/-- Wait during a round. -/
def pause (millis round : Nat) : Step σ Unit := fun p =>
  let (completed, world) := crew.pause millis p.world
  let p := ({ p with world := world } : Progress σ).record (.paused millis completed)
  if completed then (.ok (), p) else (.error (.interrupted round), p)

/-- Profile seeds. -/
def profile (seeds : List Path) : Step σ ProfileOutput := fun p =>
  match crew.profile seeds p.world with
  | (.ok output, world) =>
    (.ok output, ({ p with world := world } : Progress σ).record (.profiled seeds))
  | (.error error, world) =>
    (.error (.coverage (.profile error)),
      ({ p with world := world } : Progress σ).record (.profiled seeds))

/-- Stop a worker.  Failure to stop it changes nothing for the campaign. -/
def stop (p : Progress σ) (worker : Worker) : Progress σ :=
  ({ p with world := (crew.terminate worker p.world).2 } : Progress σ).record (.stopped worker)

/-- Stop the workers of the current round in the order of their launch. -/
def stopRoundWorkers (p : Progress σ) : Progress σ :=
  p.roundWorkers.foldl (stop crew) { p with roundWorkers := [] }

/-- Stop the monitor, if it runs. -/
def stopMonitor (p : Progress σ) : Progress σ :=
  match p.monitor with
  | some worker => stop crew { p with monitor := none } worker
  | none => p

@[simp] theorem roundWorkers_stop (p : Progress σ) (worker : Worker) :
    (p.stop crew worker).roundWorkers = p.roundWorkers := rfl

@[simp] theorem monitor_stop (p : Progress σ) (worker : Worker) :
    (p.stop crew worker).monitor = p.monitor := rfl

/-- After stopping, no worker of the round is left. -/
@[simp] theorem roundWorkers_stopRoundWorkers (p : Progress σ) :
    (p.stopRoundWorkers crew).roundWorkers = [] := by
  have key : ∀ (workers : List Worker) (q : Progress σ),
      (workers.foldl (stop crew) q).roundWorkers = q.roundWorkers := by
    intro workers
    induction workers with
    | nil => intro q; rfl
    | cons worker rest ih => intro q; simp [ih]
  exact key p.roundWorkers { p with roundWorkers := [] }

/-- After stopping the monitor, there is none. -/
@[simp] theorem monitor_stopMonitor (p : Progress σ) : (p.stopMonitor crew).monitor = none := by
  unfold stopMonitor
  split
  · rfl
  · assumption

end Progress

namespace Campaign

open Progress

variable {σ : Type} (c : Campaign) (crew : Crew σ)

/-! ## The steps of a round -/

/-- Remove from the graph what no task can use. -/
def prune : Step σ Unit :=
  modify fun p => { p with survey := (p.survey.prune c.inputs.blocks).2 }

/-- Prune the graph, create the directories and import the corpus. -/
def prepare : Step σ Unit := do
  c.prune
  (onWorld (c.settings.layout.create crew.files)).orFail (.io c.settings.layout.activeRuns)
  let _ ← (onWorld (importCorpus crew.files c.settings.campaign.seedCorpus
    c.settings.layout.seedsOrigin)).orFail .staging

/-- Profile the seeds of the monitor's queue, merge what they show into the graph
and prune it. -/
def refresh (isFirst : Bool) : Step σ Unit := do
  let state := (← get).survey.state
  let (seeds, state) ← (onWorld (selectSeeds crew.files c.settings.layout.monitorQueue isFirst
    state)).orFail .coverage
  modify fun p => { p with survey := { p.survey with state := state } }
  let output ← Progress.profile crew seeds
  modify fun p => { p with survey := (p.survey.ingest output).2 }
  c.prune

/-- Cut the graph into one task for each worker of the round, and write the tasks
and the tree that they were cut from. -/
def partition : Step σ Unit := do
  let p ← get
  let (result, graph) := p.survey.graph.split c.settings.campaign.strategy c.settings.roundWorkers
    c.inputs.sources c.settings.campaign.scoreCap
  set { p with survey := { p.survey with graph := graph } }
  match result with
  | .error error => throw (.partition error)
  | .ok plan =>
    let _ ← (onWorld (plan.writeTasks crew.files c.settings.layout.tasks)).orFail .partition
    match plan.arborescence with
    | none => pure ()
    | some tree =>
      let file := c.settings.layout.treeDot
      (onWorld (crew.files.writeText file (graph.toDotWith tree))).orFail (.io file)

/-- Write the graph of the round, as a drawing and as a snapshot. -/
def dumpGraph : Step σ Unit := do
  let graph := (← get).survey.graph
  let drawing := c.settings.layout.callGraphDot
  (onWorld (crew.files.writeText drawing graph.toDot)).orFail (.io drawing)
  let snapshot := c.settings.layout.callGraphJson
  (onWorld (crew.files.writeText snapshot graph.snapshot.render)).orFail (.io snapshot)

/-- Launch a worker of a round. -/
def launchWorker (phase : Phase) (index round : Nat) : Step σ Unit := do
  let worker ← Progress.launch crew (c.settings.fleet.roundWorker phase index round)
  modify fun p => { p with roundWorkers := p.roundWorkers ++ [worker] }

/-- Launch the workers of a round from an index on, with pauses between them. -/
def launchFrom (phase : Phase) (round : Nat) : Nat → Nat → Step σ Unit
  | _, 0 => pure ()
  | index, count + 1 => do
    if 1 < index then Progress.pause crew c.settings.campaign.staggerMillis round
    c.launchWorker crew phase index round
    launchFrom phase round (index + 1) count

/-- Where the seeds of a round come from. -/
def seedSource (round : Nat) : Path :=
  if round = 1 then c.settings.layout.seedsOrigin else c.settings.layout.monitorQueue

/-- Put the files of a round into place. -/
def stage (round : Nat) : Step σ Unit := do
  if 1 < round then
    let _ ← (onWorld (rotateArtifacts crew.files c.settings.layout (round - 1)
      c.settings.roundWorkers)).orFail .staging
  let tasks := c.settings.layout.tasks
  (onWorld (crew.files.createDirectories tasks)).orFail (.io tasks)
  let _ ← (onWorld (stageSeeds crew.files (c.seedSource round) c.settings.layout.seeds
    round)).orFail .staging

/-- Bring the graph of a round up to date, cut it when the round exploits, and
write it. -/
def chart (phase : Phase) (round : Nat) : Step σ Unit := do
  match phase with
  | .scanning => pure ()
  | .exploiting =>
    c.refresh crew (round == 2)
    c.partition crew
  c.dumpGraph crew

/-- Run the current round. -/
def runRound : Step σ Unit := do
  let state := (← get).survey.state
  let round := state.round.toNat
  c.stage crew round
  c.chart crew state.phase round
  c.launchFrom crew state.phase round 1 c.settings.roundWorkers
  Progress.pause crew (c.settings.phaseMillis state.phase) round
  modify (Progress.stopRoundWorkers crew)

/-- Count a finished round and move on to the next one. -/
def finishRound : Step σ Unit :=
  modify fun p =>
    { p with
      roundsRun := p.roundsRun + 1
      survey := { p.survey with state := p.survey.state.advance } }

/-- Run rounds while the number of the current one is not behind the last, for some turns
at most. -/
def loop : Nat → Step σ Unit
  | 0 => pure ()
  | turns + 1 => do
    if (← get).survey.state.round ≤ c.totalRounds then
      c.runRound crew
      finishRound
      loop turns

/-- Launch the monitor and wait for it to settle. -/
def launchMonitor : Step σ Unit := do
  let worker ← Progress.launch crew c.settings.fleet.monitor
  modify fun p => { p with monitor := some worker }
  Progress.pause crew c.settings.campaign.staggerMillis 1

/-- As many turns as there are numbers for rounds, from the first one on. -/
def roundLimit : Nat := 4294967295

/-- Everything up to the end of the last round.

The loop is left as soon as the number of the current round is behind the last one.  Only if
the last one is the largest number of all, no number is behind it: the loop is followed until
the numbers are used up, and what becomes of a campaign whose count starts over is not told
here. -/
def drive : Step σ Unit := do
  c.prepare crew
  c.launchMonitor crew
  c.loop crew roundLimit

/-! ## Whole campaigns -/

/-- How a campaign starts in a world. -/
def start (world : σ) : Progress σ := { world := world, survey := ⟨c.inputs.graph, {}⟩ }

/-- What a campaign has achieved so far. -/
def summary (p : Progress σ) : CampaignSummary where
  roundsRun := p.roundsRun
  exploitationRounds := c.exploitationRounds
  vertices := p.survey.graph.vertexCount
  edges := p.survey.graph.edgeCount
  spareFunctions := p.survey.state.spare.size
  profiledSeeds := p.survey.state.profiled.size
  workersLaunched := p.workersLaunched

/-- Run a campaign in a world.  In the end all its workers are stopped. -/
def run (world : σ) : Except CampaignError CampaignSummary × Progress σ :=
  let (outcome, p) := c.drive crew (c.start world)
  let p := (p.stopRoundWorkers crew).stopMonitor crew
  (outcome.map fun _ => c.summary p, p)

end Campaign

end FuzzCampaign

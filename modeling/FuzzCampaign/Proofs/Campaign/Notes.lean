import FuzzCampaign.Proofs.Campaign.Standing

/-!
# Taking notes changes nothing

A crew that takes notes gives the same answers as the crew it stands for, so that a
campaign runs in the same way with either of them, and the transcript of a campaign
tells what the campaign asks of its own crew.

Main definitions:

- `Action.Mirrors`: an action does the same as another one on what a view shows.
- `Progress.unnoted`: how far a campaign has come, without the notes.

Main results:

- `mirrors_run`: a campaign ends in the same way with and without notes.
-/

namespace FuzzCampaign

namespace Action

variable {τ ρ ε ε' α β : Type} {view : τ → ρ} {t : τ}

/-- From a state on, an action does the same as another one on what a view shows. -/
def Mirrors (view : τ → ρ) (action : Action τ ε α) (plain : Action ρ ε α) (t : τ) : Prop :=
  plain (view t) = ((action t).1, view (action t).2)

namespace Mirrors

/-- What the plain action answers, given what the action answers. -/
theorem apply_eq {action : Action τ ε α} {plain : Action ρ ε α} {result : Except ε α} {t' : τ}
    (h : action.Mirrors view plain t) (happly : action t = (result, t')) :
    plain (view t) = (result, view t') := by
  rw [Mirrors, happly] at h
  exact h

/-- Actions one after the other. -/
theorem bind {x : Action τ ε α} {x' : Action ρ ε α} {f : α → Action τ ε β}
    {f' : α → Action ρ ε β} (h : x.Mirrors view x' t)
    (h' : ∀ a t', x t = (.ok a, t') → (f a).Mirrors view (f' a) t') :
    (x >>= f).Mirrors view (x' >>= f') t := by
  rw [Mirrors] at h ⊢
  rw [bind_apply, bind_apply, h]
  cases hx : x t with
  | mk result t' =>
    cases result with
    | ok a => exact h' a t' hx
    | error e => rfl

/-- An error that is passed on is passed on in both. -/
theorem orFail {action : Action τ ε α} {plain : Action ρ ε α}
    (h : action.Mirrors view plain t) (f : ε → ε') :
    (action.orFail f).Mirrors view (plain.orFail f) t := by
  rw [Mirrors] at h ⊢
  rw [orFail_apply, orFail_apply, h]

/-- Both look at what they have come to. -/
theorem get_bind {f : τ → Action τ ε β} {f' : ρ → Action ρ ε β}
    (h : (f t).Mirrors view (f' (view t)) t) : (get >>= f).Mirrors view (get >>= f') t := h

/-- A question is answered alike. -/
theorem observe {f : τ → α} {f' : ρ → α} (h : f' (view t) = f t) :
    (Action.observe f : Action τ ε α).Mirrors view (Action.observe f') t := by
  rw [Mirrors, Action.observe, Action.observe, h]

/-- A change is the same on both sides of the view. -/
theorem modify {f : τ → τ} {f' : ρ → ρ} (h : f' (view t) = view (f t)) :
    (modify f : Action τ ε PUnit).Mirrors view (modify f') t :=
  congrArg (Prod.mk (Except.ok PUnit.unit)) h

theorem set {t' : τ} : (set t' : Action τ ε PUnit).Mirrors view (set (view t')) t := rfl

/-- A note is all that an operation that makes one adds. -/
theorem noted {σ : Type} (action : Action σ ε α) (request : Except ε α → Request) (n : Noted σ) :
    (action.noted request).Mirrors Noted.world action n := rfl

end Mirrors

end Action

open FuzzCampaign.Action

/-! ## Work on files -/

section

variable {σ : Type} (files : FileSystem σ) (n : Noted σ)

/-- Files are listed alike with and without notes. -/
theorem mirrors_sortedFileNames (dir : Path) :
    (sortedFileNames files.noted dir).Mirrors Noted.world (sortedFileNames files dir) n :=
  .bind (.noted _ _ n) fun _ _ _ => rfl

/-- The directories of a campaign are created alike with and without notes. -/
theorem mirrors_createLayout (l : Layout) :
    (l.create files.noted).Mirrors Noted.world (l.create files) n :=
  .bind (.noted _ _ n) fun _ n' _ => .bind (.noted _ _ n') fun _ n'' _ => .noted _ _ n''

/-- Files are copied alike with and without notes. -/
theorem mirrors_copyAll (source target : Path) (items : List (String × String)) :
    (copyAll files.noted source target items).Mirrors Noted.world
      (copyAll files source target items) n := by
  induction items generalizing n with
  | nil => exact rfl
  | cons item items ih =>
    exact .bind ((Mirrors.noted _ _ n).orFail _) fun _ n' _ => ih n'

/-- The corpus is imported alike with and without notes. -/
theorem mirrors_importCorpus (source target : Path) :
    (importCorpus files.noted source target).Mirrors Noted.world
      (importCorpus files source target) n := by
  refine .bind (.observe rfl) ?_
  intro isDirectory n' _
  split
  · refine .bind ((Mirrors.noted _ _ n').orFail _) ?_
    intro _ n'' _
    refine .bind ((mirrors_sortedFileNames files n'' source).orFail _) ?_
    intro names n₃ _
    split
    · exact rfl
    · exact .bind (mirrors_copyAll files n₃ _ _ _) fun _ _ _ => rfl
  · exact rfl

/-- Seeds are staged alike with and without notes. -/
theorem mirrors_stageSeeds (source target : Path) (round : Nat) :
    (stageSeeds files.noted source target round).Mirrors Noted.world
      (stageSeeds files source target round) n := by
  refine .bind ((Mirrors.noted _ _ n).orFail _) ?_
  intro _ n' _
  refine .bind (.observe rfl) ?_
  intro isDirectory n'' _
  split
  · refine .bind ((mirrors_sortedFileNames files n'' source).orFail _) ?_
    intro names n₃ _
    exact .bind (mirrors_copyAll files n₃ _ _ _) fun _ _ _ => rfl
  · exact rfl

/-- Artifacts are moved alike with and without notes. -/
theorem mirrors_moveAll (target : Path) (items : List Path) :
    (moveAll files.noted target items).Mirrors Noted.world (moveAll files target items) n := by
  induction items generalizing n with
  | nil => exact rfl
  | cons item items ih =>
    rw [moveAll, moveAll]
    split
    · refine .bind (.observe rfl) ?_
      intro isPresent n' _
      split
      · exact .bind ((Mirrors.noted _ _ n').orFail _) fun _ n'' _ => ih n''
      · exact ih n'
    · exact ih n

/-- A finished round is rotated alike with and without notes. -/
theorem mirrors_rotateArtifacts (layout : Layout) (round workers : Nat) :
    (rotateArtifacts files.noted layout round workers).Mirrors Noted.world
      (rotateArtifacts files layout round workers) n := by
  refine .bind ((Mirrors.noted _ _ n).orFail _) ?_
  intro _ n' _
  exact .bind (mirrors_moveAll files n' _ _) fun _ _ _ => rfl

/-- The same seeds are selected with and without notes. -/
theorem mirrors_selectSeeds (dir : Path) (isFirst : Bool) (s : CampaignState) :
    (selectSeeds files.noted dir isFirst s).Mirrors Noted.world
      (selectSeeds files dir isFirst s) n := by
  refine .bind (.observe rfl) ?_
  intro isDirectory n' _
  split
  · exact .bind ((mirrors_sortedFileNames files n' dir).orFail _) fun _ _ _ => rfl
  · exact rfl

/-- Tasks are written alike with and without notes. -/
theorem mirrors_writeAll (dir : Path) (number : Nat) (tasks : List Task) :
    (Task.writeAll files.noted dir number tasks).Mirrors Noted.world
      (Task.writeAll files dir number tasks) n := by
  induction tasks generalizing number n with
  | nil => exact rfl
  | cons task tasks ih =>
    refine .bind ((Mirrors.noted _ _ n).orFail _) ?_
    intro _ n' _
    exact .bind (ih n' (number + 1)) fun _ _ _ => rfl

end

/-! ## The crew -/

namespace Progress

variable {σ : Type}

/-- How far a campaign has come, without the notes. -/
def unnoted (p : Progress (Noted σ)) : Progress σ where
  world := p.world.world
  survey := p.survey
  monitor := p.monitor
  roundWorkers := p.roundWorkers
  roundsRun := p.roundsRun
  workersLaunched := p.workersLaunched
  journal := p.journal

@[simp] theorem survey_unnoted (p : Progress (Noted σ)) : p.unnoted.survey = p.survey := rfl

variable (crew : Crew σ) (p : Progress (Noted σ))

/-- Work on the world with and without notes. -/
theorem mirrors_onWorld {ε α : Type} {action : Action (Noted σ) ε α} {plain : Action σ ε α}
    (h : action.Mirrors Noted.world plain p.world) :
    (onWorld action).Mirrors unnoted (onWorld plain) p := by
  rw [Mirrors] at h
  simp only [Mirrors, onWorld, Action.within, unnoted, h]
  rfl

/-- A launch with and without notes. -/
theorem mirrors_launch (spec : WorkerSpec) :
    (Progress.launch crew.noted spec).Mirrors unnoted (Progress.launch crew spec) p := by
  simp only [Mirrors, Progress.launch, Crew.noted, Action.noted, unnoted]
  cases crew.launch spec p.world.world with
  | mk answer world => cases answer <;> rfl

/-- A pause with and without notes. -/
theorem mirrors_pause (millis round : Nat) :
    (Progress.pause crew.noted millis round).Mirrors unnoted
      (Progress.pause crew millis round) p := by
  rw [Mirrors, pause_apply, pause_apply]
  rfl

/-- A profiling pass with and without notes. -/
theorem mirrors_profile (seeds : List Path) :
    (Progress.profile crew.noted seeds).Mirrors unnoted (Progress.profile crew seeds) p := by
  rw [Mirrors, profile_apply, profile_apply]
  rfl

/-- Stopping workers with and without notes. -/
theorem unnoted_foldl_stop (workers : List Worker) :
    (workers.foldl (stop crew.noted) p).unnoted = workers.foldl (stop crew) p.unnoted := by
  induction workers generalizing p with
  | nil => rfl
  | cons worker rest ih => exact ih (p.stop crew.noted worker)

/-- The workers of a round are stopped with and without notes. -/
theorem unnoted_stopRoundWorkers :
    (p.stopRoundWorkers crew.noted).unnoted = p.unnoted.stopRoundWorkers crew :=
  unnoted_foldl_stop crew { p with roundWorkers := [] } p.roundWorkers

/-- The monitor is stopped with and without notes. -/
theorem unnoted_stopMonitor :
    (p.stopMonitor crew.noted).unnoted = p.unnoted.stopMonitor crew := by
  cases hmonitor : p.monitor with
  | none => simp only [stopMonitor, unnoted, hmonitor]
  | some worker => simp only [stopMonitor, unnoted, hmonitor]; rfl

end Progress

/-! ## The steps of a campaign -/

namespace Campaign

open Progress

variable {σ : Type} (c : Campaign) (crew : Crew σ) (p : Progress (Noted σ))

/-- Notes do not matter to a change of the survey. -/
theorem mirrors_modifySurvey (f : Survey → Survey) :
    (modify fun p => { p with survey := f p.survey } : Step (Noted σ) Unit).Mirrors unnoted
      (modify fun p => { p with survey := f p.survey }) p :=
  .modify rfl

/-- Notes do not matter to pruning. -/
theorem mirrors_prune : c.prune.Mirrors unnoted c.prune p :=
  mirrors_modifySurvey p fun survey => (survey.prune c.inputs.blocks).2

/-- A campaign is prepared alike with and without notes. -/
theorem mirrors_prepare : (c.prepare crew.noted).Mirrors unnoted (c.prepare crew) p := by
  refine .bind (c.mirrors_prune p) ?_
  intro _ p' _
  refine .bind ((mirrors_onWorld p' (mirrors_createLayout crew.files _ _)).orFail _) ?_
  intro _ p'' _
  exact .bind ((mirrors_onWorld p'' (mirrors_importCorpus crew.files _ _ _)).orFail _)
    fun _ _ _ => rfl

/-- A pass with and without notes. -/
theorem mirrors_refresh (isFirst : Bool) :
    (c.refresh crew.noted isFirst).Mirrors unnoted (c.refresh crew isFirst) p := by
  refine .get_bind ?_
  refine .bind ((mirrors_onWorld p (mirrors_selectSeeds crew.files _ _ _ _)).orFail _) ?_
  intro _ p' _
  refine .bind (.modify rfl) ?_
  intro _ p'' _
  refine .bind (mirrors_profile crew p'' _) ?_
  intro _ p₃ _
  exact .bind (mirrors_modifySurvey p₃ fun survey => (survey.ingest _).2)
    fun _ p₄ _ => c.mirrors_prune p₄

/-- Cutting the graph with and without notes. -/
theorem mirrors_partition : (c.partition crew.noted).Mirrors unnoted (c.partition crew) p := by
  refine .get_bind ?_
  rw [survey_unnoted]
  refine .bind .set ?_
  intro _ p' _
  split
  · exact rfl
  · refine .bind ((mirrors_onWorld p' (mirrors_writeAll crew.files _ _ _ _)).orFail _) ?_
    intro _ p'' _
    split
    · exact rfl
    · exact (mirrors_onWorld p'' (.noted _ _ _)).orFail _

/-- Writing the graph with and without notes. -/
theorem mirrors_dumpGraph : (c.dumpGraph crew.noted).Mirrors unnoted (c.dumpGraph crew) p := by
  refine .get_bind ?_
  refine .bind ((mirrors_onWorld p (.noted _ _ _)).orFail _) ?_
  intro _ p'' _
  exact (mirrors_onWorld p'' (.noted _ _ _)).orFail _

/-- Launching the workers of a round with and without notes. -/
theorem mirrors_launchFrom (phase : Phase) (round index count : Nat) :
    (c.launchFrom crew.noted phase round index count).Mirrors unnoted
      (c.launchFrom crew phase round index count) p := by
  have hlaunch (index : Nat) (p : Progress (Noted σ)) :
      (c.launchWorker crew.noted phase index round).Mirrors unnoted
        (c.launchWorker crew phase index round) p :=
    .bind (mirrors_launch crew p _) fun _ _ _ => .modify rfl
  induction count generalizing index p with
  | zero => exact rfl
  | succ count ih =>
    rw [launchFrom, launchFrom]
    split
    · refine .bind (mirrors_pause crew p _ _) ?_
      intro _ p' _
      exact .bind (hlaunch index p') fun _ p'' _ => ih p'' (index + 1)
    · exact .bind (hlaunch index p) fun _ p'' _ => ih p'' (index + 1)

/-- Putting files into place with and without notes. -/
theorem mirrors_stage (round : Nat) :
    (c.stage crew.noted round).Mirrors unnoted (c.stage crew round) p := by
  have hrest : ∀ p', (do
      let tasks := c.settings.layout.tasks
      (onWorld (crew.noted.files.createDirectories tasks)).orFail (.io tasks)
      let _ ← (onWorld (stageSeeds crew.noted.files (c.seedSource round) c.settings.layout.seeds
        round)).orFail .staging : Step (Noted σ) Unit).Mirrors unnoted (do
      let tasks := c.settings.layout.tasks
      (onWorld (crew.files.createDirectories tasks)).orFail (.io tasks)
      let _ ← (onWorld (stageSeeds crew.files (c.seedSource round) c.settings.layout.seeds
        round)).orFail .staging : Step σ Unit) p' := by
    intro p'
    refine .bind ((mirrors_onWorld p' (.noted _ _ _)).orFail _) ?_
    intro _ p'' _
    refine .bind ((mirrors_onWorld p'' (mirrors_stageSeeds crew.files _ _ _ _)).orFail _) ?_
    intro _ p₃ _
    exact rfl
  rw [stage, stage]
  split
  · refine .bind ((mirrors_onWorld p (mirrors_rotateArtifacts crew.files _ _ _ _)).orFail _) ?_
    intro _ p' _
    exact hrest p'
  · exact hrest p

/-- Bringing the graph up to date with and without notes. -/
theorem mirrors_chart (phase : Phase) (round : Nat) :
    (c.chart crew.noted phase round).Mirrors unnoted (c.chart crew phase round) p := by
  cases phase with
  | scanning => exact c.mirrors_dumpGraph crew p
  | exploiting =>
    refine .bind (c.mirrors_refresh crew p (round == 2)) ?_
    intro _ p' _
    refine .bind (c.mirrors_partition crew p') ?_
    intro _ p'' _
    exact c.mirrors_dumpGraph crew p''

/-- A round with and without notes. -/
theorem mirrors_runRound : (c.runRound crew.noted).Mirrors unnoted (c.runRound crew) p := by
  refine .get_bind ?_
  refine .bind (c.mirrors_stage crew p _) ?_
  intro _ p' _
  refine .bind (c.mirrors_chart crew p' _ _) ?_
  intro _ p'' _
  refine .bind (c.mirrors_launchFrom crew p'' _ _ _ _) ?_
  intro _ p₃ _
  refine .bind (mirrors_pause crew p₃ _ _) ?_
  intro _ p₄ _
  exact .modify (unnoted_stopRoundWorkers crew p₄).symm

/-- Notes do not change when the loop is left. -/
theorem mirrors_loop (turns : Nat) :
    (c.loop crew.noted turns).Mirrors unnoted (c.loop crew turns) p := by
  induction turns generalizing p with
  | zero => exact rfl
  | succ turns ih =>
    rw [loop, loop]
    refine .get_bind ?_
    rw [survey_unnoted]
    split
    · refine .bind (c.mirrors_runRound crew p) ?_
      intro _ p' _
      exact .bind (.modify rfl) fun _ p'' _ => ih p''
    · exact rfl

/-- A whole campaign with and without notes. -/
theorem mirrors_drive : (c.drive crew.noted).Mirrors unnoted (c.drive crew) p := by
  refine .bind (c.mirrors_prepare crew p) ?_
  intro _ p' _
  refine .bind ?_ fun _ p'' _ => c.mirrors_loop crew p'' roundLimit
  refine .bind (mirrors_launch crew p' _) ?_
  intro _ p'' _
  exact .bind (.modify rfl) fun _ p₃ _ => mirrors_pause crew p₃ _ _

/-- A campaign ends in the same way with and without notes. -/
theorem mirrors_run (world : σ) :
    c.run crew world = ((c.notedRun crew world).1, (c.notedRun crew world).2.unnoted) := by
  have hdrive := c.mirrors_drive crew (c.start ⟨world, []⟩)
  have hstart : (c.start ⟨world, []⟩ : Progress (Noted σ)).unnoted = c.start world := rfl
  rw [Mirrors, hstart] at hdrive
  rw [notedRun, run_apply, run_apply, hdrive]
  dsimp only
  rw [← unnoted_stopRoundWorkers, ← unnoted_stopMonitor]
  rfl

end Campaign

end FuzzCampaign

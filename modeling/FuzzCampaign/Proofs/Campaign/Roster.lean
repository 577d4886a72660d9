import FuzzCampaign.Proofs.Campaign.Schedule
import Mathlib.Data.List.Forall2

/-!
# The roster of a campaign

At any time the workers that were launched are the monitor, the round workers that
were asked to stop, and those that still run, in the order of their launch.  This is
kept by every step, also by one that fails, and in the end it tells that everybody
was asked to stop.

Main definitions:

- `Progress.Roster`: what the requests so far say about the workers that run.

Main results:

- `roster_drive`: the roster is kept until the last round is over or something fails.
- `exists_transcript`: a transcript is made of what a campaign asks for while it
  follows its schedule, and of stopping whoever still runs.
-/

namespace FuzzCampaign

open FuzzCampaign.Action

/-! ## Steps that launch and stop nobody -/

/-- A plan in which nobody is launched or stopped. -/
structure Quiet (plan : List Deed) : Prop where
  launches : plan.filterMap Deed.launch? = []
  stops : plan.filterMap Deed.terminated? = []

namespace Follows

variable {ε α : Type} {fault : ε → Prop} {plan : List Deed} {result : Except ε α}
  {asked : List Request}

/-- The workers that were launched are among those that the plan names. -/
theorem launched_prefix (h : Follows fault plan result asked) :
    (Request.launched asked).map (·.1) <+: plan.filterMap Deed.launch? :=
  (Request.map_fst_launched_prefix h.steady).trans (h.deeds_prefix.filterMap _)

/-- A plan without launches launches nobody. -/
theorem launched_eq_nil (h : Follows fault plan result asked) (hquiet : Quiet plan) :
    Request.launched asked = [] := by
  have hprefix := h.launched_prefix
  rw [hquiet.launches] at hprefix
  simpa using hprefix

/-- A plan without terminations terminates nobody. -/
theorem terminated_eq_nil (h : Follows fault plan result asked) (hquiet : Quiet plan) :
    Request.terminated asked = [] := by
  have hprefix := h.deeds_prefix.filterMap Deed.terminated?
  rw [hquiet.stops] at hprefix
  exact List.prefix_nil.1 hprefix

end Follows

/-- Whatever holds at each end of an action and of what follows it. -/
theorem Action.bind_snd {τ ε α β : Type} {I : τ → Prop} {x : Action τ ε α}
    {f : α → Action τ ε β} {t : τ} (h : I (x t).2)
    (h' : ∀ a t', x t = (.ok a, t') → I t' → I (f a t').2) : I ((x >>= f) t).2 := by
  rw [bind_apply]
  cases hx : x t with
  | mk result t' =>
    rw [hx] at h
    cases result with
    | ok a => exact h' a t' hx h
    | error e => exact h

/-! ## The roster -/

namespace Progress

variable {σ : Type}

/-- The requests so far and the workers that run agree: who was launched is the
monitor, was asked to stop, or runs. -/
structure Roster (p : Progress (Noted σ)) : Prop where
  workers : (Request.launched p.requests).map (·.2) =
    p.monitor.toList ++ (Request.terminated p.requests ++ p.roundWorkers)
  unattended : p.monitor = none → Request.launched p.requests = []
  count : p.workersLaunched = (Request.launched p.requests).length

namespace Roster

variable {p : Progress (Noted σ)}

/-- Requests that launch and stop nobody keep the roster. -/
theorem idle {p' : Progress (Noted σ)} (h : Roster p) {asked : List Request}
    (hrequests : p'.requests = p.requests ++ asked) (hlaunched : Request.launched asked = [])
    (hterminated : Request.terminated asked = []) (hstanding : p'.standing = p.standing) :
    Roster p' := by
  have hmonitor : p'.monitor = p.monitor := congrArg Standing.monitor hstanding
  have hworkers : p'.roundWorkers = p.roundWorkers := congrArg Standing.roundWorkers hstanding
  have hcount : p'.workersLaunched = p.workersLaunched :=
    congrArg Standing.workersLaunched hstanding
  refine ⟨?_, ?_, ?_⟩
  · simpa [hrequests, hmonitor, hworkers, hlaunched, hterminated] using h.workers
  · simpa [hrequests, hmonitor, hlaunched] using h.unattended
  · simpa [hrequests, hcount, hlaunched] using h.count

/-- A step that launches and stops nobody keeps the roster. -/
theorem quiet {α : Type} {plan : List Deed} {step : Step (Noted σ) α} (h : Roster p)
    (hquiet : Quiet plan) (hperforms : CarriesOut plan step p) (hkeeps : step.Keeps standing p) :
    Roster (step p).2 := by
  obtain ⟨asked, hrequests, hfollows⟩ := hperforms
  exact h.idle hrequests (hfollows.launched_eq_nil hquiet) (hfollows.terminated_eq_nil hquiet)
    hkeeps

/-- A new worker of the round enters the roster. -/
theorem enter {p' : Progress (Noted σ)} {spec : WorkerSpec} {worker : Worker} (h : Roster p)
    (hattended : p.monitor ≠ none)
    (hrequests : p'.requests = p.requests ++ [.launch spec (.ok worker)])
    (hmonitor : p'.monitor = p.monitor) (hworkers : p'.roundWorkers = p.roundWorkers ++ [worker])
    (hcount : p'.workersLaunched = p.workersLaunched + 1) : Roster p' := by
  have hlaunched : Request.launched p'.requests =
      Request.launched p.requests ++ [(spec, worker)] := by
    rw [hrequests, Request.launched_append]
    rfl
  have hterminated : Request.terminated p'.requests = Request.terminated p.requests := by
    rw [hrequests, Request.terminated_append]
    exact List.append_nil _
  refine ⟨?_, ?_, ?_⟩
  · rw [hlaunched, hterminated, hmonitor, hworkers, List.map_append, h.workers]
    simp
  · intro hnone
    exact absurd (hmonitor ▸ hnone) hattended
  · rw [hcount, hlaunched, h.count, List.length_append, List.length_singleton]

/-- The workers of the round leave when they are stopped. -/
theorem leave {p' : Progress (Noted σ)} {asked : List Request} (h : Roster p)
    (hdismisses : Request.Dismisses asked p.roundWorkers)
    (hrequests : p'.requests = p.requests ++ asked)
    (hstanding : p'.standing = { p.standing with roundWorkers := [] }) : Roster p' := by
  have hmonitor : p'.monitor = p.monitor := congrArg Standing.monitor hstanding
  have hworkers : p'.roundWorkers = [] := congrArg Standing.roundWorkers hstanding
  have hcount : p'.workersLaunched = p.workersLaunched :=
    congrArg Standing.workersLaunched hstanding
  have hlaunched : Request.launched p'.requests = Request.launched p.requests := by
    rw [hrequests, Request.launched_append, hdismisses.launched_eq, List.append_nil]
  have hterminated : Request.terminated p'.requests =
      Request.terminated p.requests ++ p.roundWorkers := by
    rw [hrequests, Request.terminated_append, hdismisses.terminated_eq]
  refine ⟨?_, ?_, ?_⟩
  · rw [hlaunched, hterminated, hmonitor, hworkers, h.workers, List.append_nil]
  · rw [hlaunched, hmonitor]
    exact h.unattended
  · rw [hlaunched, hcount, h.count]

end Roster

/-- Launching a worker of a round keeps the roster, also when it fails. -/
theorem Roster.launchWorker {p : Progress (Noted σ)} (h : Roster p) (c : Campaign)
    (crew : Crew σ) (phase : Phase) (index round : Nat) (hmonitor : p.monitor ≠ none) :
    Roster (c.launchWorker crew.noted phase index round p).2 := by
  have hnoted := crew.launch_noted (c.settings.fleet.roundWorker phase index round) p.world
  rw [Campaign.launchWorker, bind_apply]
  cases hanswer : (crew.launch (c.settings.fleet.roundWorker phase index round)
      p.world.world).1 with
  | ok worker =>
    rw [hanswer] at hnoted
    rw [launch_of_ok crew.noted p hnoted]
    exact h.enter hmonitor rfl rfl rfl rfl
  | error e =>
    rw [hanswer] at hnoted
    rw [launch_of_error crew.noted p hnoted]
    exact h.idle rfl rfl rfl rfl

/-- Stopping the workers of a round keeps the roster. -/
theorem Roster.stopRoundWorkers {p : Progress (Noted σ)} (h : Roster p) (crew : Crew σ) :
    Roster (p.stopRoundWorkers crew.noted) := by
  obtain ⟨asked, hrequests, hdismisses⟩ := requests_stopRoundWorkers crew p
  exact h.leave hdismisses hrequests (view_stopRoundWorkers crew.noted p inward_standing.discreet)

end Progress

/-! ## The steps of a campaign -/

namespace Campaign

open Progress

variable {σ : Type} (c : Campaign) (crew : Crew σ) {p : Progress (Noted σ)}

/-- A pause keeps the roster right. -/
theorem roster_pause (h : Roster p) (millis round : Nat) :
    Roster (Progress.pause crew.noted millis round p).2 :=
  h.quiet ⟨rfl, rfl⟩ (performs_pause crew p _ _)
    (keeps_pause crew.noted p inward_standing.discreet _ _)

/-- Staging keeps the roster right. -/
theorem roster_stage (h : Roster p) (round : Nat) : Roster (c.stage crew.noted round p).2 :=
  h.quiet ⟨rfl, rfl⟩ (c.performs_stage crew p round)
    (c.keeps_stage crew.noted p inward_standing.world round)

/-- Charting a round keeps the roster right. -/
theorem roster_chart (h : Roster p) (phase : Phase) (round : Nat) :
    Roster (c.chart crew.noted phase round p).2 := by
  have hkeeps := c.keeps_chart crew.noted p phase round
  cases phase with
  | scanning => exact h.quiet ⟨rfl, rfl⟩ (c.performs_dumpGraph crew p) hkeeps
  | exploiting =>
    have hprofiled : ∀ name, name ∈ p.survey.state.profiled ↔
        name ∈ p.survey.state.profiled.toList := fun name => Std.TreeSet.mem_toList.symm
    obtain ⟨names, hchart, -⟩ := c.performs_chart_exploiting crew p round hprofiled
    exact h.quiet ⟨rfl, rfl⟩ hchart hkeeps

/-- Launching the workers of a round keeps the roster right. -/
theorem roster_launchFrom (h : Roster p) (hmonitor : p.monitor ≠ none) (phase : Phase)
    (round index count : Nat) :
    Roster (c.launchFrom crew.noted phase round index count p).2 := by
  induction count generalizing index p with
  | zero => exact h
  | succ count ih =>
    have hrest : ∀ {p : Progress (Noted σ)}, Roster p → p.monitor ≠ none → Roster ((do
        c.launchWorker crew.noted phase index round
        c.launchFrom crew.noted phase round (index + 1) count : Step (Noted σ) Unit) p).2 := by
      intro p h hmonitor
      refine bind_snd (h.launchWorker c crew phase index round hmonitor) ?_
      intro u p' hlaunch h'
      refine ih h' ?_ (index + 1)
      rw [(c.muster_launchWorker crew.noted hlaunch).monitor_eq]
      exact hmonitor
    rw [launchFrom]
    split
    · refine bind_snd (roster_pause crew h _ _) ?_
      intro _ p' hpause h'
      refine hrest h' ?_
      rw [(muster_pause crew.noted hpause).monitor_eq]
      exact hmonitor
    · exact hrest h hmonitor

/-- Watching over a round keeps the roster right. -/
theorem roster_watch (h : Roster p) (hmonitor : p.monitor ≠ none) (round : Nat) (phase : Phase) :
    Roster (c.watch crew.noted round phase p).2 := by
  refine bind_snd (c.roster_launchFrom crew h hmonitor _ _ _ _) ?_
  intro _ p₁ _ h₁
  refine bind_snd (roster_pause crew h₁ _ _) ?_
  intro _ p₂ _ h₂
  exact h₂.stopRoundWorkers crew

/-- A round keeps the roster right. -/
theorem roster_runRound (h : Roster p) (hmonitor : p.monitor ≠ none) :
    Roster (c.runRound crew.noted p).2 := by
  rw [c.runRound_apply crew.noted p rfl rfl]
  refine bind_snd (c.roster_stage crew h _) ?_
  intro _ p₁ hstage h₁
  refine bind_snd (c.roster_chart crew h₁ _ _) ?_
  intro _ p₂ hchart h₂
  refine c.roster_watch crew h₂ ?_ _ _
  have hstanding : p₂.standing = p.standing :=
    ((c.keeps_chart crew.noted p₁ _ _).apply_eq hchart).trans
      ((c.keeps_stage crew.noted p inward_standing.world _).apply_eq hstage)
  have hsame : p₂.monitor = p.monitor := congrArg Standing.monitor hstanding
  rw [hsame]
  exact hmonitor

/-- Rounds keep the roster, however they end. -/
theorem roster_runRounds (h : Roster p) (hmonitor : p.monitor ≠ none) (count : Nat) :
    Roster (c.runRounds crew.noted count p).2 := by
  induction count generalizing p with
  | zero => exact h
  | succ count ih =>
    refine bind_snd (c.roster_runRound crew h hmonitor) ?_
    intro u p₁ hrun h₁
    have hattended : p₁.monitor ≠ none := by
      rw [(c.runRound_ok crew.noted hrun).2.2.1]
      exact hmonitor
    exact ih (p := { p₁ with
      roundsRun := p₁.roundsRun + 1
      survey := { p₁.survey with state := p₁.survey.state.advance } })
      ⟨h₁.workers, h₁.unattended, h₁.count⟩ hattended

/-- The monitor is the first one in the roster. -/
theorem roster_launchMonitor (h : Roster p) (hmonitor : p.monitor = none)
    (hidle : p.roundWorkers = []) : Roster (c.launchMonitor crew.noted p).2 := by
  have hlaunched := h.unattended hmonitor
  have hterminated : Request.terminated p.requests = [] := by
    simpa [hlaunched, hmonitor, hidle] using h.workers
  have hnoted := crew.launch_noted c.settings.fleet.monitor p.world
  rw [launchMonitor, bind_apply]
  cases hanswer : (crew.launch c.settings.fleet.monitor p.world.world).1 with
  | ok worker =>
    rw [hanswer] at hnoted
    rw [launch_of_ok crew.noted p hnoted]
    have hlaunched' : Request.launched
        (p.requests ++ [.launch c.settings.fleet.monitor (.ok worker)]) =
          [(c.settings.fleet.monitor, worker)] := by
      rw [Request.launched_append, hlaunched]
      rfl
    have hterminated' : Request.terminated
        (p.requests ++ [.launch c.settings.fleet.monitor (.ok worker)]) = [] := by
      rw [Request.terminated_append, hterminated]
      rfl
    refine roster_pause crew ⟨?_, (fun hnone => by cases hnone), ?_⟩ _ _
    · refine (congrArg (List.map (·.2)) hlaunched').trans (Eq.symm ?_)
      exact congrArg₂ (fun stopped running => [worker] ++ (stopped ++ running)) hterminated' hidle
    · have hcount := h.count
      rw [hlaunched] at hcount
      exact (congrArg (· + 1) hcount).trans (congrArg List.length hlaunched').symm
  | error e =>
    rw [hanswer] at hnoted
    rw [launch_of_error crew.noted p hnoted]
    exact h.idle rfl rfl rfl rfl

/-- The roster is kept until the last round is over or something fails. -/
theorem roster_drive (world : σ) : Roster (c.drive crew.noted (c.start ⟨world, []⟩)).2 := by
  have hstart : Roster (c.start ⟨world, []⟩ : Progress (Noted σ)) := ⟨rfl, fun _ => rfl, rfl⟩
  have hkeeps :=
    c.keeps_prepare crew.noted (c.start ⟨world, []⟩) inward_standing.world (c.keeps_prune _)
  rw [drive_apply]
  refine bind_snd (hstart.quiet ⟨rfl, rfl⟩ (c.performs_prepare crew _) hkeeps) ?_
  intro _ p₁ hprepare h₁
  have hstanding := hkeeps.apply_eq hprepare
  refine bind_snd (c.roster_launchMonitor crew h₁ (congrArg Standing.monitor hstanding)
    (congrArg Standing.roundWorkers hstanding)) ?_
  intro _ p₂ hlaunch h₂
  obtain ⟨-, -, -, worker, hworker⟩ := c.launchMonitor_ok crew.noted hlaunch
  exact c.roster_runRounds crew h₂ (by simp [hworker]) c.totalRounds.toNat

/-! ## The transcript -/

/-- A transcript is made of what a campaign asks for while it follows its schedule, and
of stopping whoever still runs: the workers of the round and then the monitor. -/
theorem exists_transcript (world : σ) : ∃ made tidied,
    (c.drive crew.noted (c.start ⟨world, []⟩)).2.requests = made ∧
      c.transcript crew world = made ++ tidied ∧
      Request.Dismisses tidied ((c.drive crew.noted (c.start ⟨world, []⟩)).2.roundWorkers ++
        (c.drive crew.noted (c.start ⟨world, []⟩)).2.monitor.toList) := by
  obtain ⟨front, hfront, hround⟩ :=
    requests_stopRoundWorkers crew (c.drive crew.noted (c.start ⟨world, []⟩)).2
  obtain ⟨back, hback, hmonitor⟩ := requests_stopMonitor crew
    ((c.drive crew.noted (c.start ⟨world, []⟩)).2.stopRoundWorkers crew.noted)
  have hsame : ((c.drive crew.noted (c.start ⟨world, []⟩)).2.stopRoundWorkers crew.noted).monitor =
      (c.drive crew.noted (c.start ⟨world, []⟩)).2.monitor :=
    view_stopRoundWorkers crew.noted _ inward_monitor.discreet
  rw [hsame] at hmonitor
  refine ⟨_, front ++ back, rfl, ?_, List.rel_append hround hmonitor⟩
  rw [transcript, notedRun, run_apply]
  dsimp only
  rw [hback, hfront, List.append_assoc]

/-- The first part of a transcript follows every plan that the campaign follows. -/
theorem exists_followed {plan : List Deed} {world : σ}
    (h : CarriesOut plan (c.drive crew.noted) (c.start ⟨world, []⟩)) : ∃ made tidied,
      (c.drive crew.noted (c.start ⟨world, []⟩)).2.requests = made ∧
      c.transcript crew world = made ++ tidied ∧
      Follows CampaignError.IsFault plan (c.drive crew.noted (c.start ⟨world, []⟩)).1 made ∧
      Request.Dismisses tidied ((c.drive crew.noted (c.start ⟨world, []⟩)).2.roundWorkers ++
        (c.drive crew.noted (c.start ⟨world, []⟩)).2.monitor.toList) := by
  obtain ⟨made, tidied, hmade, htranscript, hdismisses⟩ := c.exists_transcript crew world
  obtain ⟨asked, hrequests, hfollows⟩ := h
  obtain rfl : asked = made := hrequests.symm.trans hmade
  exact ⟨asked, tidied, hmade, htranscript, hfollows, hdismisses⟩

end Campaign

end FuzzCampaign

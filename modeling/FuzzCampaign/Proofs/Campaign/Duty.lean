import FuzzCampaign.Proofs.Campaign.Roster
import FuzzCampaign.Proofs.Campaign.Timetable

/-!
# Nobody is left running

However a campaign ends, everybody whom it launched was asked to stop, exactly once: the
workers of the rounds in the order of their launch, and the monitor at the very end.  The
workers that run at a time are all of one round, and none runs while seeds are profiled.
After a failure nobody is launched any more.

Main definitions:

- `Request.onDuty`: the workers of rounds that run after some requests.
- `Campaign.Orderly`: what holds of the requests of a campaign.

Main results:

- `orderly_transcript`: the requests of every campaign are in order.
-/

namespace FuzzCampaign

/-! ## Who runs -/

namespace Request

/-- The workers of rounds that run after some requests: whoever was launched after the
monitor, but for as many of them as were stopped.  The earliest are stopped first. -/
def onDuty (requests : List Request) : List (WorkerSpec × Worker) :=
  (launched requests).tail.drop (terminated requests).length

/-- How many profiling passes were asked for. -/
def passes (requests : List Request) : Nat := ((deeds requests).filterMap Deed.profile?).length

/-- Whether a worker is asked to stop. -/
def IsStop (request : Request) : Prop := ∃ worker answer, request = .terminate worker answer

theorem not_isStop_launch {spec : WorkerSpec} {answer : Except WorkerError Worker} :
    ¬ (launch spec answer).IsStop := by
  rintro ⟨_, _, heq⟩
  cases heq

theorem not_isStop_profile {seeds : List Path} {answer : Except ProfileError ProfileOutput} :
    ¬ (profile seeds answer).IsStop := by
  rintro ⟨_, _, heq⟩
  cases heq

/-- Dismissing is stopping. -/
theorem Dismisses.isStop {requests : List Request} {workers : List Worker}
    (h : Dismisses requests workers) : ∀ request ∈ requests, request.IsStop :=
  fun _ => h.exists_eq

/-- Requests to stop workers can be cut where their workers are. -/
theorem Dismisses.exists_append {front back : List Request} {workers : List Worker}
    (h : Dismisses (front ++ back) workers) :
    ∃ earlier later, workers = earlier ++ later ∧ Dismisses front earlier ∧
      Dismisses back later := by
  refine ⟨workers.take front.length, workers.drop front.length, ?_, ?_, ?_⟩
  · exact (List.take_append_drop _ _).symm
  · have hfront := List.forall₂_take front.length h
    rwa [List.take_left] at hfront
  · have hback := List.forall₂_drop front.length h
    rwa [List.drop_left] at hback

/-- Whoever is to be stopped last is stopped by the last request. -/
theorem Dismisses.exists_last {requests : List Request} {workers : List Worker} {worker : Worker}
    (h : Dismisses requests (workers ++ [worker])) :
    ∃ front answer, requests = front ++ [.terminate worker answer] := by
  have hlast := List.forall₂_drop workers.length h
  rw [List.drop_left] at hlast
  obtain ⟨request, rest, ⟨answer, rfl⟩, hrest, heq⟩ := List.forall₂_cons_right_iff.1 hlast
  refine ⟨requests.take workers.length, answer, ?_⟩
  rw [List.forall₂_nil_right_iff.1 hrest] at heq
  rw [← heq, List.take_append_drop]

end Request

open Request

namespace Campaign

/-! ## Order among requests -/

/-- What holds of the requests of a campaign, from the first to the last. -/
structure Orderly (c : Campaign) (requests : List Request) : Prop where
  /-- Whoever was launched was stopped once, the workers of the rounds in the order of
  their launch; the monitor was launched first, and stopping it was the last request. -/
  stopped : launched requests = [] ∧ terminated requests = [] ∨
    ∃ monitor team, launched requests = (c.settings.fleet.monitor, monitor) :: team ∧
      terminated requests = team.map (·.2) ++ [monitor] ∧
      ∃ front answer, requests = front ++ [.terminate monitor answer]
  /-- At any time those who were stopped are the first ones that were launched after the
  monitor. -/
  in_turn : ∀ front back, requests = front ++ back → back ≠ [] →
    terminated front <+: (launched front).tail.map (·.2)
  /-- At any time those who run are of the same round. -/
  one_round : ∀ front back, requests = front ++ back →
    ∃ round, ∀ entry ∈ onDuty front, c.BelongsTo round entry.1
  /-- Launches are those of the monitor and of workers of the rounds.  When a worker of a
  round is launched, all workers of earlier rounds were stopped, and whoever runs is of the
  same round. -/
  launch_alone : ∀ front spec answer back, requests = front ++ .launch spec answer :: back →
    spec = c.settings.fleet.monitor ∧ launched front = [] ∨
      ∃ round, c.BelongsTo round spec ∧
        (round - 1) * c.settings.roundWorkers ≤ (terminated front).length ∧
        ∀ entry ∈ onDuty front, c.BelongsTo round entry.1
  /-- A pass comes when all workers of the rounds so far were launched and stopped.  The
  first pass is the one of the second round. -/
  profile_alone : ∀ front seeds answer back, requests = front ++ .profile seeds answer :: back →
    onDuty front = [] ∧
      (launched front).length = 1 + (passes front + 1) * c.settings.roundWorkers ∧
      (terminated front).length = (passes front + 1) * c.settings.roundWorkers
  /-- After a failure or an interruption there are only requests to stop. -/
  only_stops : ∀ front request back, requests = front ++ request :: back →
    request.failed = true → ∀ later ∈ back, later.IsStop

variable {c : Campaign}

/-- In a number of rounds each one launches its workers. -/
theorem length_flatMap_roundSpecs (c : Campaign) (first count : Nat) :
    ((List.range' first count).flatMap c.roundSpecs).length = count * c.settings.roundWorkers := by
  simp [List.length_flatMap, roundSpecs]

/-- Those who run are of the round that the schedule is in. -/
theorem Underway.onDuty {front : List Request} {round : Nat} {team : List WorkerSpec}
    (h : c.Underway (deeds front) round team)
    (hlaunched : (launched front).map (·.1) <+: (deeds front).filterMap Deed.launch?) :
    ∀ entry ∈ onDuty front, entry.1 ∈ team := by
  intro entry hentry
  rw [h.launches] at hlaunched
  cases hfirst : launched front with
  | nil =>
    rw [Request.onDuty, hfirst] at hentry
    simp at hentry
  | cons monitor others =>
    rw [Request.onDuty, hfirst, List.tail_cons] at hentry
    rw [hfirst, List.map_cons, List.cons_prefix_cons] at hlaunched
    obtain ⟨-, rest, hrest⟩ := hlaunched
    have hmem : entry.1 ∈ (others.map (·.1)).drop (terminated front).length := by
      rw [← List.map_drop]
      exact List.mem_map_of_mem hentry
    have hbeyond : entry.1 ∈ (others.map (·.1) ++ rest).drop (terminated front).length := by
      rw [List.drop_append]
      exact List.mem_append_left _ hmem
    have hover : ((List.range' 1 (round - 1)).flatMap c.roundSpecs).length ≤
        (terminated front).length := by
      rw [length_flatMap_roundSpecs]
      exact h.finished
    rw [hrest, List.drop_append, List.drop_eq_nil_of_le hover, List.nil_append] at hbeyond
    exact List.mem_of_mem_drop hbeyond

/-- Whoever is on duty belongs to the round that is under way, or is the monitor. -/
theorem Underway.onDuty_belongsTo {front : List Request} {round : Nat} {team : List WorkerSpec}
    (h : c.Underway (deeds front) round team)
    (hlaunched : (launched front).map (·.1) <+: (deeds front).filterMap Deed.launch?) :
    ∀ entry ∈ Request.onDuty front, c.BelongsTo round entry.1 :=
  fun entry hentry => (h.team_works _ (h.onDuty hlaunched entry hentry)).belongsTo

/-! ## Following the schedule -/

section

variable {count : Nat} {records : List RoundRecord} {made : List Request}
  {result : Except CampaignError Unit}
  (hteams : c.FullTeams count records)
  (hfollows : Follows CampaignError.IsFault (c.openingDeeds ++ c.deedsFrom 1 records) result made)

include hfollows

/-- The deeds of a beginning are a beginning of the deeds. -/
theorem deeds_front {front : List Request} (h : front <+: made) :
    deeds front <+: c.openingDeeds ++ c.deedsFrom 1 records :=
  (h.filterMap deed?).trans hfollows.deeds_prefix

/-- Before the end no request failed. -/
theorem clean_of_split {front back : List Request} {request : Request}
    (h : made = front ++ request :: back) : ∀ earlier ∈ front, earlier.failed = false := by
  intro earlier hearlier
  refine hfollows.steady earlier ?_
  rw [h, List.dropLast_append_of_ne_nil (List.cons_ne_nil _ _)]
  exact List.mem_append_left _ hearlier

/-- Launches happen in the order in which they are planned. -/
theorem launched_front {front : List Request} (h : front <+: made) :
    (launched front).map (·.1) <+: (deeds front).filterMap Deed.launch? := by
  refine map_fst_launched_prefix ?_
  intro request hrequest
  obtain ⟨back, rfl⟩ := h
  cases back with
  | nil =>
    rw [List.append_nil] at hfollows
    exact hfollows.steady request hrequest
  | cons next back =>
    exact clean_of_split hfollows rfl request (List.dropLast_subset _ hrequest)

/-- What is asked for next is the next thing in the schedule. -/
theorem deeds_next {front back : List Request} {request : Request} {deed : Deed}
    (h : made = front ++ request :: back) (hdeed : request.deed? = some deed) :
    deeds front ++ [deed] <+: c.openingDeeds ++ c.deedsFrom 1 records := by
  have hfront : front ++ [request] <+: made := ⟨back, by rw [h, List.append_assoc]; rfl⟩
  have hprefix := deeds_front hfollows hfront
  have hlast : deeds [request] = [deed] := by
    rw [deeds, List.filterMap_cons_some hdeed, List.filterMap_nil]
  rwa [deeds_append, hlast] at hprefix

include hteams

/-- As long as the schedule is followed, those who run are of the same round. -/
theorem one_round_front {front : List Request} (h : front <+: made) :
    ∃ round, ∀ entry ∈ Request.onDuty front, c.BelongsTo round entry.1 := by
  have hlaunched := launched_front hfollows h
  rcases underway_of_prefix hteams (deeds_front hfollows h) with hnil | ⟨round, team, hteam⟩
  · refine ⟨1, ?_⟩
    rw [Request.onDuty, launched_eq_nil hnil]
    simp
  · exact ⟨round, hteam.onDuty_belongsTo hlaunched⟩

/-- Not more workers are stopped than were launched after the monitor. -/
theorem length_terminated_le {front back : List Request} {request : Request}
    (h : made = front ++ request :: back) :
    (terminated front).length ≤ (launched front).tail.length := by
  have hclean := clean_of_split hfollows h
  rcases underway_of_prefix hteams (deeds_front hfollows ⟨_, h.symm⟩) with
    hnil | ⟨round, team, hteam⟩
  · rw [terminated, hnil]
    exact Nat.zero_le _
  · have hlength := congrArg List.length ((map_fst_launched hclean).trans hteam.launches)
    rw [List.length_map, List.length_cons, List.length_append, length_flatMap_roundSpecs] at hlength
    have hstops := hteam.stops_le
    rw [← terminated] at hstops
    rw [List.length_tail]
    omega

/-- What a launch finds. -/
theorem launch_alone_of_split {front back : List Request} {spec : WorkerSpec}
    {answer : Except WorkerError Worker} (h : made = front ++ .launch spec answer :: back) :
    spec = c.settings.fleet.monitor ∧ launched front = [] ∨
      ∃ round, c.BelongsTo round spec ∧
        (round - 1) * c.settings.roundWorkers ≤ (terminated front).length ∧
        ∀ entry ∈ Request.onDuty front, c.BelongsTo round entry.1 := by
  rcases underway_of_launch hteams (deeds_next hfollows h rfl) with
    ⟨hnil, hspec⟩ | ⟨round, team, hteam, hworks⟩
  · exact Or.inl ⟨hspec, launched_eq_nil hnil⟩
  · refine Or.inr ⟨round, hworks.belongsTo, hteam.finished, ?_⟩
    exact hteam.onDuty_belongsTo (launched_front hfollows ⟨_, h.symm⟩)

/-- What a profiling pass finds. -/
theorem profile_alone_of_split {front back : List Request} {seeds : List Path}
    {answer : Except ProfileError ProfileOutput}
    (h : made = front ++ .profile seeds answer :: back) :
    Request.onDuty front = [] ∧
      (launched front).length = 1 + (passes front + 1) * c.settings.roundWorkers ∧
      (terminated front).length = (passes front + 1) * c.settings.roundWorkers := by
  have hunderway := underway_of_profile hteams (deeds_next hfollows h rfl)
  have hclean := clean_of_split hfollows h
  have hlength := congrArg List.length ((map_fst_launched hclean).trans hunderway.launches)
  rw [List.length_map, List.length_cons, List.append_nil, length_flatMap_roundSpecs] at hlength
  refine ⟨?_, ?_, ?_⟩
  · rw [List.eq_nil_iff_forall_not_mem]
    intro entry hentry
    have hnone := hunderway.onDuty (launched_front hfollows ⟨_, h.symm⟩) entry hentry
    cases hnone
  · rw [hlength, Nat.add_comm]
    rfl
  · exact Nat.le_antisymm hunderway.stops_le hunderway.finished

end

/-! ## Whole campaigns -/

/-- A request that stops nobody was made before the clean-up. -/
theorem split_made {made tidied front back : List Request} {request : Request}
    (h : made ++ tidied = front ++ request :: back) (hrequest : request ∉ tidied) :
    ∃ rest, made = front ++ request :: rest ∧ back = rest ++ tidied := by
  rcases List.append_eq_append_iff.1 h with ⟨middle, rfl, htidied⟩ | ⟨middle, rfl, hback⟩
  · exact absurd (by rw [htidied]; simp) hrequest
  · cases middle with
    | nil => exact absurd (by rw [← List.nil_append tidied, ← hback]; simp) hrequest
    | cons first rest =>
      obtain ⟨rfl, rfl⟩ := List.cons_eq_cons.1 hback
      exact ⟨rest, rfl, rfl⟩

section

variable {made tidied : List Request} {monitor : Option Worker} {running : List Worker}
  (hworkers : (launched made).map (·.2) = monitor.toList ++ (terminated made ++ running))
  (hunattended : monitor = none → launched made = [])

include hworkers hunattended

/-- The workers of rounds that were launched are those that were stopped and those that
still run. -/
theorem tail_launched : (launched made).tail.map (·.2) = terminated made ++ running := by
  cases monitor with
  | none =>
    rw [hunattended rfl] at hworkers ⊢
    exact hworkers
  | some worker =>
    rw [List.map_tail, hworkers]
    rfl

variable (hdismisses : Dismisses tidied (running ++ monitor.toList))

include hdismisses

/-- In the end nobody was launched, or all who were are terminated, the monitor as the last. -/
theorem stopped_of_dismisses {count : Nat} {records : List RoundRecord}
    {result : Except CampaignError Unit} (hfollows : Follows CampaignError.IsFault
      (c.openingDeeds ++ c.deedsFrom count records) result made) :
    launched (made ++ tidied) = [] ∧ terminated (made ++ tidied) = [] ∨
      ∃ monitor team, launched (made ++ tidied) = (c.settings.fleet.monitor, monitor) :: team ∧
        terminated (made ++ tidied) = team.map (·.2) ++ [monitor] ∧
        ∃ front answer, made ++ tidied = front ++ [.terminate monitor answer] := by
  have htail := tail_launched hworkers hunattended
  rw [launched_append, terminated_append, hdismisses.launched_eq, hdismisses.terminated_eq,
    List.append_nil]
  cases monitor with
  | none =>
    rw [hunattended rfl] at htail ⊢
    refine Or.inl ⟨rfl, ?_⟩
    rw [Option.toList_none, List.append_nil, ← htail]
    rfl
  | some worker =>
    obtain ⟨front, answer, rfl⟩ := hdismisses.exists_last
    cases hlaunched : launched made with
    | nil =>
      rw [hlaunched] at hworkers
      cases hworkers
    | cons first team =>
      rw [hlaunched] at hworkers htail
      have hspec := hfollows.launched_prefix
      rw [hlaunched, List.map_cons] at hspec
      obtain ⟨hmonitor, -⟩ := List.cons_prefix_cons.1 hspec
      obtain ⟨hworker, -⟩ := List.cons_eq_cons.1 hworkers
      refine Or.inr ⟨worker, team, ?_, ?_, made ++ front, answer, (List.append_assoc _ _ _).symm⟩
      · exact congrArg (· :: team) (Prod.ext hmonitor hworker)
      · rw [Option.toList_some, ← List.append_assoc, ← htail, List.tail_cons]

/-- Before the end the workers are terminated in the order in which they were launched. -/
theorem in_turn_of_dismisses {count : Nat} {records : List RoundRecord}
    {result : Except CampaignError Unit} (hteams : c.FullTeams count records)
    (hfollows : Follows CampaignError.IsFault (c.openingDeeds ++ c.deedsFrom 1 records) result made)
    {front back : List Request} (h : made ++ tidied = front ++ back) (hback : back ≠ []) :
    terminated front <+: (launched front).tail.map (·.2) := by
  have htail := tail_launched hworkers hunattended
  rcases List.append_eq_append_iff.1 h with ⟨middle, rfl, rfl⟩ | ⟨middle, rfl, -⟩
  · obtain ⟨earlier, later, heq, hmiddle, hlater⟩ := hdismisses.exists_append
    rw [launched_append, terminated_append, hmiddle.launched_eq, hmiddle.terminated_eq,
      List.append_nil, htail, List.prefix_append_right_inj]
    refine List.prefix_of_prefix_length_le ⟨later, heq.symm⟩ (List.prefix_append _ _) ?_
    have hlength := congrArg List.length heq
    rw [List.length_append, List.length_append, ← List.Forall₂.length_eq hlater] at hlength
    have hone : monitor.toList.length ≤ 1 := by cases monitor <;> simp
    have hsome := List.length_pos_iff.2 hback
    omega
  · cases middle with
    | nil =>
      rw [List.append_nil] at htail
      rw [htail]
      exact List.prefix_append _ _
    | cons request rest =>
      have hlength := length_terminated_le hteams hfollows rfl
      have hstopped : terminated front <+: terminated (front ++ request :: rest) ++ running := by
        rw [terminated_append, List.append_assoc]
        exact List.prefix_append _ _
      have hlaunched : (launched front).tail.map (·.2) <+:
          terminated (front ++ request :: rest) ++ running := by
        rw [← htail, launched_append]
        refine List.IsPrefix.map _ ?_
        cases launched front with
        | nil => exact List.nil_prefix
        | cons first others => exact List.prefix_append _ _
      exact List.prefix_of_prefix_length_le hstopped hlaunched (by rwa [List.length_map])

end

/-- Stopping workers leaves only those running that ran before. -/
theorem onDuty_subset {made middle : List Request} {workers : List Worker}
    (h : Dismisses middle workers) : onDuty (made ++ middle) ⊆ onDuty made := by
  intro entry hentry
  rw [onDuty, launched_append, terminated_append, h.launched_eq, List.append_nil,
    List.length_append, ← List.drop_drop] at hentry
  exact List.mem_of_mem_drop hentry

section

variable {made tidied front back : List Request} {workers : List Worker}
  (hdismisses : Dismisses tidied workers) {count : Nat} {records : List RoundRecord}
  {result : Except CampaignError Unit}
  (hfollows : Follows CampaignError.IsFault (c.openingDeeds ++ c.deedsFrom 1 records) result made)

include hdismisses hfollows

/-- At any time the workers on duty belong to one round. -/
theorem one_round_of_dismisses (hteams : c.FullTeams count records)
    (h : made ++ tidied = front ++ back) :
    ∃ round, ∀ entry ∈ onDuty front, c.BelongsTo round entry.1 := by
  rcases List.append_eq_append_iff.1 h with ⟨middle, rfl, rfl⟩ | ⟨middle, rfl, -⟩
  · obtain ⟨round, hround⟩ := one_round_front hteams hfollows List.prefix_rfl
    obtain ⟨_, _, -, hmiddle, -⟩ := hdismisses.exists_append
    exact ⟨round, fun entry hentry => hround entry (onDuty_subset hmiddle hentry)⟩
  · exact one_round_front hteams hfollows (List.prefix_append _ _)

/-- A request that failed was the last one before the clean-up. -/
theorem only_stops_of_dismisses {request : Request} (h : made ++ tidied = front ++ request :: back)
    (hfailed : request.failed = true) : ∀ later ∈ back, later.IsStop := by
  obtain ⟨rest, hrest, rfl⟩ := split_made h fun hmem => by
    rw [hdismisses.clean request hmem] at hfailed
    cases hfailed
  cases rest with
  | nil => exact hdismisses.isStop
  | cons next rest =>
    have hsplit : made = (front ++ [request]) ++ next :: rest := by
      rw [hrest, List.append_assoc]
      rfl
    rw [clean_of_split hfollows hsplit request (by simp)] at hfailed
    cases hfailed

end

/-- The requests of every campaign are in order, and after whatever ended its drive there
are only requests to stop. -/
theorem orderly_transcript {σ : Type} (c : Campaign) (crew : Crew σ) (world : σ) :
    c.Orderly (c.transcript crew world) ∧
      ∃ tidied, c.transcript crew world =
        (c.drive crew.noted (c.start ⟨world, []⟩)).2.requests ++ tidied ∧
        ∀ later ∈ tidied, later.IsStop := by
  obtain ⟨records, hteams, hperforms, -⟩ := c.performs_drive crew world
  obtain ⟨made, tidied, hmade, htranscript, hfollows, hdismisses⟩ :=
    c.exists_followed crew hperforms
  have hroster := c.roster_drive crew world
  have hworkers := hroster.workers
  have hunattended := hroster.unattended
  rw [hmade] at hworkers hunattended
  have hstops := hdismisses.isStop
  rw [htranscript, hmade]
  refine ⟨⟨?_, ?_, ?_, ?_, ?_, ?_⟩, tidied, rfl, hstops⟩
  · exact stopped_of_dismisses hworkers hunattended hdismisses hfollows
  · intro front back hsplit hback
    exact in_turn_of_dismisses hworkers hunattended hdismisses hteams hfollows hsplit hback
  · intro front back hsplit
    exact one_round_of_dismisses hdismisses hfollows hteams hsplit
  · intro front spec answer back hsplit
    obtain ⟨rest, hrest, -⟩ := split_made hsplit fun hmem => not_isStop_launch (hstops _ hmem)
    exact launch_alone_of_split hteams hfollows hrest
  · intro front seeds answer back hsplit
    obtain ⟨rest, hrest, -⟩ := split_made hsplit fun hmem => not_isStop_profile (hstops _ hmem)
    exact profile_alone_of_split hteams hfollows hrest
  · intro front request back hsplit hfailed
    exact only_stops_of_dismisses hdismisses hfollows hsplit hfailed

end Campaign

end FuzzCampaign

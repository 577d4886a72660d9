import FuzzCampaign.Proofs.Campaign.Outcome
import FuzzCampaign.Proofs.Campaign.Roster
import FuzzCampaign.Proofs.Campaign.Timetable
import FuzzCampaign.Rehearsal.Script

/-!
# How a campaign is conducted

A campaign in which no request fails follows its schedule from beginning to end: it
stops in every round those workers that it launched in it, in the same order, and
reports all its rounds and workers.  The one thing that can still keep it from doing so
is a corpus without seeds; then it asks for nothing but work on files.

A campaign that ends with an error followed its schedule as far as it came, and then
stopped who was still running.

All this holds of campaigns whose rounds can be counted in 32 bits, up to the one behind the
last.  There is one length for which they cannot, though it is accepted and the number of
rounds itself has 32 bits.

Main definitions:

- `FileSystem.Seedless`: there are no seeds to import.
- `Campaign.Completed` and `Campaign.BrokenOff`: the two ways in which a campaign ends.

Main results:

- `importCorpus_eq_emptyCorpus_iff`: an import fails for want of seeds if there are none.
- `completed_or_brokenOff`: every campaign whose graph can be built ends in one of two ways.
- `incomplete_brief`: campaigns of which this is not true.
-/

namespace FuzzCampaign

open FuzzCampaign.Action

/-! ## Seeds to import -/

/-- There are no seeds to import: the corpus is no directory, or once the target is created
nothing that the corpus lists is a regular file. -/
def FileSystem.Seedless {σ : Type} (files : FileSystem σ) (source target : Path) (w : σ) : Prop :=
  files.isDirectory source w = false ∨ ∃ u w' names w'',
    files.createDirectories target w = (.ok u, w') ∧
    files.entryNames source w' = (.ok names, w'') ∧
    ∀ name ∈ names, files.isFile (source.join name) w'' = false

section

variable {σ : Type} {files : FileSystem σ} {source target : Path} {w : σ}

/-- Copying files does not fail for want of seeds. -/
theorem copyAll_ne_emptyCorpus (pairs : List (String × String)) {corpus : Path} :
    (copyAll files source target pairs w).1 ≠ .error (.emptyCorpus corpus) := by
  induction pairs generalizing w with
  | nil => exact fun h => nomatch h
  | cons pair rest ih =>
    intro h
    rcases bind_fst_eq_error h with h | ⟨u, w', -, h⟩
    · obtain ⟨fault, -, heq⟩ := orFail_fst_eq_error h
      cases heq
    · exact ih h

/-- Nothing is left of a sorted listing when nothing in it is a regular file. -/
theorem isEmpty_sorted_filter_iff {names : List String} {isFile : String → Bool} :
    ((names.filter isFile).mergeSort fun a b => decide (a ≤ b)).isEmpty = true ↔
      ∀ name ∈ names, isFile name = false := by
  rw [List.isEmpty_iff, ← List.length_eq_zero_iff, List.length_mergeSort, List.length_eq_zero_iff,
    List.filter_eq_nil_iff]
  simp

/-- The listed regular files, sorted by name. -/
theorem sortedFileNames_eq_ok_iff {names : List String} {w' : σ} :
    sortedFileNames files source w = (.ok names, w') ↔ ∃ listed,
      files.entryNames source w = (.ok listed, w') ∧
      names = (listed.filter fun name => files.isFile (source.join name) w').mergeSort
        fun a b => decide (a ≤ b) := by
  constructor
  · intro h
    obtain ⟨listed, w'', hlist, h⟩ := bind_eq_ok h
    cases h
    exact ⟨listed, hlist, rfl⟩
  · rintro ⟨listed, hlist, rfl⟩
    rw [sortedFileNames, bind_of_ok_apply hlist]
    rfl

/-- An import from a directory fails for want of seeds only when the directory lists none. -/
theorem seedless_of_importCorpus {corpus : Path} (hdir : files.isDirectory source w = true)
    (h : (importCorpus files source target w).1 = .error (.emptyCorpus corpus)) :
    source = corpus ∧ files.Seedless source target w := by
  have hobserve : (Action.observe (files.isDirectory source) : Action σ StagingError Bool) w =
      (.ok true, w) := congrArg (fun answer => (Except.ok answer, w)) hdir
  rw [importCorpus, bind_of_ok_apply hobserve, if_pos rfl] at h
  rcases bind_fst_eq_error h with h | ⟨u, w', hcreate, h⟩
  · obtain ⟨fault, -, heq⟩ := orFail_fst_eq_error h
    cases heq
  rcases bind_fst_eq_error h with h | ⟨names, w'', hnames, h⟩
  · obtain ⟨fault, -, heq⟩ := orFail_fst_eq_error h
    cases heq
  obtain ⟨listed, hlist, rfl⟩ := sortedFileNames_eq_ok_iff.1 (orFail_eq_ok.1 hnames)
  split at h
  · next hempty =>
    cases h
    exact ⟨rfl, .inr ⟨u, w', listed, w'', orFail_eq_ok.1 hcreate, hlist,
      isEmpty_sorted_filter_iff.1 hempty⟩⟩
  · rcases bind_fst_eq_error h with h | ⟨u', w₃, -, h⟩
    · exact absurd h (copyAll_ne_emptyCorpus _)
    · cases h

/-- An import fails for want of seeds exactly when there are none. -/
theorem importCorpus_eq_emptyCorpus_iff {corpus : Path} :
    (importCorpus files source target w).1 = .error (.emptyCorpus corpus) ↔
      source = corpus ∧ files.Seedless source target w := by
  have hobserve : (Action.observe (files.isDirectory source) : Action σ StagingError Bool) w =
      (.ok (files.isDirectory source w), w) := rfl
  cases hdir : files.isDirectory source w with
  | false =>
    have hthrow : importCorpus files source target w = (.error (.emptyCorpus source), w) := by
      rw [importCorpus, bind_of_ok_apply hobserve, hdir]
      rfl
    have hseedless : files.Seedless source target w := .inl hdir
    simp [hthrow, hseedless]
  | true =>
    refine ⟨seedless_of_importCorpus hdir, ?_⟩
    rintro ⟨rfl, hnot | ⟨u, w', listed, w'', hcreate, hlist, hnone⟩⟩
    · rw [hdir] at hnot
      cases hnot
    · have hnames := sortedFileNames_eq_ok_iff.2 ⟨listed, hlist, rfl⟩
      rw [importCorpus, bind_of_ok_apply hobserve, hdir, if_pos rfl,
        bind_of_ok_apply (orFail_eq_ok.2 hcreate), bind_of_ok_apply (orFail_eq_ok.2 hnames),
        if_pos (isEmpty_sorted_filter_iff.2 hnone)]
      rfl

end

/-! ## The two ways to end -/

namespace Campaign

open Progress

variable {σ : Type} (c : Campaign) (crew : Crew σ) (world : σ)

/-- A campaign followed its schedule to the end. -/
structure Completed (records : List RoundRecord) : Prop where
  /-- Everything was asked for in its order, and each round stopped in the order of their
  launch the workers that it launched. -/
  deeds_eq : ∃ monitor, Request.deeds (c.transcript crew world) = c.schedule monitor records ∧
    (Request.launched (c.transcript crew world)).map (·.2) =
      monitor :: records.flatMap RoundRecord.team
  /-- Every pass profiled seeds that it may take. -/
  picks : c.PicksAll crew [] 1 records
  summary : ∃ summary, (c.run crew world).1 = .ok summary ∧
    summary.roundsRun = 1 + c.exploitationRounds ∧
    summary.exploitationRounds = c.exploitationRounds ∧
    summary.workersLaunched =
      1 + (1 + c.exploitationRounds) * (c.settings.campaign.workerCount - 1)

/-- A campaign followed its schedule up to the step that failed, and stopped who was
still running. -/
def BrokenOff (records : List RoundRecord) (error : CampaignError) : Prop :=
  ∃ made tidied, c.transcript crew world = made ++ tidied ∧
    Request.deeds made <+: c.openingDeeds ++ c.deedsFrom 1 records ∧
    (∀ request ∈ made.dropLast, request.failed = false) ∧
    ((∃ request, made.getLast? = some request ∧ request.failed = true) ∨
      error = .staging (.emptyCorpus c.settings.campaign.seedCorpus) ∧ Request.deeds made = []) ∧
    ∀ request ∈ tidied, ∃ worker answer, request = .terminate worker answer

/-- Once its directories are there, a campaign has no seeds to import. -/
def Seedless : Prop := ∃ w, c.settings.layout.create crew.files world = (.ok (), w) ∧
  crew.files.Seedless c.settings.campaign.seedCorpus c.settings.layout.seedsOrigin w

variable {c crew world}

/-- Preparing a campaign fails for want of seeds exactly when there are none. -/
theorem prepare_eq_emptyCorpus_iff :
    (c.prepare crew (c.start world)).1 =
      .error (.staging (.emptyCorpus c.settings.campaign.seedCorpus)) ↔ c.Seedless crew world := by
  have hprune : c.prune (c.start world) = (.ok (), (c.prune (c.start world)).2) := rfl
  have hworld : (c.prune (c.start world)).2.world = world := rfl
  rw [prepare, bind_of_ok_apply hprune]
  constructor
  · intro h
    rcases bind_fst_eq_error h with h | ⟨u, p, hcreate, h⟩
    · obtain ⟨fault, -, heq⟩ := orFail_fst_eq_error h
      cases heq
    rcases bind_fst_eq_error h with h | ⟨count, p', -, h⟩
    · obtain ⟨error, himport, heq⟩ := orFail_fst_eq_error h
      cases heq
      obtain ⟨w, hcreated, rfl⟩ := orFail_onWorld_ok hcreate
      rw [onWorld_apply] at himport
      exact ⟨w, hcreated, (importCorpus_eq_emptyCorpus_iff.1 himport).2⟩
    · cases h
  · rintro ⟨w, hcreate, hseedless⟩
    have hcreated : onWorld (c.settings.layout.create crew.files) (c.prune (c.start world)).2 =
        (.ok (), { (c.prune (c.start world)).2 with world := w }) := by
      rw [onWorld_apply, hworld, hcreate]
    rw [bind_of_ok_apply (orFail_eq_ok.2 hcreated), bind_apply, orFail_apply, onWorld_apply,
      importCorpus_eq_emptyCorpus_iff.2 ⟨rfl, hseedless⟩]
    rfl

/-- Notes make no difference to whether there are seeds to import. -/
theorem seedless_iff : c.Seedless crew world ↔ (c.prepare crew.noted (c.start ⟨world, []⟩)).1 =
    .error (.staging (.emptyCorpus c.settings.campaign.seedCorpus)) := by
  have hmirrors := c.mirrors_prepare crew (c.start ⟨world, []⟩)
  have hstart : (c.start ⟨world, []⟩ : Progress (Noted σ)).unnoted = c.start world := rfl
  rw [Mirrors, hstart] at hmirrors
  rw [← prepare_eq_emptyCorpus_iff, hmirrors]

/-- The outcome of a campaign is that of its drive. -/
theorem run_fst : (c.run crew world).1 =
    (c.drive crew.noted (c.start ⟨world, []⟩)).1.map fun _ =>
      c.summary (((c.drive crew.noted (c.start ⟨world, []⟩)).2.stopRoundWorkers
        crew.noted).stopMonitor crew.noted) := by
  rw [c.mirrors_run crew world, notedRun, run_apply]

/-- A corpus without seeds ends a campaign before anything else was asked for. -/
theorem quiet_of_emptyCorpus {e : CampaignError} {p : Progress (Noted σ)}
    (hprepare : c.prepare crew.noted (c.start ⟨world, []⟩) = (.error e, p)) :
    Request.deeds p.requests = [] ∧ p.roundWorkers = [] ∧ p.monitor = none := by
  obtain ⟨asked, hrequests, hfollows⟩ := c.performs_prepare crew (c.start ⟨world, []⟩)
  have hstanding := (c.keeps_prepare crew.noted _ inward_standing.world (c.keeps_prune _)).apply_eq
    hprepare
  have hasked : p.requests = asked := by
    rw [hprepare] at hrequests
    exact hrequests
  refine ⟨?_, congrArg Standing.roundWorkers hstanding, congrArg Standing.monitor hstanding⟩
  rw [hasked]
  exact List.prefix_nil.1 hfollows.deeds_prefix

/-- In a campaign that comes to the end of its rounds everything was done in time. -/
theorem completed_of_drive {records : List RoundRecord}
    (hteams : c.FullTeams (1 + c.exploitationRounds) records)
    (hperforms : CarriesOut (c.openingDeeds ++ c.deedsFrom 1 records) (c.drive crew.noted)
      (c.start ⟨world, []⟩)) {u : Unit} {p : Progress (Noted σ)}
    (hdrive : c.drive crew.noted (c.start ⟨world, []⟩) = (.ok u, p))
    (hpicks : c.PicksAll crew [] 1 records) (hrounds : p.roundsRun = 1 + c.exploitationRounds)
    (hidle : p.roundWorkers = []) {monitor : Worker} (hmonitor : p.monitor = some monitor) :
    c.Completed crew world records := by
  have hroster := c.roster_drive crew world
  obtain ⟨made, tidied, hmade, htranscript, hfollows, hdismisses⟩ :=
    c.exists_followed crew hperforms
  rw [hdrive] at hroster hmade hdismisses hfollows
  obtain ⟨-, hdeeds⟩ := hfollows.done u rfl
  have hstopped : Request.terminated made = records.flatMap RoundRecord.team := by
    rw [Request.terminated, hdeeds, List.filterMap_append, stops_deedsFrom]
    rfl
  have hlaunched : (Request.launched made).map (·.2) =
      monitor :: records.flatMap RoundRecord.team := by
    have hworkers := hroster.workers
    rw [hmade, hmonitor, hidle, List.append_nil, hstopped] at hworkers
    exact hworkers
  have hcount :
      p.workersLaunched = 1 + (1 + c.exploitationRounds) * c.settings.roundWorkers := by
    rw [hroster.count, hmade, ← List.length_map (·.2), hlaunched, List.length_cons,
      hteams.length_flatMap, Nat.add_comm]
  rw [hidle, hmonitor, Option.toList_some, List.nil_append] at hdismisses
  refine ⟨⟨monitor, ?_, ?_⟩, hpicks, ?_⟩
  · rw [htranscript, Request.deeds_append, hdeeds, hdismisses.deeds_eq]
    rfl
  · rw [htranscript, Request.launched_append, hdismisses.launched_eq, List.append_nil, hlaunched]
  · refine ⟨_, by rw [run_fst, hdrive]; rfl, ?_, rfl, ?_⟩
    · refine Eq.trans ?_ hrounds
      exact view_stopAll crew.noted p inward_roundsRun.discreet (fun _ => rfl) fun _ => rfl
    · refine Eq.trans ?_ hcount
      exact view_stopAll crew.noted p inward_workersLaunched.discreet (fun _ => rfl) fun _ => rfl

/-- Where only the last request can fail and one does, it is the last one. -/
theorem getLast?_of_failed {requests : List Request}
    (hsteady : ∀ request ∈ requests.dropLast, request.failed = false)
    (hfailed : ∃ request ∈ requests, request.failed = true) :
    ∃ request, requests.getLast? = some request ∧ request.failed = true := by
  obtain ⟨request, hrequest, hfailed⟩ := hfailed
  have hne : requests ≠ [] := List.ne_nil_of_mem hrequest
  rw [← List.dropLast_append_getLast hne, List.mem_append, List.mem_singleton] at hrequest
  rcases hrequest with hearlier | rfl
  · rw [hsteady request hearlier] at hfailed
    cases hfailed
  · exact ⟨_, List.getLast?_eq_some_getLast hne, hfailed⟩

/-- A campaign that ends with an error went as scheduled up to the step that failed. -/
theorem brokenOff_of_drive (h : c.inputs.graph.Built) {records : List RoundRecord}
    (hperforms : CarriesOut (c.openingDeeds ++ c.deedsFrom 1 records) (c.drive crew.noted)
      (c.start ⟨world, []⟩)) {e : CampaignError} {p : Progress (Noted σ)}
    (hdrive : c.drive crew.noted (c.start ⟨world, []⟩) = (.error e, p)) :
    c.BrokenOff crew world records e := by
  obtain ⟨made, tidied, hmade, htranscript, hfollows, hdismisses⟩ :=
    c.exists_followed crew hperforms
  rw [hdrive] at hmade hfollows
  refine ⟨made, tidied, htranscript, hfollows.deeds_prefix, hfollows.steady, ?_,
    fun request => hdismisses.exists_eq⟩
  rcases c.drive_error crew h hdrive with hfault | ⟨hempty, hprepare⟩
  · exact Or.inl (getLast?_of_failed hfollows.steady ((hfollows.blame e rfl).1 hfault))
  · rw [← hmade]
    exact Or.inr ⟨hempty, (quiet_of_emptyCorpus hprepare).1⟩

/-- Where no request fails, only a corpus without seeds can end a campaign with an error. -/
theorem emptyCorpus_of_clean (h : c.inputs.graph.Built) {plan : List Deed}
    (hperforms : CarriesOut plan (c.drive crew.noted) (c.start ⟨world, []⟩))
    (hclean : ∀ request ∈ c.transcript crew world, request.failed = false) {e : CampaignError}
    {p : Progress (Noted σ)} (hdrive : c.drive crew.noted (c.start ⟨world, []⟩) = (.error e, p)) :
    c.Seedless crew world ∧
      (c.run crew world).1 = .error (.staging (.emptyCorpus c.settings.campaign.seedCorpus)) ∧
      Request.deeds (c.transcript crew world) = [] := by
  obtain ⟨made, tidied, hmade, htranscript, hfollows, hdismisses⟩ :=
    c.exists_followed crew hperforms
  rw [hdrive] at hmade hfollows hdismisses
  rcases c.drive_error crew h hdrive with hfault | ⟨rfl, hprepare⟩
  · obtain ⟨request, hrequest, hfailed⟩ := (hfollows.blame e rfl).1 hfault
    rw [hclean request (htranscript ▸ List.mem_append_left _ hrequest)] at hfailed
    cases hfailed
  · obtain ⟨hquiet, hidle, hmonitor⟩ := quiet_of_emptyCorpus hprepare
    rw [hidle, hmonitor] at hdismisses
    refine ⟨seedless_iff.2 (congrArg Prod.fst hprepare), by rw [run_fst, hdrive]; rfl, ?_⟩
    rw [htranscript, Request.deeds_append, ← hmade, hquiet, hdismisses.deeds_eq]
    rfl

/-- A campaign that comes to the end of its rounds had seeds. -/
theorem not_seedless_of_drive {u : Unit} {p : Progress (Noted σ)}
    (hdrive : c.drive crew.noted (c.start ⟨world, []⟩) = (.ok u, p)) :
    ¬ c.Seedless crew world := by
  rw [drive_apply] at hdrive
  obtain ⟨_, _, hprepare, -⟩ := bind_eq_ok hdrive
  rw [seedless_iff, hprepare]
  exact fun h => by cases h

/-- As long as 32 bits count the rounds up to the one behind the last, a campaign in which no
request fails, and which has seeds, goes as scheduled; if it has none, it asks for nothing but
work on files.  A campaign that ends with an error went as scheduled up to the step that
failed. -/
theorem completed_or_brokenOff (h : c.inputs.graph.Built)
    (hfits : c.exploitationRounds + 2 < 4294967296) (crew : Crew σ) (world : σ) :
    ∃ records, c.FullTeams (1 + c.exploitationRounds) records ∧
      ((∀ request ∈ c.transcript crew world, request.failed = false) →
        (¬ c.Seedless crew world → c.Completed crew world records) ∧
        (c.Seedless crew world →
          (c.run crew world).1 = .error (.staging (.emptyCorpus c.settings.campaign.seedCorpus)) ∧
            Request.deeds (c.transcript crew world) = [])) ∧
      ∀ e, (c.run crew world).1 = .error e → c.BrokenOff crew world records e := by
  obtain ⟨records, hteams, hperforms, hover⟩ := c.performs_drive crew world
  rw [c.toNat_totalRounds_of_lt (by omega)] at hteams hover
  refine ⟨records, hteams, ?_, ?_⟩
  · intro hclean
    cases hdrive : c.drive crew.noted (c.start ⟨world, []⟩) with
    | mk result p =>
      cases result with
      | ok u =>
        obtain ⟨hpicks, hrounds, hidle, monitor, hmonitor⟩ := hover u p hdrive
        exact ⟨fun _ => completed_of_drive hteams hperforms hdrive hpicks hrounds hidle hmonitor,
          fun hnone => absurd hnone (not_seedless_of_drive hdrive)⟩
      | error e =>
        obtain ⟨hnone, hempty⟩ := emptyCorpus_of_clean h hperforms hclean hdrive
        exact ⟨fun hseeds => absurd hnone hseeds, fun _ => hempty⟩
  · intro e he
    cases hdrive : c.drive crew.noted (c.start ⟨world, []⟩) with
    | mk result p =>
      rw [run_fst, hdrive] at he
      cases result with
      | ok u => cases he
      | error e' =>
        cases he
        exact brokenOff_of_drive h hperforms hdrive

/-! ## A brief campaign -/

/-- A crew that does whatever it is asked for.  Every directory has one seed. -/
def willing : Crew Unit where
  files :=
    { isDirectory := fun _ _ => true
      isFile := fun _ _ => true
      isPresent := fun _ _ => false
      entryNames := fun _ w => (.ok ["seed"], w)
      createDirectories := fun _ w => (.ok (), w)
      copy := fun _ _ w => (.ok (), w)
      move := fun _ _ w => (.ok (), w)
      writeText := fun _ _ w => (.ok (), w)
      readText := fun _ w => (.ok "", w) }
  launch := fun spec w => (.ok ⟨spec.name, 1⟩, w)
  terminate := fun _ w => (.ok (), w)
  pause := fun _ w => (true, w)
  profile := fun _ w => (.ok {}, w)

/-- A campaign of two rounds with two workers each, on a graph of one function. -/
def brief : Campaign where
  settings :=
    { campaign :=
        { outDir := ⟨"out"⟩, seedCorpus := ⟨"corpus"⟩, workerCount := 3
          totalSeconds := 2, scanningSeconds := 1, exploitationSeconds := 1 }
      inputs := ⟨⟨"graph.dot"⟩, ⟨"sources.txt"⟩, ⟨"blocks.txt"⟩⟩
      fuzzer := { genericBinary := ⟨"generic"⟩, taskBinary := ⟨"task"⟩ }
      profiling :=
        { profilingBinary := ⟨"profiling"⟩, coverageBinary := ⟨"coverage"⟩
          coverageFolder := ⟨"folder"⟩ } }
  inputs :=
    { graph := .ofEntry (.named "main")
      sources := ⟨[("main", ⟨"main.c", "1"⟩)]⟩
      blocks := ⟨[("main", "main.c", 1)]⟩ }
  exploitationRounds := 1
  accepted := rfl

/-- A disk with an empty corpus. -/
def emptyDisk : FileTree := { entries := [(["corpus"], .directory)] }

/-- A rehearsal on a disk with a corpus of one seed. -/
def rehearsal : Rehearsal where
  files := emptyDisk.put ["corpus", "seed"] (.file {})
  passes := []

/-- A crew whose monitor finds a seed while it settles. -/
def attentive : Crew Rehearsal := Script.crew
  { cues := [{
      number := 1, add := [(brief.settings.layout.monitorQueue.join "id_1,+cov", some {})] }] }

/-- The brief campaign follows its schedule to the end in a rehearsal. -/
theorem completed_brief :
    (∀ request ∈ brief.transcript attentive rehearsal, request.failed = false) ∧
      ∃ records, brief.FullTeams 2 records ∧ brief.Completed attentive rehearsal records := by
  obtain ⟨hclean, hbusy⟩ :
      (∀ request ∈ brief.transcript attentive rehearsal, request.failed = false) ∧
        Request.deeds (brief.transcript attentive rehearsal) ≠ [] := by
    decide +kernel
  obtain ⟨records, hteams, hcompleted, -⟩ :=
    completed_or_brokenOff (c := brief) (.ofEntry _) (by decide) attentive rehearsal
  exact ⟨hclean, records, hteams,
    (hcompleted hclean).1 fun hnone => hbusy ((hcompleted hclean).2 hnone).2⟩

/-- The brief campaign, but as long as 32 bits can tell. -/
def unending : Campaign where
  settings :=
    { brief.settings with
      campaign := { brief.settings.campaign with totalSeconds := 4294967295 } }
  inputs := brief.inputs
  exploitationRounds := 4294967294
  accepted := by decide

/-- On a disk with an empty corpus no request fails, and yet the brief campaign is not conducted.
Nor does the longest campaign ever come to an end: its loop goes on for any number of turns,
and behind the last round the count starts over. -/
theorem incomplete_brief :
    ((∀ request ∈ brief.transcript attentive ⟨emptyDisk, [], 0⟩, request.failed = false) ∧
      ∀ records, ¬ brief.Completed attentive ⟨emptyDisk, [], 0⟩ records) ∧
    (∀ {σ : Type} (crew : Crew σ) (turns : Nat),
      unending.loop crew turns = unending.runRounds crew turns) ∧
    ∀ s : CampaignState, s.round = unending.totalRounds → s.advance.round = 0 := by
  have hlast : unending.totalRounds = 4294967295 := by decide
  have herror : (brief.run attentive ⟨emptyDisk, [], 0⟩).1.isOk = false := by decide +kernel
  refine ⟨⟨by decide +kernel, ?_⟩, ?_, ?_⟩
  · intro records h
    obtain ⟨summary, hok, -⟩ := h.summary
    rw [hok] at herror
    cases herror
  · intro σ crew turns
    exact loop_eq_runRounds_of_largest unending crew hlast turns
  · intro s hs
    exact s.round_advance_of_eq (hs.trans hlast)

end Campaign

end FuzzCampaign

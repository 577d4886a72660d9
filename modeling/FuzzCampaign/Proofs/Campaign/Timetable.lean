import FuzzCampaign.Proofs.Campaign.Schedule
import Std.Data.String.ToNat

/-!
# Where a schedule is at a time

A schedule that is followed up to some deed is in the middle of one of its rounds: the
rounds before it are over, the monitor and some workers of the round were launched, and
some of those, not more, were stopped.  The next launch is one of a worker of the same
round, and the next profiling pass comes between two rounds.

Main definitions:

- `Campaign.WorksIn` and `Campaign.BelongsTo`: who works in a round, and in no other.
- `Campaign.Underway`: a part of a schedule ends in a round.

Main results:

- `WorksIn.unique`: nobody works in two rounds.
- `underway_of_prefix`: wherever a schedule is cut, it is in one of its rounds.
- `underway_of_launch` and `underway_of_profile`: the rounds that launches and
  profiling passes belong to.
-/

namespace FuzzCampaign

/-- The seeds that are to be profiled. -/
def Deed.profile? : Deed → Option (List Path)
  | profile seeds => some seeds
  | _ => none

/-- Where a list that is put together can be cut before an entry. -/
theorem prefix_append_cases {α : Type} {front a b : List α} {x : α}
    (h : front ++ [x] <+: a ++ b) :
    front ++ [x] <+: a ∨ ∃ rest, front = a ++ rest ∧ rest ++ [x] <+: b := by
  rcases List.prefix_or_prefix_of_prefix h (List.prefix_append a b) with hfirst | hbeyond
  · exact Or.inl hfirst
  · rcases List.prefix_concat_iff.1 hbeyond with heq | ⟨rest, rfl⟩
    · exact Or.inl (heq ▸ List.prefix_rfl)
    · rw [List.append_assoc, List.prefix_append_right_inj] at h
      exact Or.inr ⟨rest, rfl, h⟩

namespace Campaign

variable {c : Campaign}

/-! ## Who works in which round -/

/-- What is needed to launch some worker of a round. -/
def WorksIn (c : Campaign) (round : Nat) (spec : WorkerSpec) : Prop :=
  1 ≤ round ∧ ∃ index, 1 ≤ index ∧ index ≤ c.settings.roundWorkers ∧
    spec = c.roundSpec round index

/-- Nobody works in two rounds, since no two workers share a number. -/
theorem WorksIn.unique {round other : Nat} {spec : WorkerSpec} (h : c.WorksIn round spec)
    (h' : c.WorksIn other spec) : round = other := by
  obtain ⟨hround, i, hi, hi', rfl⟩ := h
  obtain ⟨hother, j, hj, hj', hspec⟩ := h'
  have hname := congrArg WorkerSpec.name hspec
  rw [roundSpec, roundSpec, Fleet.name_roundWorker, Fleet.name_roundWorker, Fleet.nameOf,
    Fleet.nameOf, workerName, workerName, String.append_right_inj, Nat.toString_eq_repr,
    Nat.toString_eq_repr, Nat.repr_inj] at hname
  exact (workerNumber_injective ⟨hi, hi'⟩ ⟨hj, hj'⟩ hround hother hname).2

/-- What is needed to launch some worker of a round, and of no other. -/
def BelongsTo (c : Campaign) (round : Nat) (spec : WorkerSpec) : Prop :=
  ∀ other, c.WorksIn other spec ↔ other = round

/-- A worker of a round belongs to that round. -/
theorem WorksIn.belongsTo {round : Nat} {spec : WorkerSpec} (h : c.WorksIn round spec) :
    c.BelongsTo round spec :=
  fun _ => ⟨fun hother => hother.unique h, fun heq => heq ▸ h⟩

/-! ## Launches, stops and passes of a schedule -/

/-- What is needed to launch the workers of a round. -/
def roundSpecs (c : Campaign) (round : Nat) : List WorkerSpec :=
  (List.range' 1 c.settings.roundWorkers).map (c.roundSpec round)

/-- One worker is launched under its number. -/
theorem launches_launchDeeds (c : Campaign) (round index : Nat) :
    (c.launchDeeds round index).filterMap Deed.launch? = [c.roundSpec round index] := by
  rw [launchDeeds]
  split <;> rfl

/-- Launching a worker stops nobody. -/
theorem stops_launchDeeds (c : Campaign) (round index : Nat) :
    (c.launchDeeds round index).filterMap Deed.terminated? = [] := by
  rw [launchDeeds]
  split <;> rfl

/-- Launching a worker profiles nothing. -/
theorem passes_launchDeeds (c : Campaign) (round index : Nat) :
    (c.launchDeeds round index).filterMap Deed.profile? = [] := by
  rw [launchDeeds]
  split <;> rfl

/-- What a round asks for until all its workers run. -/
def enlistDeeds (c : Campaign) (round : Nat) (names : List String) : List Deed :=
  c.chartDeeds round names ++
    (List.range' 1 c.settings.roundWorkers).flatMap (c.launchDeeds round)

/-- What a round asks for once all its workers run. -/
def dismissDeeds (c : Campaign) (round : Nat) (team : List Worker) : List Deed :=
  .pause (c.settings.phaseMillis (phaseOf round)) :: team.map .terminate

/-- A round enlists its workers and dismisses them. -/
theorem roundDeeds_eq (c : Campaign) (round : Nat) (record : RoundRecord) :
    c.roundDeeds round record =
      c.enlistDeeds round record.names ++ c.dismissDeeds round record.team := by
  rw [roundDeeds, watchDeeds, enlistDeeds, dismissDeeds, List.append_assoc]

/-- A round launches its workers in the order of their numbers. -/
theorem launches_enlistDeeds (c : Campaign) (round : Nat) (names : List String) :
    (c.enlistDeeds round names).filterMap Deed.launch? = c.roundSpecs round := by
  have hchart : (c.chartDeeds round names).filterMap Deed.launch? = [] := by
    rw [chartDeeds]
    split <;> rfl
  rw [enlistDeeds, List.filterMap_append, hchart, List.filterMap_flatMap, List.nil_append,
    roundSpecs, List.map_eq_flatMap]
  simp only [launches_launchDeeds]

/-- Enlisting stops nobody. -/
theorem stops_enlistDeeds (c : Campaign) (round : Nat) (names : List String) :
    (c.enlistDeeds round names).filterMap Deed.terminated? = [] := by
  have hchart : (c.chartDeeds round names).filterMap Deed.terminated? = [] := by
    rw [chartDeeds]
    split <;> rfl
  rw [enlistDeeds, List.filterMap_append, hchart, List.filterMap_flatMap]
  simp [stops_launchDeeds]

/-- There is one pass in each round after the first. -/
theorem passes_enlistDeeds (c : Campaign) (round : Nat) (names : List String) :
    ((c.enlistDeeds round names).filterMap Deed.profile?).length = if 1 < round then 1 else 0 := by
  rw [enlistDeeds, List.filterMap_append, List.filterMap_flatMap, chartDeeds]
  split <;> simp [passes_launchDeeds, profileDeed, Deed.profile?]

/-- Dismissing launches nobody. -/
theorem launches_dismissDeeds (c : Campaign) (round : Nat) (team : List Worker) :
    (c.dismissDeeds round team).filterMap Deed.launch? = [] := by
  simp [dismissDeeds, Deed.launch?]

/-- Dismissing stops the whole team, in its order. -/
theorem stops_dismissDeeds (c : Campaign) (round : Nat) (team : List Worker) :
    (c.dismissDeeds round team).filterMap Deed.terminated? = team := by
  rw [dismissDeeds, List.filterMap_cons_none rfl, List.filterMap_map]
  exact List.filterMap_some

/-- Dismissing profiles nothing. -/
theorem passes_dismissDeeds (c : Campaign) (round : Nat) (team : List Worker) :
    (c.dismissDeeds round team).filterMap Deed.profile? = [] := by
  simp [dismissDeeds, Deed.profile?]

/-- Rounds launch their workers, the earlier rounds first. -/
theorem launches_deedsFrom (c : Campaign) (first : Nat) (records : List RoundRecord) :
    (c.deedsFrom first records).filterMap Deed.launch? =
      (List.range' first records.length).flatMap c.roundSpecs := by
  induction records generalizing first with
  | nil => rfl
  | cons record rest ih =>
    rw [deedsFrom, roundDeeds_eq, List.filterMap_append, List.filterMap_append,
      launches_enlistDeeds, launches_dismissDeeds, List.append_nil, ih, List.length_cons,
      List.range'_succ, List.flatMap_cons]

/-- Rounds stop their teams. -/
theorem stops_deedsFrom (c : Campaign) (first : Nat) (records : List RoundRecord) :
    (c.deedsFrom first records).filterMap Deed.terminated? = records.flatMap RoundRecord.team := by
  induction records generalizing first with
  | nil => rfl
  | cons record rest ih =>
    rw [deedsFrom, roundDeeds_eq, List.filterMap_append, List.filterMap_append,
      stops_enlistDeeds, stops_dismissDeeds, List.nil_append, ih, List.flatMap_cons]

/-- Every round but the first has its pass. -/
theorem passes_deedsFrom (c : Campaign) (records : List RoundRecord) :
    ((c.deedsFrom 1 records).filterMap Deed.profile?).length = records.length - 1 := by
  have hlater : ∀ first records, 1 < first →
      ((c.deedsFrom first records).filterMap Deed.profile?).length = records.length := by
    intro first records hfirst
    induction records generalizing first with
    | nil => rfl
    | cons record rest ih =>
      rw [deedsFrom, roundDeeds_eq, List.filterMap_append, List.filterMap_append,
        passes_dismissDeeds, List.append_nil, List.length_append, passes_enlistDeeds, if_pos hfirst,
        ih _ (by omega), List.length_cons, Nat.add_comm]
  cases records with
  | nil => rfl
  | cons record rest =>
    rw [deedsFrom, roundDeeds_eq, List.filterMap_append, List.filterMap_append,
      passes_dismissDeeds, List.append_nil, List.length_append, passes_enlistDeeds,
      if_neg (by omega), hlater _ _ (by omega), List.length_cons]
    omega

/-- Full teams hold their size once for each round. -/
theorem FullTeams.length_flatMap {count : Nat} {records : List RoundRecord}
    (h : c.FullTeams count records) :
    (records.flatMap RoundRecord.team).length = count * c.settings.roundWorkers := by
  have hlengths : records.map (fun record => record.team.length) =
      List.replicate count c.settings.roundWorkers := by
    rw [List.eq_replicate_iff, List.length_map]
    refine ⟨h.length_eq, ?_⟩
    intro n hn
    obtain ⟨record, hrecord, rfl⟩ := List.mem_map.1 hn
    exact h.team_length record hrecord
  rw [List.length_flatMap, hlengths, List.sum_replicate_nat]

/-- The first of some full teams are full teams. -/
theorem FullTeams.of_prefix {count : Nat} {done records : List RoundRecord}
    (h : c.FullTeams count records) (hdone : done <+: records) : c.FullTeams done.length done :=
  ⟨rfl, fun record hrecord => h.team_length record (hdone.subset hrecord)⟩

/-! ## Cutting a schedule -/

/-- Rounds that are cut before a deed are cut in one of them. -/
theorem exists_cut {first : Nat} {records : List RoundRecord} {deeds : List Deed} {deed : Deed}
    (h : deeds ++ [deed] <+: c.deedsFrom first records) :
    ∃ done record part, done ++ [record] <+: records ∧ deeds = c.deedsFrom first done ++ part ∧
      part ++ [deed] <+: c.roundDeeds (first + done.length) record := by
  induction records generalizing first deeds with
  | nil => exact absurd (List.prefix_nil.1 h) (by simp)
  | cons record rest ih =>
    rcases prefix_append_cases h with hround | ⟨later, rfl, hlater⟩
    · exact ⟨[], record, deeds, ⟨rest, rfl⟩, rfl, hround⟩
    · obtain ⟨done, record', part, hdone, rfl, hpart⟩ := ih hlater
      refine ⟨record :: done, record', part, ?_, (List.append_assoc _ _ _).symm, ?_⟩
      · exact (List.prefix_append_right_inj [record]).2 hdone
      · rw [List.length_cons, Nat.add_comm done.length, ← Nat.add_assoc]
        exact hpart

/-- In a part of a round the first workers are launched, and no more are stopped. -/
theorem exists_shift {round : Nat} {record : RoundRecord} {part : List Deed}
    (hteam : record.team.length = c.settings.roundWorkers)
    (h : part <+: c.roundDeeds round record) : ∃ n ≤ c.settings.roundWorkers,
      part.filterMap Deed.launch? = (List.range' 1 n).map (c.roundSpec round) ∧
      (part.filterMap Deed.terminated?).length ≤ n := by
  rw [roundDeeds_eq] at h
  rcases List.prefix_or_prefix_of_prefix h (List.prefix_append _ _) with hearly | ⟨rest, rfl⟩
  · have hstops := hearly.filterMap Deed.terminated?
    have hlaunches := hearly.filterMap Deed.launch?
    rw [stops_enlistDeeds, List.prefix_nil] at hstops
    rw [launches_enlistDeeds, roundSpecs, List.prefix_map_iff] at hlaunches
    obtain ⟨indices, ⟨others, hindices⟩, hlaunches⟩ := hlaunches
    obtain ⟨n, hn, rfl, -⟩ := List.range'_eq_append_iff.1 hindices.symm
    exact ⟨n, hn, hlaunches, by simp [hstops]⟩
  · rw [List.prefix_append_right_inj] at h
    have hstops := (h.filterMap Deed.terminated?).length_le
    have hlaunches := h.filterMap Deed.launch?
    rw [stops_dismissDeeds, hteam] at hstops
    rw [launches_dismissDeeds, List.prefix_nil] at hlaunches
    refine ⟨_, Nat.le_refl _, ?_, ?_⟩
    · rw [List.filterMap_append, launches_enlistDeeds, hlaunches, List.append_nil, roundSpecs]
    · rwa [List.filterMap_append, stops_enlistDeeds, List.nil_append]

/-- Only the first thing that a round asks for can be a pass. -/
theorem eq_nil_of_profile {round : Nat} {record : RoundRecord} {part : List Deed}
    {seeds : List Path} (h : part ++ [.profile seeds] <+: c.roundDeeds round record) :
    part = [] ∧ 1 < round := by
  rw [roundDeeds, watchDeeds] at h
  rcases prefix_append_cases h with hchart | ⟨rest, rfl, hwatch⟩
  · rw [chartDeeds] at hchart
    split at hchart
    · next hround =>
      rw [List.prefix_cons_iff] at hchart
      rcases hchart with hnil | ⟨tail, htail, hprefix⟩
      · exact absurd hnil (by simp)
      · rw [List.prefix_nil.1 hprefix] at htail
        cases part with
        | nil => exact ⟨rfl, hround⟩
        | cons _ _ => simp at htail
    · exact absurd (List.prefix_nil.1 hchart) (by simp)
  · have hpasses := (hwatch.filterMap Deed.profile?).length_le
    have hlaunches : ((List.range' 1 c.settings.roundWorkers).flatMap
        (c.launchDeeds round)).filterMap Deed.profile? = [] := by
      rw [List.filterMap_flatMap]
      simp [passes_launchDeeds]
    have hstops := c.passes_dismissDeeds round record.team
    rw [dismissDeeds] at hstops
    rw [List.filterMap_append, List.filterMap_append, hlaunches, hstops, List.length_append]
      at hpasses
    exact absurd hpasses (by simp [Deed.profile?])

/-! ## The round that a schedule is in -/

/-- A part of a schedule ends in a round: the rounds before it are over, some workers of the
round were launched, and not more of them were stopped. -/
structure Underway (c : Campaign) (deeds : List Deed) (round : Nat) (team : List WorkerSpec) :
    Prop where
  pos : 1 ≤ round
  launches : deeds.filterMap Deed.launch? =
    c.settings.fleet.monitor :: ((List.range' 1 (round - 1)).flatMap c.roundSpecs ++ team)
  team_works : ∀ spec ∈ team, c.WorksIn round spec
  finished : (round - 1) * c.settings.roundWorkers ≤ (deeds.filterMap Deed.terminated?).length
  stops_le : (deeds.filterMap Deed.terminated?).length ≤
    (round - 1) * c.settings.roundWorkers + team.length

/-- Between two rounds a schedule is at the beginning of the later one. -/
theorem underway_between {records done : List RoundRecord} {count : Nat}
    (hteams : c.FullTeams count records) (hdone : done <+: records) :
    c.Underway (c.openingDeeds ++ c.deedsFrom 1 done) (1 + done.length) [] := by
  have hstops : ((c.openingDeeds ++ c.deedsFrom 1 done).filterMap Deed.terminated?).length =
      done.length * c.settings.roundWorkers := by
    rw [List.filterMap_append, stops_deedsFrom]
    exact (hteams.of_prefix hdone).length_flatMap
  have hrounds : 1 + done.length - 1 = done.length := Nat.add_sub_cancel_left 1 done.length
  refine ⟨Nat.le_add_right 1 _, ?_, by simp, ?_, ?_⟩
  · rw [List.filterMap_append, launches_deedsFrom, List.append_nil, hrounds]
    rfl
  · exact Nat.le_of_eq (by rw [hstops, hrounds])
  · exact Nat.le_of_eq (by rw [hstops, hrounds, List.length_nil, Nat.add_zero])

/-- In a part of a round the schedule is in that round. -/
theorem Underway.shift {deeds part : List Deed} {round n : Nat} (h : c.Underway deeds round [])
    (hn : n ≤ c.settings.roundWorkers)
    (hlaunches : part.filterMap Deed.launch? = (List.range' 1 n).map (c.roundSpec round))
    (hstops : (part.filterMap Deed.terminated?).length ≤ n) :
    c.Underway (deeds ++ part) round ((List.range' 1 n).map (c.roundSpec round)) := by
  have hsame := Nat.le_antisymm h.finished h.stops_le
  refine ⟨h.pos, ?_, ?_, ?_, ?_⟩
  · rw [List.filterMap_append, h.launches, hlaunches]
    simp
  · intro spec hspec
    obtain ⟨index, hindex, rfl⟩ := List.mem_map.1 hspec
    obtain ⟨hpos, hlast⟩ := List.mem_range'_1.1 hindex
    exact ⟨h.pos, index, hpos, by omega, rfl⟩
  · rw [List.filterMap_append, List.length_append]
    exact Nat.le_add_right_of_le h.finished
  · rw [List.filterMap_append, List.length_append, ← hsame, List.length_map, List.length_range']
    exact Nat.add_le_add_left hstops _

/-- The opening is interrupted before it starts, after the launch, or not at all. -/
theorem prefix_openingDeeds {deeds : List Deed} (h : deeds <+: c.openingDeeds) :
    deeds = [] ∨ deeds = [.launch c.settings.fleet.monitor] ∨ deeds = c.openingDeeds := by
  rw [openingDeeds, List.prefix_cons_iff] at h
  rcases h with hnil | ⟨rest, rfl, hrest⟩
  · exact Or.inl hnil
  · rw [List.prefix_cons_iff] at hrest
    rcases hrest with rfl | ⟨rest', rfl, hrest'⟩
    · exact Or.inr (Or.inl rfl)
    · rw [List.prefix_nil.1 hrest']
      exact Or.inr (Or.inr rfl)

section

variable {count : Nat} {records : List RoundRecord} {deeds : List Deed}
  (hteams : c.FullTeams count records)

include hteams

/-- A schedule that is cut in a round is in that round. -/
theorem exists_underway {done : List RoundRecord} {record : RoundRecord} {part : List Deed}
    (hdone : done ++ [record] <+: records)
    (hpart : part <+: c.roundDeeds (1 + done.length) record) :
    ∃ team, c.Underway (c.openingDeeds ++ (c.deedsFrom 1 done ++ part)) (1 + done.length) team := by
  obtain ⟨n, hn, hlaunches, hstops⟩ := exists_shift
    (hteams.team_length record (hdone.subset (by simp))) hpart
  have hbetween := underway_between hteams ((List.prefix_append _ _).trans hdone)
  rw [← List.append_assoc]
  exact ⟨_, hbetween.shift hn hlaunches hstops⟩

/-- Wherever a schedule is cut, it is in one of its rounds, unless the monitor was not
launched yet. -/
theorem underway_of_prefix (h : deeds <+: c.openingDeeds ++ c.deedsFrom 1 records) :
    deeds = [] ∨ ∃ round team, c.Underway deeds round team := by
  rcases List.eq_nil_or_concat' deeds with rfl | ⟨front, deed, rfl⟩
  · exact Or.inl rfl
  refine Or.inr ?_
  rcases prefix_append_cases h with hopening | ⟨rest, rfl, hrest⟩
  · have hbegin := underway_between hteams List.nil_prefix
    rcases prefix_openingDeeds hopening with hnil | hone | hboth
    · exact absurd hnil (by simp)
    · rw [hone]
      exact ⟨1, [], hbegin.pos, rfl, by simp, hbegin.finished, hbegin.stops_le⟩
    · rw [hboth]
      exact ⟨1, [], hbegin⟩
  · obtain ⟨done, record, part, hdone, rfl, hpart⟩ := exists_cut hrest
    obtain ⟨team, hteam⟩ := exists_underway hteams hdone hpart
    rw [← List.append_assoc (c.deedsFrom 1 done), ← List.append_assoc] at hteam
    exact ⟨_, team, hteam⟩

/-- The first launch is the one of the monitor; any other is the one of a worker of the
round that the schedule is in. -/
theorem underway_of_launch {spec : WorkerSpec}
    (h : deeds ++ [.launch spec] <+: c.openingDeeds ++ c.deedsFrom 1 records) :
    deeds = [] ∧ spec = c.settings.fleet.monitor ∨
      ∃ round team, c.Underway deeds round team ∧ c.WorksIn round spec := by
  rcases prefix_append_cases h with hopening | ⟨rest, rfl, hrest⟩
  · rcases prefix_openingDeeds hopening with hnil | hone | hboth
    · exact absurd hnil (by simp)
    · rw [← List.nil_append [Deed.launch c.settings.fleet.monitor]] at hone
      obtain ⟨rfl, hspec⟩ := List.append_inj' hone rfl
      cases hspec
      exact Or.inl ⟨rfl, rfl⟩
    · have hlast := congrArg List.getLast? hboth
      simp [openingDeeds] at hlast
  · obtain ⟨done, record, part, hdone, rfl, hpart⟩ := exists_cut hrest
    obtain ⟨team, hteam⟩ :=
      exists_underway hteams hdone ((List.prefix_append part _).trans hpart)
    obtain ⟨n, hn, hlaunches, -⟩ := exists_shift
      (hteams.team_length record (hdone.subset (by simp))) hpart
    refine Or.inr ⟨_, team, hteam, ?_⟩
    have hmem : spec ∈ (part ++ [Deed.launch spec]).filterMap Deed.launch? := by
      rw [List.filterMap_append]
      exact List.mem_append_right _ (List.mem_singleton_self spec)
    rw [hlaunches, List.mem_map] at hmem
    obtain ⟨index, hindex, rfl⟩ := hmem
    obtain ⟨hpos, hlast⟩ := List.mem_range'_1.1 hindex
    exact ⟨by omega, index, hpos, by omega, rfl⟩

/-- A profiling pass comes between two rounds: it is the one of the later round, and there
was one for each round between the first one and that. -/
theorem underway_of_profile {seeds : List Path}
    (h : deeds ++ [.profile seeds] <+: c.openingDeeds ++ c.deedsFrom 1 records) :
    c.Underway deeds ((deeds.filterMap Deed.profile?).length + 2) [] := by
  rcases prefix_append_cases h with hopening | ⟨rest, rfl, hrest⟩
  · have hpass : Deed.profile seeds ∈ c.openingDeeds := hopening.subset (by simp)
    simp [openingDeeds] at hpass
  · obtain ⟨done, record, part, hdone, rfl, hpart⟩ := exists_cut hrest
    obtain ⟨rfl, hround⟩ := eq_nil_of_profile hpart
    have hbetween := underway_between hteams ((List.prefix_append _ _).trans hdone)
    have hpasses : ((c.openingDeeds ++ (c.deedsFrom 1 done ++ [])).filterMap
        Deed.profile?).length = done.length - 1 := by
      rw [List.append_nil, List.filterMap_append, List.length_append, passes_deedsFrom]
      exact Nat.zero_add _
    rw [hpasses, List.append_nil]
    have hsame : done.length - 1 + 2 = 1 + done.length := by omega
    rw [hsame]
    exact hbetween

end

end Campaign

end FuzzCampaign

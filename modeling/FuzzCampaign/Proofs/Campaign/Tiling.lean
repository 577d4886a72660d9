import FuzzCampaign.Proofs.Campaign.Conduct

/-!
# Rounds that tile the time of a campaign

Scanning and the rounds of exploitation are laid out one after another.  Settings are
refused exactly when no number of rounds fills the total time to its end; there is at most
one such number, since rounds take time.

The number of rounds is kept in 32 bits.  A number that does not fit is not refused: what is
left of it in 32 bits is taken for the number of rounds, and the campaign ends before its
time.  This is the only way in which a campaign gets a wrong number of rounds.

Main definitions:

- `CampaignSettings.Tiles`: the number of rounds that fills the total time.
- `Campaign.RunsFor`: for how many rounds a campaign runs.

Main results:

- `CampaignSettings.exists_error_iff`: which settings are refused.
- `Settings.exact_iff_fits`: when the number of rounds is the right one.
-/

namespace FuzzCampaign

namespace CampaignSettings

variable {c : CampaignSettings} {n m rounds : Nat}

/-- The fleet is large enough, all timeouts are positive, and scanning and `n` rounds of
exploitation fill the total time. -/
structure Tiles (c : CampaignSettings) (n : Nat) : Prop where
  workers : 2 ≤ c.workerCount
  total_pos : 0 < c.totalSeconds
  scanning_pos : 0 < c.scanningSeconds
  exploitation_pos : 0 < c.exploitationSeconds
  total_eq : c.scanningSeconds + n * c.exploitationSeconds = c.totalSeconds

/-- Rounds take time, so not more than one number of them fills the total time. -/
theorem Tiles.unique (hn : c.Tiles n) (hm : c.Tiles m) : n = m := by
  have hsum : n * c.exploitationSeconds = m * c.exploitationSeconds :=
    Nat.add_left_cancel (hn.total_eq.trans hm.total_eq.symm)
  exact Nat.eq_of_mul_eq_mul_right hn.exploitation_pos hsum

/-- What is answered is the number of rounds that fills the total time, in 32 bits. -/
theorem exploitationRounds_eq_ok_iff_tiles :
    c.exploitationRounds = .ok rounds ↔ ∃ n, c.Tiles n ∧ rounds = n % 4294967296 := by
  rw [exploitationRounds_eq_ok_iff]
  constructor
  · rintro ⟨hworkers, htotal, hscanning, hexploitation, n, hn, hrounds⟩
    exact ⟨n, ⟨hworkers, htotal, hscanning, hexploitation, hn⟩, hrounds⟩
  · rintro ⟨n, ⟨hworkers, htotal, hscanning, hexploitation, hn⟩, hrounds⟩
    exact ⟨hworkers, htotal, hscanning, hexploitation, n, hn, hrounds⟩

theorem Tiles.exploitationRounds_eq (h : c.Tiles n) :
    c.exploitationRounds = .ok (n % 4294967296) :=
  exploitationRounds_eq_ok_iff_tiles.2 ⟨n, h, rfl⟩

/-- Settings are refused exactly when no number of rounds fills the total time. -/
theorem exists_error_iff : (∃ e, c.exploitationRounds = .error e) ↔ ∀ n, ¬ c.Tiles n := by
  constructor
  · rintro ⟨e, he⟩ n hn
    rw [hn.exploitationRounds_eq] at he
    cases he
  · intro hnone
    cases hanswer : c.exploitationRounds with
    | ok rounds =>
      obtain ⟨n, hn, -⟩ := exploitationRounds_eq_ok_iff_tiles.1 hanswer
      exact absurd hn (hnone n)
    | error e => exact ⟨e, rfl⟩

/-- The answers are the numbers of rounds that fill the total time just when 32 bits hold
these. -/
theorem ok_iff_tiles_iff_fits :
    (∀ n, c.exploitationRounds = .ok n ↔ c.Tiles n) ↔ ∀ n, c.Tiles n → n < 4294967296 := by
  constructor
  · intro hexact n hn
    have hanswer := (hexact n).2 hn
    rw [hn.exploitationRounds_eq, Except.ok.injEq] at hanswer
    rw [← hanswer]
    exact Nat.mod_lt n (by decide)
  · intro hfits n
    rw [exploitationRounds_eq_ok_iff_tiles]
    constructor
    · rintro ⟨m, hm, rfl⟩
      rwa [Nat.mod_eq_of_lt (hfits m hm)]
    · intro hn
      exact ⟨n, hn, (Nat.mod_eq_of_lt (hfits n hn)).symm⟩

/-- Where 32 bits do not hold the number of rounds, the rounds that are answered leave some
of the total time over. -/
theorem Tiles.short_of_le (h : c.Tiles n) (hlarge : 4294967296 ≤ n) :
    c.scanningSeconds + n % 4294967296 * c.exploitationSeconds < c.totalSeconds := by
  have hless : n % 4294967296 < n := (Nat.mod_lt n (by decide)).trans_le hlarge
  have hmul := Nat.mul_lt_mul_of_pos_right hless h.exploitation_pos
  have htotal := h.total_eq
  omega

end CampaignSettings

namespace Campaign

open Progress

/-! ## How many rounds are run -/

/-- A campaign runs for a number of rounds: every run that ends well has run as many of
them, and a run ends well in which no request fails and which finds seeds to import. -/
structure RunsFor (c : Campaign) (rounds : Nat) : Prop where
  roundsRun_eq : ∀ {σ : Type} (crew : Crew σ) (world : σ) (summary : CampaignSummary),
    (c.run crew world).1 = .ok summary → summary.roundsRun = rounds
  ends : ∀ {σ : Type} (crew : Crew σ) (world : σ),
    (∀ request ∈ c.transcript crew world, request.failed = false) →
      (c.run crew world).1 ≠ .error (.staging (.emptyCorpus c.settings.campaign.seedCorpus)) →
        ∃ summary, (c.run crew world).1 = .ok summary

variable {c : Campaign}

/-- A campaign that comes to its end has run all its rounds. -/
theorem roundsRun_of_run_eq_ok {σ : Type} {crew : Crew σ} {world : σ} {summary : CampaignSummary}
    (h : (c.run crew world).1 = .ok summary) : summary.roundsRun = c.totalRounds.toNat := by
  obtain ⟨records, -, -, hover⟩ := c.performs_drive crew world
  rw [run_fst] at h
  cases hdrive : c.drive crew.noted (c.start ⟨world, []⟩) with
  | mk result p =>
    rw [hdrive] at h
    cases result with
    | ok u =>
      obtain ⟨-, hrounds, -⟩ := hover u p hdrive
      cases h
      refine Eq.trans ?_ hrounds
      exact view_stopAll crew.noted p inward_roundsRun.discreet (fun _ => rfl) fun _ => rfl
    | error e => cases h

/-- A campaign whose graph can be built runs for one round of scanning and for its rounds
of exploitation. -/
theorem runsFor_totalRounds (h : c.inputs.graph.Built) : c.RunsFor c.totalRounds.toNat := by
  refine ⟨fun crew world summary => roundsRun_of_run_eq_ok, ?_⟩
  intro σ crew world hclean hseeds
  obtain ⟨records, -, hperforms, -⟩ := c.performs_drive crew world
  cases hdrive : c.drive crew.noted (c.start ⟨world, []⟩) with
  | mk result p =>
    cases result with
    | ok u => exact ⟨_, by rw [run_fst, hdrive]; rfl⟩
    | error e => exact absurd (emptyCorpus_of_clean h hperforms hclean hdrive).2.1 hseeds

/-- Settings that are accepted make a campaign. -/
theorem exists_ofSettings {s : Settings} {rounds : Nat}
    (h : s.campaign.exploitationRounds = .ok rounds) (inputs : CampaignInputs) :
    ∃ c, ofSettings s inputs = .ok c ∧ c.settings = s ∧ c.inputs = inputs ∧
      c.exploitationRounds = rounds := by
  unfold ofSettings
  split
  · rename_i rounds' h'
    rw [h, Except.ok.injEq] at h'
    exact ⟨_, rfl, rfl, rfl, h'.symm⟩
  · rename_i e h'
    rw [h] at h'
    cases h'

end Campaign

/-! ## The right number of rounds -/

open CampaignSettings Campaign

/-- The number of rounds that is answered fills the total time exactly, unless 32 bits do
not hold it; then less than the total time is filled.  Settings are refused exactly when no
number of rounds fills the total time.  The campaign that is made of accepted settings runs
for one round more than that, as long as rounds can be counted in 32 bits up to the one
behind the last. -/
theorem Settings.exact_iff_fits (s : Settings) {inputs : CampaignInputs}
    (h : inputs.graph.Built) :
    ((∀ n, s.campaign.exploitationRounds = .ok n ↔ s.campaign.Tiles n) ↔
      ∀ n, s.campaign.Tiles n → n < 4294967296) ∧
    ((∃ e, s.campaign.exploitationRounds = .error e) ↔ ∀ n, ¬ s.campaign.Tiles n) ∧
    (∀ n, s.campaign.Tiles n → n + 2 < 4294967296 →
      ∃ c, ofSettings s inputs = .ok c ∧ c.exploitationRounds = n ∧ c.RunsFor (1 + n)) ∧
    (∀ n, s.campaign.Tiles n → 4294967296 ≤ n →
      ∃ rounds, s.campaign.exploitationRounds = .ok rounds ∧
        s.campaign.scanningSeconds + rounds * s.campaign.exploitationSeconds <
          s.campaign.totalSeconds) := by
  refine ⟨ok_iff_tiles_iff_fits, exists_error_iff, ?_, ?_⟩
  · intro n hn hfits
    have hanswer := hn.exploitationRounds_eq
    rw [Nat.mod_eq_of_lt (by omega)] at hanswer
    obtain ⟨c, hc, -, rfl, rfl⟩ := exists_ofSettings hanswer inputs
    have hfor := runsFor_totalRounds h
    rw [c.toNat_totalRounds_of_lt (by omega)] at hfor
    exact ⟨c, hc, rfl, hfor⟩
  · intro n hn hlarge
    exact ⟨_, hn.exploitationRounds_eq, hn.short_of_le hlarge⟩

/-- The settings of a campaign that scans for some seconds, and exploits in rounds of a
second each until the total time is over. -/
def Settings.ofSeconds (total scanning : Nat) : Settings :=
  { brief.settings with
    campaign :=
      { brief.settings.campaign with
        totalSeconds := total, scanningSeconds := scanning, exploitationSeconds := 1 } }

/-- Ten seconds of scanning leave twenty rounds of a second each, and a campaign of
twenty-one rounds. -/
theorem Settings.exact_iff_fits_ofSeconds :
    (CallGraph.ofEntry (.named "main")).Built ∧
      (Settings.ofSeconds 30 10).campaign.exploitationRounds = .ok 20 ∧
      ∃ c, ofSettings (.ofSeconds 30 10) brief.inputs = .ok c ∧ c.RunsFor 21 := by
  have hbuilt : (CallGraph.ofEntry (.named "main")).Built := .ofEntry _
  have htiles : (Settings.ofSeconds 30 10).campaign.Tiles 20 := by
    constructor <;> decide
  obtain ⟨hexact, -, hruns, -⟩ :=
    Settings.exact_iff_fits (.ofSeconds 30 10) (show brief.inputs.graph.Built from hbuilt)
  obtain ⟨c, hc, -, hfor⟩ := hruns 20 htiles (by decide)
  refine ⟨hbuilt, (hexact.2 ?_ 20).2 htiles, c, hc, hfor⟩
  intro n hn
  rw [hn.unique htiles]
  decide

/-- Of 4294967296 rounds none is left in 32 bits: the settings are accepted without a round of
exploitation, and all the time that scanning leaves is lost. -/
theorem Settings.inexact_ofSeconds :
    (Settings.ofSeconds 4294967306 10).campaign.Tiles 4294967296 ∧
      (Settings.ofSeconds 4294967306 10).campaign.exploitationRounds = .ok 0 ∧
      ¬ (Settings.ofSeconds 4294967306 10).campaign.Tiles 0 := by
  have htiles : (Settings.ofSeconds 4294967306 10).campaign.Tiles 4294967296 := by
    constructor <;> decide
  refine ⟨htiles, htiles.exploitationRounds_eq, fun hzero => ?_⟩
  exact absurd (htiles.unique hzero) (by decide)

end FuzzCampaign

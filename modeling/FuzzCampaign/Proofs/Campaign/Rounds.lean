import FuzzCampaign.Proofs.Campaign.Schedule

/-!
# A campaign round by round

Every round begins where the round before it ended, and what a campaign does from the
beginning of a round on is the rest of its rounds.

Main definitions:

- `Campaign.untilRound`, `Campaign.untilPass` and `Campaign.untilLaunch`: a campaign before a
  round, before the graph of the round is brought up to date, and before the workers of the
  round are launched.

Main results:

- `untilRound_succ`: one more round.
- `begun_of_untilRound`: where a campaign stands when a round begins.
- `drive_of_untilRound` and `drive_of_untilLaunch`: what is left when a round begins, and
  when its workers are launched.
-/

namespace FuzzCampaign

open FuzzCampaign.Action

namespace Campaign

open Progress

variable {σ : Type} (c : Campaign) (crew : Crew σ)

/-! ## Until a round begins -/

/-- What a campaign does until a round begins. -/
def untilRound (round : Nat) : Step σ Unit := do
  c.prepare crew
  c.launchMonitor crew
  c.runRounds crew (round - 1)

/-- What a campaign does until it brings the graph of a round up to date. -/
def untilPass (round : Nat) : Step σ Unit := do
  c.untilRound crew round
  c.stage crew round

/-- What a campaign does until it launches the workers of a round. -/
def untilLaunch (round : Nat) : Step σ Unit := do
  c.untilPass crew round
  c.chart crew (phaseOf round) round

/-- Between the beginnings of two rounds there is one round. -/
theorem untilRound_succ {round : Nat} (hround : 1 ≤ round) :
    c.untilRound crew (round + 1) = (do
      c.untilRound crew round
      c.runRound crew
      finishRound) := by
  have hcount : round + 1 - 1 = round - 1 + 1 := by omega
  simp only [untilRound, hcount, runRounds_add, runRounds, bind_assoc, bind_pure_unit]

/-- Before a round began, all rounds before it did. -/
theorem exists_untilRound {earlier round : Nat} (hearlier : 1 ≤ earlier) (hle : earlier ≤ round)
    {world : σ} {u : Unit} {p : Progress σ}
    (h : c.untilRound crew round (c.start world) = (.ok u, p)) :
    ∃ q, c.untilRound crew earlier (c.start world) = (.ok (), q) ∧
      c.runRounds crew (round - earlier) q = (.ok u, p) := by
  have hsplit : c.untilRound crew round = (do
      c.untilRound crew earlier
      c.runRounds crew (round - earlier)) := by
    have hcount : round - 1 = earlier - 1 + (round - earlier) := by omega
    rw [untilRound, hcount, runRounds_add]
    simp only [untilRound, bind_assoc]
  rw [hsplit] at h
  obtain ⟨_, q, hq, hrest⟩ := bind_eq_ok h
  exact ⟨q, hq, hrest⟩

/-- Where a campaign stands when a round begins. -/
structure Begun (round : Nat) (p : Progress σ) : Prop where
  round_eq : p.survey.state.round.toNat = round
  phase_eq : p.survey.state.phase = phaseOf round

/-- A round begins under its own number, if that has 32 bits. -/
theorem begun_of_untilRound {round : Nat} (hround : 1 ≤ round) (hfits : round < 4294967296)
    {world : σ} {u : Unit} {p : Progress σ}
    (h : c.untilRound crew round (c.start world) = (.ok u, p)) : Begun round p := by
  obtain ⟨_, p₁, hprepare, h⟩ := bind_eq_ok h
  obtain ⟨_, p₂, hmonitor, hrounds⟩ := bind_eq_ok h
  have hopened := c.opened_of_launchMonitor crew hprepare hmonitor
  have hphase := (c.runRounds_ok crew hrounds).2
  have hone : p₂.survey.state.round.toNat = 1 := congrArg UInt32.toNat hopened.round_eq
  have hcount := c.toNat_round_of_runRounds crew hrounds (by omega)
  refine ⟨by omega, ?_⟩
  by_cases hone : round = 1
  · subst hone
    cases hrounds
    exact hopened.phase_eq
  · rw [hphase (by omega), phaseOf, if_neg hone]

/-- A round, from its beginning on. -/
theorem runRound_of_begun {round : Nat} {p : Progress σ} (h : Begun round p) :
    c.runRound crew p = (do
      c.stage crew round
      c.chart crew (phaseOf round) round
      c.watch crew round (phaseOf round) : Step σ Unit) p :=
  c.runRound_apply crew p h.round_eq h.phase_eq

/-- From the beginning of a round on, a campaign runs the rest of its rounds. -/
theorem drive_of_untilRound {round : Nat} (hround : 1 ≤ round)
    (hlast : round ≤ c.totalRounds.toNat + 1) {world : σ} {u : Unit} {p : Progress σ}
    (h : c.untilRound crew round (c.start world) = (.ok u, p)) :
    c.drive crew (c.start world) = c.runRounds crew (c.totalRounds.toNat + 1 - round) p := by
  have hrest : c.totalRounds.toNat = round - 1 + (c.totalRounds.toNat + 1 - round) := by omega
  have hdrive : c.drive crew (c.start world) = (do
      c.untilRound crew round
      c.runRounds crew (c.totalRounds.toNat + 1 - round) : Step σ Unit) (c.start world) := by
    rw [drive_apply, hrest, runRounds_add, ← hrest]
    simp only [untilRound, bind_assoc]
  rw [hdrive, bind_of_ok_apply h]

/-! ## Until the workers of a round are launched -/

/-- Between the launch of the workers of a round and the next round they are watched. -/
theorem exists_untilLaunch {round : Nat} (hround : 1 ≤ round) (hfits : round < 4294967296)
    {world : σ} {u : Unit} {p : Progress σ}
    (h : c.untilRound crew (round + 1) (c.start world) = (.ok u, p)) :
    ∃ q q', c.untilLaunch crew round (c.start world) = (.ok (), q) ∧
      c.watch crew round (phaseOf round) q = (.ok (), q') ∧ q'.world = p.world := by
  rw [untilRound_succ c crew hround] at h
  obtain ⟨_, p₁, huntil, h⟩ := bind_eq_ok h
  obtain ⟨_, p₂, hrun, hfinish⟩ := bind_eq_ok h
  cases hfinish
  rw [runRound_of_begun c crew (c.begun_of_untilRound crew hround hfits huntil)] at hrun
  obtain ⟨_, p₃, hstage, hrun⟩ := bind_eq_ok hrun
  obtain ⟨_, p₄, hchart, hwatch⟩ := bind_eq_ok hrun
  refine ⟨p₄, p₂, ?_, hwatch, rfl⟩
  rw [untilLaunch, untilPass]
  simp only [bind_assoc]
  rw [bind_of_ok_apply huntil, bind_of_ok_apply hstage, hchart]

/-- From the launch of the workers of a round on, a campaign watches them, and runs the rest
of its rounds. -/
theorem drive_of_untilLaunch {round : Nat} (hround : 1 ≤ round)
    (hlast : round ≤ c.totalRounds.toNat) {world : σ} {u : Unit} {p : Progress σ}
    (h : c.untilLaunch crew round (c.start world) = (.ok u, p)) :
    c.drive crew (c.start world) = (do
      c.watch crew round (phaseOf round)
      finishRound
      c.runRounds crew (c.totalRounds.toNat - round) : Step σ Unit) p := by
  obtain ⟨_, p₁, hpass, hchart⟩ := bind_eq_ok h
  obtain ⟨_, p₂, huntil, hstage⟩ := bind_eq_ok hpass
  have hcount : c.totalRounds.toNat + 1 - round = c.totalRounds.toNat - round + 1 := by omega
  have hfits : round < 4294967296 := Nat.lt_of_le_of_lt hlast (UInt32.toNat_lt _)
  have hrun : c.runRound crew p₂ = c.watch crew round (phaseOf round) p := by
    rw [runRound_of_begun c crew (c.begun_of_untilRound crew hround hfits huntil),
      bind_of_ok_apply hstage, bind_of_ok_apply hchart]
  rw [c.drive_of_untilRound crew hround (Nat.le_succ_of_le hlast) huntil, hcount, runRounds,
    bind_congr_apply hrun]

end Campaign

end FuzzCampaign

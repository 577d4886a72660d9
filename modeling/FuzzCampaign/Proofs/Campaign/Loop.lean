import FuzzCampaign.Proofs.Campaign.Standing

/-!
# The loop over the rounds

A campaign runs rounds while the number of the current one is not behind the last.  A round
leaves the count alone, and the count goes up between two rounds, so the loop runs the rounds
that are left and ends; how many turns it is allowed beyond these makes no difference.

The count has 32 bits.  Where the last round has the largest number of all, no number is behind
it, and the loop goes on with whatever the count starts over with.

Main definitions:

- `Campaign.runRounds`: some rounds, one after another.

Main results:

- `runRounds_ok`: where a campaign stands after some rounds.
- `loop_apply`: the loop runs the rounds that are left.
- `loop_eq_runRounds_of_largest`: where it never ends.
- `drive_apply`: a campaign runs all its rounds, from the first one on.
-/

namespace FuzzCampaign

open FuzzCampaign.Action

namespace Campaign

open Progress

variable {σ : Type} (c : Campaign) (crew : Crew σ)

/-! ## Some rounds -/

/-- Run a number of rounds. -/
def runRounds : Nat → Step σ Unit
  | 0 => pure ()
  | count + 1 => do
    c.runRound crew
    finishRound
    runRounds count

/-- Rounds after rounds. -/
theorem runRounds_add (m n : Nat) : c.runRounds crew (m + n) = (do
    c.runRounds crew m
    c.runRounds crew n) := by
  induction m with
  | zero => simp [runRounds]
  | succ m ih =>
    rw [Nat.succ_add, runRounds, ih, runRounds]
    simp only [bind_assoc]

/-- Every round is counted, in 32 bits, and after the first one a campaign exploits. -/
theorem runRounds_ok {count : Nat} {u : Unit} {p p' : Progress σ}
    (h : c.runRounds crew count p = (.ok u, p')) :
    p'.survey.state.round = p.survey.state.round + UInt32.ofNat count ∧
      (0 < count → p'.survey.state.phase = .exploiting) := by
  induction count generalizing p with
  | zero =>
    cases h
    exact ⟨(UInt32.add_zero _).symm, fun hpos => absurd hpos (Nat.lt_irrefl 0)⟩
  | succ count ih =>
    obtain ⟨_, p₁, hround, hrest⟩ := bind_eq_ok h
    obtain ⟨_, p₂, hfinish, hrounds⟩ := bind_eq_ok hrest
    cases hfinish
    obtain ⟨hcount, hphase⟩ := ih hrounds
    have hsame := (c.runRound_ok crew hround).1
    refine ⟨?_, fun _ => ?_⟩
    · rw [hcount, CampaignState.round_advance, hsame, UInt32.add_assoc, UInt32.ofNat_add,
        UInt32.add_comm 1]
      rfl
    · cases count with
      | zero =>
        cases hrounds
        rfl
      | succ count => exact hphase (Nat.succ_pos count)

/-- The rounds are counted without loss as long as 32 bits hold the number of the next one. -/
theorem toNat_round_of_runRounds {count : Nat} {u : Unit} {p p' : Progress σ}
    (h : c.runRounds crew count p = (.ok u, p'))
    (hfits : p.survey.state.round.toNat + count < 4294967296) :
    p'.survey.state.round.toNat = p.survey.state.round.toNat + count := by
  rw [(c.runRounds_ok crew h).1, UInt32.toNat_add, UInt32.toNat_ofNat', Nat.add_mod_mod]
  exact Nat.mod_eq_of_lt hfits

/-! ## The loop -/

/-- A turn of the loop. -/
theorem loop_succ_apply (turns : Nat) (p : Progress σ) : c.loop crew (turns + 1) p =
    if p.survey.state.round ≤ c.totalRounds then (do
      c.runRound crew
      finishRound
      c.loop crew turns : Step σ Unit) p
    else (.ok (), p) := by
  have hget : (get : Step σ (Progress σ)) p = (.ok p, p) := rfl
  rw [loop, bind_of_ok_apply hget]
  split <;> rfl

/-- If the last round has a number behind it, the loop runs the rounds that are left, however
many turns it is allowed beyond these. -/
theorem loop_apply (hlast : c.totalRounds.toNat < 4294967295) (turns : Nat) {p : Progress σ}
    (hround : p.survey.state.round.toNat ≤ c.totalRounds.toNat + 1)
    (hturns : c.totalRounds.toNat + 1 ≤ p.survey.state.round.toNat + turns) :
    c.loop crew turns p =
      c.runRounds crew (c.totalRounds.toNat + 1 - p.survey.state.round.toNat) p := by
  induction turns generalizing p with
  | zero =>
    have hnone : c.totalRounds.toNat + 1 - p.survey.state.round.toNat = 0 := by omega
    rw [hnone]
    rfl
  | succ turns ih =>
    rw [loop_succ_apply]
    split
    · next hle =>
      rw [UInt32.le_iff_toNat_le] at hle
      have hcount : c.totalRounds.toNat + 1 - p.survey.state.round.toNat =
          c.totalRounds.toNat + 1 - (p.survey.state.round.toNat + 1) + 1 := by omega
      rw [hcount, runRounds, bind_apply, bind_apply]
      cases hrun : c.runRound crew p with
      | mk result p₁ =>
        cases result with
        | error e => rfl
        | ok u =>
          have hnext : (finishRound p₁).2.survey.state.round.toNat =
              p.survey.state.round.toNat + 1 := by
            rw [← (c.runRound_ok crew hrun).1]
            refine (CampaignState.toNat_round_advance _).trans (Nat.mod_eq_of_lt ?_)
            rw [(c.runRound_ok crew hrun).1]
            omega
          have hrest := ih (p := (finishRound p₁).2) (by omega) (by omega)
          rw [hnext] at hrest
          exact hrest
    · next hgt =>
      rw [UInt32.le_iff_toNat_le] at hgt
      have hnone : c.totalRounds.toNat + 1 - p.survey.state.round.toNat = 0 := by omega
      rw [hnone]
      rfl

/-- If the last round has the largest number of all, every turn of the loop runs a round. -/
theorem loop_eq_runRounds_of_largest (hlast : c.totalRounds = 4294967295) (turns : Nat) :
    c.loop crew turns = c.runRounds crew turns := by
  induction turns with
  | zero => rfl
  | succ turns ih =>
    funext p
    have hle : p.survey.state.round ≤ c.totalRounds := by
      rw [hlast, UInt32.le_iff_toNat_le]
      exact Nat.le_of_lt_succ (UInt32.toNat_lt _)
    rw [loop_succ_apply, if_pos hle, ih, runRounds]

/-- From its first round on a campaign runs all its rounds. -/
theorem loop_of_opened {p : Progress σ} (h : Opened p) :
    c.loop crew roundLimit p = c.runRounds crew c.totalRounds.toNat p := by
  by_cases hlast : c.totalRounds = 4294967295
  · rw [loop_eq_runRounds_of_largest c crew hlast, hlast]
    rfl
  · have hone : p.survey.state.round.toNat = 1 := congrArg UInt32.toNat h.round_eq
    have hlt : c.totalRounds.toNat < 4294967295 := by
      have hne : c.totalRounds.toNat ≠ (4294967295 : UInt32).toNat :=
        fun heq => hlast (UInt32.toNat_inj.1 heq)
      have hword := UInt32.toNat_lt c.totalRounds
      change c.totalRounds.toNat ≠ 4294967295 at hne
      omega
    rw [c.loop_apply crew hlt roundLimit (by omega) (by rw [roundLimit]; omega), hone]
    rfl

/-- A campaign opens its first round, and then runs all its rounds. -/
theorem drive_apply (world : σ) : c.drive crew (c.start world) = (do
    c.prepare crew
    c.launchMonitor crew
    c.runRounds crew c.totalRounds.toNat : Step σ Unit) (c.start world) := by
  rw [drive, bind_apply, bind_apply]
  cases hprepare : c.prepare crew (c.start world) with
  | mk result p =>
    cases result with
    | error e => rfl
    | ok u =>
      dsimp only
      rw [bind_apply, bind_apply]
      cases hmonitor : c.launchMonitor crew p with
      | mk result p' =>
        cases result with
        | error e => rfl
        | ok u' => exact c.loop_of_opened crew (c.opened_of_launchMonitor crew hprepare hmonitor)

end Campaign

end FuzzCampaign

import Std.Data.TreeSet

/-!
# The state of a campaign

What a running campaign remembers between its rounds, besides the call graph:
the round it is in, the functions that were pruned from the graph and not seen
since, and the seeds that were profiled already.

Main results:

- `CampaignState.phase_advance`: a campaign scans once and exploits ever after.
- `CampaignState.toNat_round_advance`: rounds are counted in 32 bits.
-/

namespace FuzzCampaign

/-- What the workers of a round are asked to do. -/
inductive Phase where
  /-- Explore from the operator's corpus. -/
  | scanning
  /-- Work on the functions of a task. -/
  | exploiting
  deriving Repr, DecidableEq, Inhabited

/-- The word written for a phase. -/
def Phase.word : Phase → String
  | scanning => "scanning"
  | exploiting => "exploiting"

/-- The bookkeeping of a campaign. -/
structure CampaignState where
  /-- The current round, counted from one in 32 bits. -/
  round : UInt32 := 1
  phase : Phase := .scanning
  /-- Functions pruned from the graph and not observed since. -/
  spare : Std.TreeSet String := ∅
  /-- Names of the seeds that were profiled. -/
  profiled : Std.TreeSet String := ∅

namespace CampaignState

/-- Move on to the next round.  After the largest number the count starts over with zero. -/
def advance (s : CampaignState) : CampaignState :=
  { s with round := s.round + 1, phase := .exploiting }

@[simp] theorem round_advance (s : CampaignState) : s.advance.round = s.round + 1 := rfl

@[simp] theorem phase_advance (s : CampaignState) : s.advance.phase = .exploiting := rfl

/-- The count of rounds goes up by one as long as 32 bits hold it. -/
theorem toNat_round_advance (s : CampaignState) :
    s.advance.round.toNat = (s.round.toNat + 1) % 4294967296 := by
  rw [round_advance, UInt32.toNat_add]
  rfl

/-- Behind the largest round there is none with a larger number. -/
theorem round_advance_of_eq (s : CampaignState) (h : s.round = 4294967295) :
    s.advance.round = 0 := by
  rw [round_advance, h]
  rfl

/-- Park the name of a pruned function. -/
def park (s : CampaignState) (name : String) : CampaignState :=
  { s with spare := s.spare.insert name }

/-- Take a name out of the spare set again. -/
def unpark (s : CampaignState) (name : String) : CampaignState :=
  { s with spare := s.spare.erase name }

/-- Record that a seed was profiled. -/
def recordProfiled (s : CampaignState) (name : String) : CampaignState :=
  { s with profiled := s.profiled.insert name }

@[simp] theorem mem_spare_park {s : CampaignState} {name other : String} :
    other ∈ (s.park name).spare ↔ name = other ∨ other ∈ s.spare := by
  simp [park, Std.TreeSet.mem_insert]

@[simp] theorem mem_spare_unpark {s : CampaignState} {name other : String} :
    other ∈ (s.unpark name).spare ↔ name ≠ other ∧ other ∈ s.spare := by
  simp [unpark, Std.TreeSet.mem_erase]

end CampaignState

end FuzzCampaign

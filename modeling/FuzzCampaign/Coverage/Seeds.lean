import FuzzCampaign.Campaign.Staging
import FuzzCampaign.Coverage.Ingest

/-!
# Profiling seeds

Before an exploitation round the seeds of the monitor's queue are profiled.  The
first pass takes all of them; later passes take those that raised the coverage
and were not taken before.

Main definitions:

- `CampaignState.takeSeeds`: which seeds a pass takes.
- `selectSeeds`: the same for a directory.

Main results:

- `mem_profiled_takeSeeds`: exactly the taken seeds are recorded.
-/

namespace FuzzCampaign

/-- Why seeds could not be profiled. -/
inductive ProfileError where
  | spawn (program : Path) (fault : Fault)
  | wait (program : Path) (fault : Fault)
  | io (path : Path) (fault : Fault)
  deriving Repr, DecidableEq

namespace ProfileError

/-- What failed underneath. -/
def fault : ProfileError → Fault
  | spawn _ fault => fault
  | wait _ fault => fault
  | io _ fault => fault

/-- The wording of a profile error. -/
def message : ProfileError → String
  | spawn program fault => "Failed to spawn '" ++ program.text ++ "': " ++ fault.message
  | wait program fault => "Error waiting for '" ++ program.text ++ "': " ++ fault.message
  | io path fault => "Profiling I/O on " ++ path.text ++ ": " ++ fault.message

end ProfileError

/-- Why the coverage of a round could not be refreshed. -/
inductive CoverageError where
  | profile (error : ProfileError)
  | seedListing (path : Path) (fault : Fault)
  deriving Repr, DecidableEq

namespace CoverageError

/-- The wording of a coverage error. -/
def message : CoverageError → String
  | profile error => "Profiling failed: " ++ error.message
  | seedListing path fault => "Failed to list seeds in " ++ path.text ++ ": " ++ fault.message

/-- What lies underneath an error, the outermost first. -/
def causes : CoverageError → List String
  | profile error => [error.message, error.fault.message]
  | seedListing _ fault => [fault.message]

end CoverageError

/-! ## Which seeds are taken -/

namespace CampaignState

/-- Whether a pass takes a seed. -/
def takes (s : CampaignState) (isFirst : Bool) (name : String) : Bool :=
  isFirst || (carries coverageMark name && !s.profiled.contains name)

/-- The seeds that a pass takes, in the given order, and the state in which they
are recorded. -/
def takeSeeds (isFirst : Bool) : List String → CampaignState → List String × CampaignState
  | [], s => ([], s)
  | name :: rest, s =>
    if s.takes isFirst name then
      let later := takeSeeds isFirst rest (s.recordProfiled name)
      (name :: later.1, later.2)
    else takeSeeds isFirst rest s

/-- Exactly the taken seeds are recorded. -/
theorem mem_profiled_takeSeeds {isFirst : Bool} {names : List String} {s : CampaignState}
    {name : String} : name ∈ (takeSeeds isFirst names s).2.profiled ↔
      name ∈ (takeSeeds isFirst names s).1 ∨ name ∈ s.profiled := by
  induction names generalizing s with
  | nil => simp [takeSeeds]
  | cons first rest ih =>
    rw [takeSeeds]
    split
    · simp only [ih, List.mem_cons]
      simp only [recordProfiled, Std.TreeSet.mem_insert, Std.LawfulEqCmp.compare_eq_iff_eq]
      constructor
      · rintro (h | h | h)
        · exact .inl (.inr h)
        · exact .inl (.inl h.symm)
        · exact .inr h
      · rintro ((h | h) | h)
        · exact .inr (.inl h.symm)
        · exact .inl h
        · exact .inr (.inr h)
    · exact ih

end CampaignState

/-- The seeds of a directory that a pass takes, by name, and the state in which
they are recorded.  A directory that is missing has no seeds. -/
def selectSeeds {σ : Type} (files : FileSystem σ) (dir : Path) (isFirst : Bool)
    (s : CampaignState) : Action σ CoverageError (List Path × CampaignState) := do
  if ← Action.observe (files.isDirectory dir) then
    let names ← (sortedFileNames files dir).orFail (.seedListing dir)
    let (taken, s) := CampaignState.takeSeeds isFirst names s
    return (taken.map dir.join, s)
  else return ([], s)

end FuzzCampaign

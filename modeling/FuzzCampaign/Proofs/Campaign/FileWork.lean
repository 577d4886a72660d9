import FuzzCampaign.Proofs.Campaign.Transcript

/-!
# Work on files follows the empty plan

Staging seeds, rotating artifacts, selecting seeds and writing tasks ask for nothing
but work on files.  They end with the first request that fails, and then report it.
Only the import of the corpus can give up by itself, when there is no seed to import.
Which errors report a failed request is left open where it does not matter: of all
errors that a step can end with at least those do.

Main definitions:

- `StagingError.IsFault` and `PartitionError.IsFault`: an error that reports a failed
  request.

Main results:

- `performs_importCorpus`, `performs_stageSeeds`, `performs_rotateArtifacts`,
  `performs_selectSeeds` and `performs_writeAll`.
-/

namespace FuzzCampaign

open FuzzCampaign.Action

section

variable {σ : Type} (files : FileSystem σ)

/-! ## Single requests -/

/-- A request for work on files that fails with any error. -/
abbrev FileWork {α : Type} (action : Action (Noted σ) Fault α) (n : Noted σ) : Prop :=
  action.Performs Noted.requests (fun _ => True) [] n

/-- Creating directories asks the crew for nothing. -/
theorem fileWork_create (dir : Path) (n : Noted σ) :
    FileWork (files.noted.createDirectories dir) n :=
  Performs.noted (.create dir) (fun _ => rfl) (fun _ => rfl) n

/-- Copying asks the crew for nothing. -/
theorem fileWork_copy (source target : Path) (n : Noted σ) :
    FileWork (files.noted.copy source target) n :=
  Performs.noted (.copy source target) (fun _ => rfl) (fun _ => rfl) n

/-- Moving asks the crew for nothing. -/
theorem fileWork_move (source target : Path) (n : Noted σ) :
    FileWork (files.noted.move source target) n :=
  Performs.noted (.move source target) (fun _ => rfl) (fun _ => rfl) n

/-- Writing a text asks the crew for nothing. -/
theorem fileWork_write (file : Path) (text : String) (n : Noted σ) :
    FileWork (files.noted.writeText file text) n :=
  Performs.noted (.write file text) (fun _ => rfl) (fun _ => rfl) n

/-- Listing asks the crew for nothing. -/
theorem fileWork_sortedFileNames (dir : Path) (n : Noted σ) :
    FileWork (sortedFileNames files.noted dir) n := by
  refine .after_idle (Performs.noted (.list dir) (fun _ => rfl) (fun _ => rfl) n) ?_
  intro names n' _
  exact .idle rfl rfl

/-- Creating the layout asks the crew for nothing. -/
theorem fileWork_createLayout (l : Layout) (n : Noted σ) : FileWork (l.create files.noted) n := by
  refine .after_idle (fileWork_create files _ n) ?_
  intro _ n' _
  refine .after_idle (fileWork_create files _ n') ?_
  intro _ n'' _
  exact fileWork_create files _ n''

/-! ## Staging -/

/-- An error of staging that reports a failed request: all but the one that there are
no seeds. -/
def StagingError.IsFault : StagingError → Prop
  | .emptyCorpus _ => False
  | .io _ _ => True

section

variable (fault : StagingError → Prop) (hio : ∀ path e, fault (.io path e))

include hio

/-- Copying a list of files asks the crew for nothing, whatever becomes of it. -/
theorem performs_copyAll (source target : Path) (items : List (String × String)) (n : Noted σ) :
    (copyAll files.noted source target items).Performs Noted.requests fault [] n := by
  induction items generalizing n with
  | nil => exact .idle rfl rfl
  | cons item items ih =>
    refine .after_idle (.orFail (fileWork_copy files _ _ n)
      fun _ => iff_of_true (hio _ _) trivial) ?_
    intro _ n' _
    exact ih n'

/-- Importing a corpus asks the crew for nothing. -/
theorem performs_importCorpus {source : Path} (hempty : ¬ fault (.emptyCorpus source))
    (target : Path) (n : Noted σ) :
    (importCorpus files.noted source target).Performs Noted.requests fault [] n := by
  refine .after_idle (.idle rfl rfl) ?_
  intro isDirectory n' _
  split
  · refine .after_idle (.orFail (fileWork_create files target n')
      fun _ => iff_of_true (hio _ _) trivial) ?_
    intro _ n'' _
    refine .after_idle (.orFail (fileWork_sortedFileNames files source n'')
      fun _ => iff_of_true (hio _ _) trivial) ?_
    intro names n₃ _
    split
    · exact .giveUp rfl rfl hempty
    · refine .after_idle (performs_copyAll files fault hio source target _ n₃) ?_
      intro _ n₄ _
      exact .idle rfl rfl
  · exact .giveUp rfl rfl hempty

/-- Staging seeds asks the crew for nothing. -/
theorem performs_stageSeeds (source target : Path) (round : Nat) (n : Noted σ) :
    (stageSeeds files.noted source target round).Performs Noted.requests fault [] n := by
  refine .after_idle (.orFail (fileWork_create files target n)
    fun _ => iff_of_true (hio _ _) trivial) ?_
  intro _ n' _
  refine .after_idle (.idle rfl rfl) ?_
  intro isDirectory n'' _
  split
  · refine .after_idle (.orFail (fileWork_sortedFileNames files source n'')
      fun _ => iff_of_true (hio _ _) trivial) ?_
    intro names n₃ _
    refine .after_idle (performs_copyAll files fault hio source target _ n₃) ?_
    intro _ n₄ _
    exact .idle rfl rfl
  · exact .idle rfl rfl

/-- Moving a list of artifacts asks the crew for nothing. -/
theorem performs_moveAll (target : Path) (items : List Path) (n : Noted σ) :
    (moveAll files.noted target items).Performs Noted.requests fault [] n := by
  induction items generalizing n with
  | nil => exact .idle rfl rfl
  | cons item items ih =>
    rw [moveAll]
    split
    · refine .after_idle (.idle rfl rfl) ?_
      intro isPresent n' _
      split
      · refine .after_idle (.orFail (fileWork_move files _ _ n')
          fun _ => iff_of_true (hio _ _) trivial) ?_
        intro _ n'' _
        exact ih n''
      · exact ih n'
    · exact ih n

/-- Rotating the artifacts asks the crew for nothing. -/
theorem performs_rotateArtifacts (layout : Layout) (round workers : Nat) (n : Noted σ) :
    (rotateArtifacts files.noted layout round workers).Performs Noted.requests fault [] n := by
  refine .after_idle (.orFail (fileWork_create files _ n)
    fun _ => iff_of_true (hio _ _) trivial) ?_
  intro _ n' _
  refine .after_idle (performs_moveAll files fault hio _ _ n') ?_
  intro _ n'' _
  exact .idle rfl rfl

end

/-! ## Seeds and tasks -/

/-- Selecting seeds asks the crew for nothing. -/
theorem performs_selectSeeds (dir : Path) (isFirst : Bool) (s : CampaignState) (n : Noted σ) :
    (selectSeeds files.noted dir isFirst s).Performs Noted.requests (fun _ => True) [] n := by
  refine .after_idle (.idle rfl rfl) ?_
  intro isDirectory n' _
  split
  · refine .after_idle (.orFail (fileWork_sortedFileNames files dir n') fun _ => Iff.rfl) ?_
    intro names n'' _
    exact .idle rfl rfl
  · exact .idle rfl rfl

/-- An error of a partition that reports a failed request: a task was not written. -/
def PartitionError.IsFault : PartitionError → Prop
  | .capacity _ _ => False
  | .notSpanning => False
  | .taskFile _ _ => True

/-- Writing the task files asks the crew for nothing. -/
theorem performs_writeAll (fault : PartitionError → Prop)
    (htaskFile : ∀ path e, fault (.taskFile path e)) (dir : Path) (number : Nat)
    (tasks : List Task) (n : Noted σ) :
    (Task.writeAll files.noted dir number tasks).Performs Noted.requests fault [] n := by
  induction tasks generalizing number n with
  | nil => exact .idle rfl rfl
  | cons task tasks ih =>
    refine .after_idle (.orFail (fileWork_write files _ _ n)
      fun _ => iff_of_true (htaskFile _ _) trivial) ?_
    intro _ n' _
    refine .after_idle (ih (number + 1) n') ?_
    intro _ n'' _
    exact .idle rfl rfl

end

end FuzzCampaign

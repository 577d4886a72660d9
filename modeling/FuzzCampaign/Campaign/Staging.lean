import FuzzCampaign.Fleet.Layout

/-!
# Staging

Seeds and artifacts are files that move between the directories of a campaign.
The operator's corpus is imported once.  Every round gets its own numbered
copies of the seeds it starts from; from the second round on only seeds are
taken that raised the coverage or stem from the operator.  When a round is over,
its artifacts move into a backup directory.

Main definitions:

- `importCorpus`, `stageSeeds` and `rotateArtifacts`.
-/

namespace FuzzCampaign

/-- Why seeds or artifacts could not be moved. -/
inductive StagingError where
  | emptyCorpus (source : Path)
  | io (path : Path) (fault : Fault)
  deriving Repr, DecidableEq

namespace StagingError

/-- The wording of a staging error. -/
def message : StagingError → String
  | emptyCorpus source => "Seed corpus " ++ source.text ++ " is missing or contains no files"
  | io path fault => "Staging I/O error on " ++ path.text ++ ": " ++ fault.message

/-- What lies underneath an error. -/
def causes : StagingError → List String
  | emptyCorpus _ => []
  | io _ fault => [fault.message]

end StagingError

/-- The mark in the name of a seed that raised the coverage. -/
def coverageMark : String := "+cov"

/-- The mark in the name of a seed that stems from the operator. -/
def originMark : String := "orig"

/-- Whether a name carries a mark. -/
def carries (mark name : String) : Bool := (Text.cutAt mark.toList name.toList).isSome

/-- Whether a seed is staged for a round. -/
def isStaged (round : Nat) (name : String) : Bool :=
  decide (round ≤ 1) || carries coverageMark name || carries originMark name

/-- The name of a staged seed, numbered from one. -/
def stagedName (number : Nat) : String := "seed_" ++ toString number

section

variable {σ : Type} (files : FileSystem σ)

/-- The names of the regular files directly inside a directory, in ascending order.
Whatever else is there is left out. -/
def sortedFileNames (dir : Path) : Action σ Fault (List String) := do
  let names ← files.entryNames dir
  let regular ← Action.observe fun world =>
    names.filter fun name => files.isFile (dir.join name) world
  return regular.mergeSort fun a b => decide (a ≤ b)

/-- Copy files of one directory under new names into another. -/
def copyAll (source target : Path) : List (String × String) → Action σ StagingError Unit
  | [] => pure ()
  | (name, newName) :: rest => do
    (files.copy (source.join name) (target.join newName)).orFail (.io (target.join newName))
    copyAll source target rest

/-- Copy the operator's corpus and count its seeds. -/
def importCorpus (source target : Path) : Action σ StagingError Nat := do
  if ← Action.observe (files.isDirectory source) then
    (files.createDirectories target).orFail (.io target)
    let names ← (sortedFileNames files source).orFail (.io source)
    if names.isEmpty then throw (.emptyCorpus source)
    copyAll files source target (names.map fun name => (name, name))
    return names.length
  else throw (.emptyCorpus source)

/-- The seeds of a round with the names that they are staged under. -/
def stagedSeeds (round : Nat) (names : List String) : List (String × String) :=
  ((names.filter (isStaged round)).zipIdx 1).map fun (name, number) => (name, stagedName number)

/-- Stage the seeds of a round and count them.  A directory that is missing has
no seeds. -/
def stageSeeds (source target : Path) (round : Nat) : Action σ StagingError Nat := do
  (files.createDirectories target).orFail (.io target)
  if ← Action.observe (files.isDirectory source) then
    let names ← (sortedFileNames files source).orFail (.io source)
    let seeds := stagedSeeds round names
    copyAll files source target seeds
    return seeds.length
  else return 0

/-- What a finished round leaves behind: the dumps of the graph, its tasks and
seeds, and the directories and logs of its workers. -/
def artifacts (layout : Layout) (round workers : Nat) : List Path :=
  [layout.callGraphDot, layout.callGraphJson, layout.tasks, layout.seeds] ++
    (List.range' 1 workers).flatMap fun index =>
      [layout.workerDir (workerName index round workers),
       layout.workerLog (workerName index round workers)]

/-- Move whatever is there of a list of artifacts into a directory. -/
def moveAll (target : Path) : List Path → Action σ StagingError Unit
  | [] => pure ()
  | item :: rest => do
    match item.fileName? with
    | some name =>
      if ← Action.observe (files.isPresent item) then
        (files.move item (target.join name)).orFail (.io item)
    | none => pure ()
    moveAll target rest

/-- Move the artifacts of a finished round into its backup directory, which is the
answer. -/
def rotateArtifacts (layout : Layout) (round workers : Nat) : Action σ StagingError Path := do
  let backup := layout.backupDir round
  (files.createDirectories backup).orFail (.io backup)
  moveAll files backup (artifacts layout round workers)
  return backup

end

/-- Seeds are staged in the order of their names, and all of them in the first
round. -/
theorem map_fst_stagedSeeds (round : Nat) (names : List String) :
    (stagedSeeds round names).map Prod.fst = names.filter (isStaged round) := by
  simp [stagedSeeds, Function.comp_def, List.zipIdx_map_fst]

end FuzzCampaign

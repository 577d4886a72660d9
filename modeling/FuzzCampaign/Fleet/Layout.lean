import FuzzCampaign.Storage.FileSystem

/-!
# The layout of an output directory

```text
out/active_runs/            shared by the whole fleet
    seeds_origin/           copy of the operator's corpus
    seeds/                  seeds staged for the current round
    tasks/                  task_<n>.txt and msa.dot
    monitor/queue/          the queue of the monitor
    fuzzer_<n>/, fuzzer_<n>.log
    callgraph.dot, callgraph.json
out/backup_round_<r>/       artifacts of the finished round r
```

Main results:

- `workerNumber_injective`: no two workers of a campaign share a number.
-/

namespace FuzzCampaign

/-- The name of the long-lived generic worker. -/
def monitorName : String := "monitor"

/-- The number of the `index`-th round worker of a round, both counted from
one, when every round has `workers` of them. -/
def workerNumber (index round workers : Nat) : Nat := index + workers * (round - 1)

/-- The name of the `index`-th round worker of a round. -/
def workerName (index round workers : Nat) : String :=
  "fuzzer_" ++ toString (workerNumber index round workers)

/-- No two round workers of a campaign share a number. -/
theorem workerNumber_injective {i j r s workers : Nat} (hi : 1 ≤ i ∧ i ≤ workers)
    (hj : 1 ≤ j ∧ j ≤ workers) (hr : 1 ≤ r) (hs : 1 ≤ s)
    (h : workerNumber i r workers = workerNumber j s workers) : i = j ∧ r = s := by
  simp only [workerNumber] at h
  have hrs : r - 1 = s - 1 := by
    have key : ∀ a b x y : Nat, 1 ≤ x → x ≤ workers → 1 ≤ y → y ≤ workers →
        x + workers * a = y + workers * b → a ≤ b := by
      intro a b x y hx1 hx2 hy1 hy2 heq
      refine Nat.le_of_lt_succ (Nat.lt_of_mul_lt_mul_left (a := workers) ?_)
      rw [Nat.mul_succ]
      omega
    exact Nat.le_antisymm (key _ _ i j hi.1 hi.2 hj.1 hj.2 h)
      (key _ _ j i hj.1 hj.2 hi.1 hi.2 h.symm)
  rw [hrs] at h
  omega

/-- Where a campaign keeps its files. -/
structure Layout where
  outDir : Path
  deriving Repr, DecidableEq

namespace Layout

/-- The directory shared by the whole fleet. -/
def activeRuns (l : Layout) : Path := l.outDir.join "active_runs"

/-- The copy of the operator's corpus. -/
def seedsOrigin (l : Layout) : Path := l.activeRuns.join "seeds_origin"

/-- The seeds staged for the current round. -/
def seeds (l : Layout) : Path := l.activeRuns.join "seeds"

/-- The task files of the current round. -/
def tasks (l : Layout) : Path := l.activeRuns.join "tasks"

/-- The queue of the monitor. -/
def monitorQueue (l : Layout) : Path := (l.activeRuns.join monitorName).join "queue"

/-- The call graph of the current round in the DOT language. -/
def callGraphDot (l : Layout) : Path := l.activeRuns.join "callgraph.dot"

/-- The snapshot of the call graph of the current round. -/
def callGraphJson (l : Layout) : Path := l.activeRuns.join "callgraph.json"

/-- The tree that the tasks of the current round were cut from. -/
def treeDot (l : Layout) : Path := l.tasks.join "msa.dot"

/-- The output directory of a worker. -/
def workerDir (l : Layout) (name : String) : Path := l.activeRuns.join name

/-- The log of a worker. -/
def workerLog (l : Layout) (name : String) : Path := l.activeRuns.join (name ++ ".log")

/-- The log of the monitor. -/
def monitorLog (l : Layout) : Path := l.workerLog monitorName

/-- The directory that receives the artifacts of a finished round. -/
def backupDir (l : Layout) (round : Nat) : Path :=
  l.outDir.join ("backup_round_" ++ toString round)

/-- The file of the task with a number, counted from one, inside a directory. -/
def taskFile (dir : Path) (number : Nat) : Path :=
  dir.join ("task_" ++ toString number ++ ".txt")

/-- Create the directories that have to exist before the monitor starts. -/
def create {σ : Type} (l : Layout) (files : FileSystem σ) : Action σ Fault Unit := do
  files.createDirectories l.seedsOrigin
  files.createDirectories l.seeds
  files.createDirectories l.tasks

end Layout

end FuzzCampaign

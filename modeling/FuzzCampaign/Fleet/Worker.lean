import FuzzCampaign.Config.Settings

/-!
# Workers and their commands

A worker is a running process; what is needed to start one is its
specification.

The monitor runs the generic fuzzer on the operator's corpus for the whole
campaign.  The workers of a round run on the seeds staged for it: generic ones
while the campaign scans, and workers bound to a task file each while it
exploits.

Main definitions:

- `WorkerSpec.commandLine`: how a specification is shown.
- `WorkerError`: why a worker could not be started or stopped.
-/

namespace FuzzCampaign

/-! ## Workers -/

/-- Everything needed to start a worker. -/
structure WorkerSpec where
  name : String
  program : Path
  args : List String
  workingDir : Option Path := none
  /-- Where the worker's output goes. -/
  logFile : Option Path := none
  deriving Repr, DecidableEq

/-- The program and its arguments, with a space between any two. -/
def WorkerSpec.commandLine (spec : WorkerSpec) : String :=
  " ".intercalate (spec.program.text :: spec.args)

/-- A running worker. -/
structure Worker where
  name : String
  /-- The number of its process. -/
  pid : Nat
  deriving Repr, DecidableEq

/-- Why a worker could not be started or stopped. -/
inductive WorkerError where
  | spawn (name : String) (program : Path) (fault : Fault)
  | logFile (name : String) (path : Path) (fault : Fault)
  | signal (name : String) (pid : Nat) (fault : Fault)
  | wait (name : String) (pid : Nat) (fault : Fault)
  deriving Repr, DecidableEq

namespace WorkerError

/-- What failed underneath. -/
def fault : WorkerError → Fault
  | spawn _ _ fault => fault
  | logFile _ _ fault => fault
  | signal _ _ fault => fault
  | wait _ _ fault => fault

/-- The wording of a worker error. -/
def message : WorkerError → String
  | spawn name program fault =>
    "Failed to spawn worker '" ++ name ++ "' (" ++ program.text ++ "): " ++ fault.message
  | logFile name path fault =>
    "Failed to open log file " ++ path.text ++ " for worker '" ++ name ++ "': " ++ fault.message
  | signal name pid fault =>
    "Failed to signal worker '" ++ name ++ "' (pid " ++ toString pid ++ "): " ++ fault.message
  | wait name pid fault =>
    "Error waiting for worker '" ++ name ++ "' (pid " ++ toString pid ++ "): " ++ fault.message

end WorkerError

/-! ## The commands of the fleet -/

/-- What the commands of a fleet depend on. -/
structure Fleet where
  layout : Layout
  fuzzer : FuzzerSettings
  roundWorkers : Nat
  deriving Repr, DecidableEq

/-- The fleet of a campaign. -/
def Settings.fleet (s : Settings) : Fleet := ⟨s.layout, s.fuzzer, s.roundWorkers⟩

namespace Fleet

/-- The title of the monitor's status screen. -/
def monitorBanner : String := "teamfuzz-monitor"

/-- The arguments that all workers share. -/
def commonArgs (f : Fleet) : List String :=
  ["-m", f.fuzzer.memoryLimit, "-t", f.fuzzer.execTimeout] ++
    (match f.fuzzer.dictionary with
     | some dictionary => ["-x", dictionary.text]
     | none => []) ++
    ["-o", f.layout.activeRuns.text]

/-- The arguments that name the program under test. -/
def targetArgs (f : Fleet) (binary : Path) : List String :=
  ["--", binary.text] ++ f.fuzzer.preArgs ++ ["@@"] ++ f.fuzzer.postArgs

/-- The monitor. -/
def monitor (f : Fleet) : WorkerSpec where
  name := monitorName
  program := f.fuzzer.genericFuzzer
  args := f.commonArgs ++
    ["-i", f.layout.seedsOrigin.text, "-S", monitorName, "-T", monitorBanner] ++
    f.targetArgs f.fuzzer.genericBinary
  logFile := some f.layout.monitorLog

/-- The name of a round worker. -/
def nameOf (f : Fleet) (index round : Nat) : String := workerName index round f.roundWorkers

/-- A round worker that scans. -/
def scanning (f : Fleet) (index round : Nat) : WorkerSpec where
  name := f.nameOf index round
  program := f.fuzzer.genericFuzzer
  args := f.commonArgs ++ ["-i", f.layout.seeds.text, "-S", f.nameOf index round] ++
    f.targetArgs f.fuzzer.genericBinary
  logFile := some (f.layout.workerLog (f.nameOf index round))

/-- A round worker that is bound to the task of its index. -/
def taskBound (f : Fleet) (index round : Nat) : WorkerSpec where
  name := f.nameOf index round
  program := f.fuzzer.taskFuzzer
  args := f.commonArgs ++ ["-i", f.layout.seeds.text, "-S", f.nameOf index round,
    "-p", (Layout.taskFile f.layout.tasks index).text] ++ f.targetArgs f.fuzzer.taskBinary
  logFile := some (f.layout.workerLog (f.nameOf index round))

/-- A round worker, by the phase of the round. -/
def roundWorker (f : Fleet) (phase : Phase) (index round : Nat) : WorkerSpec :=
  match phase with
  | .scanning => f.scanning index round
  | .exploiting => f.taskBound index round

@[simp] theorem name_roundWorker (f : Fleet) (phase : Phase) (index round : Nat) :
    (f.roundWorker phase index round).name = f.nameOf index round := by
  cases phase <;> rfl

end Fleet

end FuzzCampaign

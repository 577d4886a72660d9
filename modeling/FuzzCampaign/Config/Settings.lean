import FuzzCampaign.Campaign.State
import FuzzCampaign.Partition.Plan

/-!
# Settings and schedules

What an operator decides before a campaign starts.  Times are whole seconds or
whole milliseconds, as their names say.

A campaign scans once and then exploits in rounds of equal length.  Its settings
are accepted when the fleet has a monitor and a round worker, no timeout is
zero, and the exploitation rounds fill the time that scanning leaves.  The
number of rounds is kept in 32 bits.

Main definitions:

- `Settings`: the four sections.
- `Settings.roundWorkers`: how many workers of the fleet belong to a round.
- `ProfilingSettings.callLogPath`: where the call log is looked for.

Main results:

- `exploitationRounds_eq_ok_iff`: which settings are accepted, and with how many
  rounds.
-/

namespace FuzzCampaign

/-! ## The settings of a campaign -/

/-- How the rounds of a campaign are run. -/
structure CampaignSettings where
  outDir : Path
  seedCorpus : Path
  /-- The size of the fleet, the monitor included. -/
  workerCount : Nat
  totalSeconds : Nat
  scanningSeconds : Nat
  exploitationSeconds : Nat
  /-- The pause between two launches. -/
  staggerMillis : Nat := 5000
  strategy : Strategy := .tree
  scoreCap : ScoreCap := .none
  /-- The function that every call path starts from. -/
  entryFunction : String := "main"
  logFile : Option Path := none
  deriving Repr, DecidableEq

/-- The files that describe the program under test. -/
structure InputSettings where
  callGraph : Path
  sourceIndex : Path
  blockIndex : Path
  deriving Repr, DecidableEq

/-- The fuzzers and what they are started with. -/
structure FuzzerSettings where
  /-- The fuzzer of the monitor and of scanning workers. -/
  genericFuzzer : Path := ⟨"afl-fuzz"⟩
  /-- The fuzzer of workers that are bound to a task. -/
  taskFuzzer : Path := ⟨"horse-fuzz"⟩
  /-- The program under test, built for the generic fuzzer. -/
  genericBinary : Path
  /-- The program under test, built for the task fuzzer. -/
  taskBinary : Path
  dictionary : Option Path := none
  memoryLimit : String := "1G"
  execTimeout : String := "20000+"
  /-- Arguments of the program under test in front of its input. -/
  preArgs : List String := []
  /-- Arguments of the program under test behind its input. -/
  postArgs : List String := []
  deriving Repr, DecidableEq

/-- How seeds are profiled. -/
structure ProfilingSettings where
  profilingBinary : Path
  coverageBinary : Path
  coverageFolder : Path
  coverageScript : Path := ⟨"run-gcov.sh"⟩
  callLog : Option Path := none
  seedTimeoutMillis : Nat := 5000
  deriving Repr, DecidableEq

/-- Where the call log is looked for: in a directory named for the profiling
binary, unless the operator says otherwise. -/
def ProfilingSettings.callLogPath (p : ProfilingSettings) : Path :=
  match p.callLog with
  | some path => path
  | none =>
    ((⟨"/tmp"⟩ : Path).join (p.profilingBinary.fileName?.getD "target")).join
      "covered_functions.log"

/-- All settings of a campaign. -/
structure Settings where
  campaign : CampaignSettings
  inputs : InputSettings
  fuzzer : FuzzerSettings
  profiling : ProfilingSettings
  deriving Repr, DecidableEq

namespace Settings

/-- How many workers belong to a round: all of the fleet but the monitor. -/
def roundWorkers (s : Settings) : Nat := s.campaign.workerCount - 1

/-- Where the campaign keeps its files. -/
def layout (s : Settings) : Layout := ⟨s.campaign.outDir⟩

/-- How long the workers of a phase run, in milliseconds. -/
def phaseMillis (s : Settings) : Phase → Nat
  | .scanning => 1000 * s.campaign.scanningSeconds
  | .exploiting => 1000 * s.campaign.exploitationSeconds

end Settings

/-! ## Schedules -/

/-- The timeouts of a campaign. -/
inductive Timeout where
  | total | scanning | exploitation
  deriving Repr, DecidableEq

/-- The name of a timeout among the settings. -/
def Timeout.field : Timeout → String
  | total => "total-timeout-secs"
  | scanning => "scanning-timeout-secs"
  | exploitation => "exploitation-timeout-secs"

/-- Why settings were not accepted. -/
inductive ScheduleError where
  | tooFewWorkers (workers : Nat)
  | zeroTimeout (timeout : Timeout)
  | scanningExceedsTotal (scanning total : Nat)
  | fractionalRounds (remaining exploitation : Nat)
  deriving Repr, DecidableEq

/-- The wording of a schedule error. -/
def ScheduleError.message : ScheduleError → String
  | tooFewWorkers workers =>
    "worker-count must be at least 2 (one monitor plus round workers), got " ++ toString workers
  | zeroTimeout timeout => timeout.field ++ " must be greater than zero"
  | scanningExceedsTotal scanning total =>
    "scanning-timeout-secs (" ++ toString scanning ++ ") exceeds total-timeout-secs (" ++
      toString total ++ ")"
  | fractionalRounds remaining exploitation =>
    "total minus scanning time (" ++ toString remaining ++ "s) is not a whole number of " ++
      toString exploitation ++ "s exploitation rounds"

/-- The time that scanning leaves for exploitation. -/
def CampaignSettings.remainingSeconds (c : CampaignSettings) : Nat :=
  c.totalSeconds - c.scanningSeconds

/-- The number of exploitation rounds, or why the settings are not accepted. -/
def CampaignSettings.exploitationRounds (c : CampaignSettings) : Except ScheduleError Nat :=
  if c.workerCount < 2 then .error (.tooFewWorkers c.workerCount)
  else if c.totalSeconds = 0 then .error (.zeroTimeout .total)
  else if c.scanningSeconds = 0 then .error (.zeroTimeout .scanning)
  else if c.exploitationSeconds = 0 then .error (.zeroTimeout .exploitation)
  else if c.totalSeconds < c.scanningSeconds then
    .error (.scanningExceedsTotal c.scanningSeconds c.totalSeconds)
  else if c.remainingSeconds % c.exploitationSeconds = 0 then
    .ok (c.remainingSeconds / c.exploitationSeconds % 4294967296)
  else .error (.fractionalRounds c.remainingSeconds c.exploitationSeconds)

/-- Settings are accepted exactly when there are enough workers, all timeouts are
positive, and scanning and a whole number of rounds fill the total time. -/
theorem CampaignSettings.exploitationRounds_eq_ok_iff {c : CampaignSettings} {rounds : Nat} :
    c.exploitationRounds = .ok rounds ↔
      2 ≤ c.workerCount ∧ 0 < c.totalSeconds ∧ 0 < c.scanningSeconds ∧
        0 < c.exploitationSeconds ∧
        ∃ n, c.scanningSeconds + n * c.exploitationSeconds = c.totalSeconds ∧
          rounds = n % 4294967296 := by
  unfold exploitationRounds
  constructor
  · intro h
    split at h; · cases h
    split at h; · cases h
    split at h; · cases h
    split at h; · cases h
    split at h; · cases h
    split at h
    · rename_i hw ht hs he hle hmod
      refine ⟨by omega, by omega, by omega, by omega,
        c.remainingSeconds / c.exploitationSeconds, ?_, ?_⟩
      · rw [Nat.div_mul_cancel (Nat.dvd_of_mod_eq_zero hmod)]
        unfold remainingSeconds
        omega
      · exact (Except.ok.inj h).symm
    · cases h
  · rintro ⟨hw, ht, hs, he, n, hn, rfl⟩
    have hrem : c.remainingSeconds = n * c.exploitationSeconds := by
      unfold remainingSeconds
      omega
    have hle : ¬ c.totalSeconds < c.scanningSeconds := by
      have := Nat.le_add_right c.scanningSeconds (n * c.exploitationSeconds)
      omega
    rw [if_neg (by omega), if_neg (by omega), if_neg (by omega), if_neg (by omega), if_neg hle]
    simp only [hrem]
    rw [if_pos (Nat.mul_mod_left n _), Nat.mul_div_cancel n he]

end FuzzCampaign

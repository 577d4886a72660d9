import FuzzCampaign.Campaign.Run
import FuzzCampaign.Host.System

/-!
# The crew of a host

Workers are processes of a system.  Both streams of a worker go to its log, which is
opened before anything else.  A worker that is still running is asked to stop and waited
for.

A pause is slept in short slices, so that a request to stop is noticed soon.

Every seed is run by the profiling binary and by the coverage binary; then a script
summarises the coverage.  The binaries get a limited time for each seed, and how they end
does not matter.

Main definitions:

- `System.launch`, `System.terminate` and `System.pause`.
- `Profiler.profile`.
- `System.crew`.

Main results:

- `le_clock_of_pause`: a pause that is not cut short lasts as long as it should.
- `lt_clock_of_runProgram`: no program is killed on a seed before its time is over.
-/

namespace FuzzCampaign

namespace System

variable {σ : Type} (sys : System σ)

/-! ## Workers -/

/-- Where the output of a worker goes. -/
def outputOf (spec : WorkerSpec) : Action σ WorkerError Sink :=
  match spec.logFile with
  | some path => (Sink.opened <$> sys.createFile path : Action σ Fault Sink).orFail
      (.logFile spec.name path)
  | none => return .inherited

/-- Start the process of a worker. -/
def launch (spec : WorkerSpec) : Action σ WorkerError Worker := do
  let output ← sys.outputOf spec
  let pid ← (sys.spawn ⟨spec.program, spec.args, spec.workingDir, output⟩).orFail
    (.spawn spec.name spec.program)
  return ⟨spec.name, pid⟩

/-- Ask a worker to stop.  One that has just ended need not be asked. -/
def signal (worker : Worker) : Action σ WorkerError Unit := fun w =>
  match sys.askToStop worker.pid w with
  | (.ok _, w) => (.ok (), w)
  | (.error .noProcess, w) => (.ok (), w)
  | (.error fault, w) => (.error (.signal worker.name worker.pid fault), w)

/-- Stop a worker, and wait until it has ended. -/
def terminate (worker : Worker) : Action σ WorkerError Unit := do
  let ended ← (sys.hasEnded worker.pid).orFail (.wait worker.name worker.pid)
  unless ended do
    sys.signal worker
    (sys.awaitEnd worker.pid).orFail (.wait worker.name worker.pid)

/-! ## Pauses -/

/-- The length of a slice of a pause. -/
def sliceMicros : Nat := 200 * 1000

/-- Sleep slice by slice until a deadline, and look for a request to stop before each slice
and at the end.  There are at most so many slices. -/
def sleepUntil (deadline : Nat) : Nat → σ → Bool × σ
  | 0, w => (!sys.isInterrupted w, w)
  | slices + 1, w =>
    if sys.isInterrupted w then (false, w)
    else if deadline ≤ sys.clock w then (true, w)
    else sleepUntil deadline slices (sys.sleep (min sliceMicros (deadline - sys.clock w)) w)

/-- Pause for some milliseconds.  The answer tells whether nobody has interrupted. -/
def pause (millis : Nat) (w : σ) : Bool × σ :=
  sys.sleepUntil (sys.clock w + millis * 1000) (millis * 1000 / sliceMicros + 1) w

variable {sys}

/-- With enough slices the deadline is reached, unless there is an interruption. -/
theorem le_clock_of_sleepUntil (h : sys.IsPunctual) {deadline slices : Nat} {w w' : σ}
    (hslices : deadline ≤ sys.clock w + slices * sliceMicros)
    (hsleep : sys.sleepUntil deadline slices w = (true, w')) : deadline ≤ sys.clock w' := by
  induction slices generalizing w with
  | zero =>
    obtain rfl : w = w' := congrArg Prod.snd hsleep
    simpa using hslices
  | succ slices ih =>
    rw [sleepUntil] at hsleep
    split at hsleep
    · cases hsleep
    · split at hsleep
      · next hreached =>
        cases hsleep
        exact hreached
      · refine ih ?_ hsleep
        have hslept := h.sleep (min sliceMicros (deadline - sys.clock w)) w
        rw [Nat.succ_mul] at hslices
        omega

/-- A pause that is not cut short lasts at least as long as was asked for. -/
theorem le_clock_of_pause (h : sys.IsPunctual) {millis : Nat} {w w' : σ}
    (hpause : sys.pause millis w = (true, w')) : sys.clock w + millis * 1000 ≤ sys.clock w' := by
  refine le_clock_of_sleepUntil h ?_ hpause
  have hslices := Nat.lt_mul_div_succ (millis * 1000) (show 0 < sliceMicros by decide)
  rw [Nat.mul_comm sliceMicros] at hslices
  omega

end System

/-! ## Profiling -/

/-- What seeds are profiled with. -/
structure Profiler where
  settings : ProfilingSettings
  preArgs : List String := []
  postArgs : List String := []
  deriving Repr, DecidableEq

/-- The profiler that settings describe. -/
def Settings.profiler (s : Settings) : Profiler :=
  ⟨s.profiling, s.fuzzer.preArgs, s.fuzzer.postArgs⟩

/-- How the run of a program on a seed ended. -/
inductive RunOutcome where
  | exited
  | timedOut
  deriving Repr, DecidableEq

namespace Profiler

variable {σ : Type} (sys : System σ) (p : Profiler)

/-- The file in which the script leaves its summary. -/
def summaryName : String := "gcov.log"

/-- How long a seed is left alone before it is looked at again. -/
def lookMicros : Nat := 50 * 1000

/-- How long a seed may run. -/
def patienceMicros : Nat := p.settings.seedTimeoutMillis * 1000

/-- End a process and forget it, whatever comes of it. -/
def dismiss (pid : Nat) (w : σ) : σ := (sys.awaitEnd pid (sys.kill pid w).2).2

/-- Look after a process that has started at some time, until it has ended or its time is
over.  There are at most so many looks before the last one. -/
def attend (program : Path) (pid start : Nat) : Nat → Action σ ProfileError RunOutcome
  | 0 => fun w =>
    match sys.hasEnded pid w with
    | (.error fault, w) => (.error (.wait program fault), w)
    | (.ok true, w) => (.ok .exited, w)
    | (.ok false, w) => (.ok .timedOut, dismiss sys pid w)
  | looks + 1 => fun w =>
    match sys.hasEnded pid w with
    | (.error fault, w) => (.error (.wait program fault), w)
    | (.ok true, w) => (.ok .exited, w)
    | (.ok false, w) =>
      if start + p.patienceMicros < sys.clock w then (.ok .timedOut, dismiss sys pid w)
      else attend program pid start looks (sys.sleep lookMicros w)

/-- How a program is run on a seed. -/
def command (program seed : Path) : Command where
  program := program
  args := p.preArgs ++ [seed.text] ++ p.postArgs

/-- Run a program on a seed. -/
def runProgram (program seed : Path) : Action σ ProfileError RunOutcome := fun w =>
  match sys.spawn (p.command program seed) w with
  | (.error fault, w) => (.error (.spawn program fault), w)
  | (.ok pid, w) =>
    p.attend sys program pid (sys.clock w) (p.patienceMicros / lookMicros + 1) w

/-- Run both binaries on a seed. -/
def runSeed (seed : Path) : Action σ ProfileError Unit :=
  [p.settings.profilingBinary, p.settings.coverageBinary].forM fun program => do
    let _ ← p.runProgram sys program seed

/-- Let the script summarise the coverage. -/
def summarise : Action σ ProfileError Unit := do
  let script := p.settings.coverageScript
  let pid ← (sys.spawn { program := script, args := [p.settings.coverageFolder.text] }).orFail
    (.spawn script)
  (sys.awaitEnd pid).orFail (.spawn script)

/-- Remove the call log of an earlier pass. -/
def clearCallLog : Action σ ProfileError Unit := fun w =>
  match sys.removeFile p.settings.callLogPath w with
  | (.ok _, w) => (.ok (), w)
  | (.error .notFound, w) => (.ok (), w)
  | (.error fault, w) => (.error (.io p.settings.callLogPath fault), w)

/-- The text of a file; a missing file is empty. -/
def readOrEmpty (path : Path) : Action σ ProfileError String := fun w =>
  match sys.files.readText path w with
  | (.ok text, w) => (.ok text, w)
  | (.error .notFound, w) => (.ok "", w)
  | (.error fault, w) => (.error (.io path fault), w)

/-- Run all seeds, and collect what they show. -/
def profile (seeds : List Path) : Action σ ProfileError ProfileOutput := do
  p.clearCallLog sys
  seeds.forM (p.runSeed sys)
  p.summarise sys
  let callLog ← readOrEmpty sys p.settings.callLogPath
  let report ← readOrEmpty sys (p.settings.coverageFolder.join summaryName)
  return ⟨callLog, report⟩

variable {sys p}

/-- A process is not killed before its time is over. -/
theorem lt_clock_of_attend (h : sys.IsPunctual) {program : Path} {pid start looks : Nat}
    {w w' : σ} (hlooks : start + p.patienceMicros < sys.clock w + looks * lookMicros)
    (hattend : p.attend sys program pid start looks w = (.ok .timedOut, w')) :
    ∃ v, start + p.patienceMicros < sys.clock v ∧ w' = dismiss sys pid v := by
  induction looks generalizing w with
  | zero =>
    have hlook := h.look pid w
    simp only [attend] at hattend
    split at hattend
    · cases hattend
    · cases hattend
    · next v hended =>
      cases hattend
      replace hlook : sys.clock w ≤ sys.clock v := by rwa [hended] at hlook
      exact ⟨v, by omega, rfl⟩
  | succ looks ih =>
    have hlook := h.look pid w
    simp only [attend] at hattend
    split at hattend
    · cases hattend
    · cases hattend
    · next v hended =>
      replace hlook : sys.clock w ≤ sys.clock v := by rwa [hended] at hlook
      split at hattend
      · next hover =>
        cases hattend
        exact ⟨v, hover, rfl⟩
      · refine ih ?_ hattend
        have hslept := h.sleep lookMicros v
        rw [Nat.succ_mul] at hlooks
        omega

/-- A program that is killed on a seed had all the time that a seed may take. -/
theorem lt_clock_of_runProgram (h : sys.IsPunctual) {program seed : Path} {w w' : σ}
    (hrun : p.runProgram sys program seed w = (.ok .timedOut, w')) :
    ∃ pid started v, sys.spawn (p.command program seed) w = (.ok pid, started) ∧
      sys.clock started + p.patienceMicros < sys.clock v ∧ w' = dismiss sys pid v := by
  rw [runProgram] at hrun
  split at hrun
  · cases hrun
  · next pid started hspawn =>
    have hlooks := Nat.lt_mul_div_succ p.patienceMicros (show 0 < lookMicros by decide)
    rw [Nat.mul_comm] at hlooks
    obtain ⟨v, hover, hdismiss⟩ := lt_clock_of_attend h (by omega) hrun
    exact ⟨pid, started, v, hspawn, hover, hdismiss⟩

end Profiler

/-! ## The crew -/

/-- The crew of a host. -/
def System.crew {σ : Type} (sys : System σ) (profiler : Profiler) : Crew σ where
  files := sys.files
  launch := sys.launch
  terminate := sys.terminate
  pause := sys.pause
  profile := profiler.profile sys

end FuzzCampaign

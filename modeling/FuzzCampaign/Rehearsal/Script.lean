import FuzzCampaign.Campaign.Run
import FuzzCampaign.Storage.FileTree

/-!
# Rehearsals

A campaign can be rehearsed on a tree of files, without any process.  A script
says which launches, stops and profiling passes fail, what the other passes
yield, and what happens to the files during pauses, which take no time.  A
worker that is launched leaves a line in its log.

Main definitions:

- `Script`, and `Script.crew`, which follows it.
-/

namespace FuzzCampaign

/-- In which way a worker fails. -/
inductive WorkerFailure where
  | spawn | logFile | signal | wait
  deriving Repr, DecidableEq

/-- The fault of all failures in a script. -/
def scriptedFault : Fault := .reported "scripted failure"

/-- The number of every process in a rehearsal. -/
def rehearsedPid : Nat := 7

/-- The error of a worker that fails, which shows its program. -/
def WorkerFailure.error (failure : WorkerFailure) (name : String) (program : Path) : WorkerError :=
  match failure with
  | spawn => .spawn name program scriptedFault
  | logFile => .logFile name program scriptedFault
  | signal => .signal name rehearsedPid scriptedFault
  | wait => .wait name rehearsedPid scriptedFault

/-- What happens during a pause. -/
structure Cue where
  /-- The number of the pause, counted from one. -/
  number : Nat
  remove : List Path := []
  add : List (Path × Option FileBody) := []
  interrupts : Bool := false

/-- What a crew does in a rehearsal. -/
structure Script where
  /-- What profiling passes yield, one after the other; the last one is repeated. -/
  passes : List (Except ProfileError ProfileOutput) := []
  launchFailures : List (String × WorkerFailure) := []
  stopFailures : List (String × WorkerFailure) := []
  cues : List Cue := []

/-- The world of a rehearsal. -/
structure Rehearsal where
  files : FileTree
  /-- What the coming passes yield. -/
  passes : List (Except ProfileError ProfileOutput)
  /-- How many pauses there were. -/
  pauses : Nat := 0

namespace Rehearsal

/-- Change the files of a rehearsal. -/
def mapFiles (f : FileTree → FileTree) (r : Rehearsal) : Rehearsal := { r with files := f r.files }

/-- Give the next profiling pass. -/
def profile : Action Rehearsal ProfileError ProfileOutput := fun r =>
  match r.passes with
  | [] => (.ok {}, r)
  | [last] => (last, r)
  | next :: later => (next, { r with passes := later })

/-- Leave a line in the log of a worker, where that is possible. -/
def writeLog (spec : WorkerSpec) (t : FileTree) : FileTree :=
  match spec.logFile with
  | some log => (t.write log ("log of " ++ spec.name ++ "\n").toUTF8).toOption.getD t
  | none => t

end Rehearsal

/-- Apply a cue to the files: removals first. -/
def Cue.apply (cue : Cue) (t : FileTree) : FileTree :=
  cue.add.foldl (fun t (path, body) => t.plant path body) (cue.remove.foldl FileTree.removeAll t)

namespace Script

/-- Launch a worker in a rehearsal. -/
def launch (s : Script) (spec : WorkerSpec) : Action Rehearsal WorkerError Worker := fun r =>
  match s.launchFailures.lookup spec.name with
  | some failure => (.error (failure.error spec.name spec.program), r)
  | none => (.ok ⟨spec.name, rehearsedPid⟩, r.mapFiles (Rehearsal.writeLog spec))

/-- Stop a worker in a rehearsal. -/
def terminate (s : Script) (worker : Worker) : Action Rehearsal WorkerError Unit := fun r =>
  match s.stopFailures.lookup worker.name with
  | some failure => (.error (failure.error worker.name ⟨worker.name⟩), r)
  | none => (.ok (), r)

/-- Pause in a rehearsal. -/
def pause (s : Script) (r : Rehearsal) : Bool × Rehearsal :=
  let number := r.pauses + 1
  let cues := s.cues.filter (·.number == number)
  (!cues.any (·.interrupts),
    { r with pauses := number, files := cues.foldl (fun t cue => cue.apply t) r.files })

/-- A crew that follows a script. -/
def crew (s : Script) : Crew Rehearsal where
  files := FileTree.fileSystem.within (·.files) fun files r => { r with files := files }
  launch := s.launch
  terminate := s.terminate
  pause := fun _ => s.pause
  profile := fun _ => Rehearsal.profile

end Script

end FuzzCampaign

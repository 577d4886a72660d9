import FuzzCampaign.Host.System
import FuzzCampaign.Storage.FileTree

/-!
# Machines

A machine is a system in small: a tree of files, a clock and some processes.  The programs
are those of others, so what they do is a parameter: from a state a program does something
to the files, and then it has ended or sleeps for a while in another state.

Only sleeping and waiting take time.  Programs take their steps in the order in which they
are due.

Main definitions:

- `Programs`: what the programs of others do; `Programs.none`, if there are none.
- `Machine`, and `Machine.system`: the operations of its system.

Main results:

- `isPunctual_system`: a machine tells the time properly.
-/

namespace FuzzCampaign

/-- What the programs of others do.  A program that runs is in a state of type `π`. -/
structure Programs (π : Type) where
  /-- How the program of a name begins on arguments in a directory, if there is one.  Its output
  goes to a file, if anywhere. -/
  start? : String → Option (List String → Place → Option Place → π)
  /-- What a program does to the files, and for how many microseconds it sleeps then in which
  state; `none` when it has ended. -/
  step : FileTree → π → FileTree × Option (Nat × π)
  /-- What becomes of a program that is asked to stop; `none` when it ends. -/
  onStop : π → Option π

namespace Programs

/-- No programs at all. -/
def none : Programs Empty where
  start? _ := .none
  step _ state := nomatch state
  onStop state := nomatch state

variable {π : Type} (programs : Programs π)

/-- Where programs are found. -/
def searchPlaces : List Place := [["bin"], ["usr", "bin"]]

/-- The program that a script names in its first line as its interpreter, and the argument
that it gets in front of the script, if any. -/
def interpreter? (content : ByteArray) : Option (Path × List String) := do
  match (← String.fromUTF8? content).toList with
  | '#' :: '!' :: rest =>
    let line := (rest.takeWhile (· != '\n')).dropWhile (· == ' ')
    let name := line.takeWhile (· != ' ')
    let argument := (line.drop name.length).dropWhile (· == ' ')
    if name.isEmpty then .none
    else some (⟨String.ofList name⟩, if argument.isEmpty then [] else [String.ofList argument])
  | _ => .none

/-- How many scripts may interpret each other. -/
def longestChain : Nat := 5

/-- The program that a path leads to among some files, and what is put in front of its
arguments.  A name without a slash is looked for among the programs. -/
def find (t : FileTree) :
    Nat → Path → Except Fault ((List String → Place → Option Place → π) × List String)
  | 0, _ => .error .execFormat
  | chain + 1, path =>
    let name := path.parts.getLast?.getD ""
    if path.text.isEmpty then .error .notFound
    else if FileTree.longestName < name.utf8ByteSize then .error .nameTooLong
    else if path.parts.length = 1 ∧ !path.text.toList.contains '/' ∨
        path.isAbsolute ∧ path.parts.dropLast ∈ searchPlaces then
      match programs.start? name with
      | some start => .ok (start, [])
      | .none => .error .notFound
    else do
      match ← t.find path with
      | (_, .directory) => .error .permissionDenied
      | (_, .file body) =>
        if !body.isExecutable then .error .permissionDenied
        else
          match interpreter? body.content with
          | .none => .error .execFormat
          | some (interpreter, argument) =>
            let (start, front) ← find t chain interpreter
            .ok (start, front ++ argument ++ [path.text])

end Programs

/-- A process, with the time at which its next step is due. -/
structure Process (π : Type) where
  pid : Nat
  state : π
  due : Nat

/-- What a process becomes by a step that leaves it in a state to sleep in, if any.  Every
step takes at least a microsecond. -/
def Process.after {π : Type} (process : Process π) (rest : Option (Nat × π)) : Option (Process π) :=
  rest.map fun (micros, state) => { process with state := state, due := process.due + micros + 1 }

/-- A machine.  Times are in microseconds. -/
structure Machine (π : Type) where
  files : FileTree
  clock : Nat := 0
  /-- The processes that have not ended. -/
  processes : List (Process π) := []
  nextPid : Nat := 100
  /-- The files that were opened; the number of a file is its handle. -/
  opened : List Place := []
  /-- When the operator asks the campaign to stop. -/
  interruption : Option Nat := none

namespace Machine

variable {π : Type} (programs : Programs π)

/-! ## Processes -/

/-- The process whose step is due first. -/
def first? (m : Machine π) : Option (Process π) :=
  m.processes.foldl (fun least process =>
    match least with
    | some other => if process.due < other.due then some process else some other
    | none => some process) none

/-- Whether a process is still there. -/
def isRunning (m : Machine π) (pid : Nat) : Bool := m.processes.any (·.pid == pid)

/-- End a process. -/
def remove (pid : Nat) (m : Machine π) : Machine π :=
  { m with processes := m.processes.filter (·.pid != pid) }

/-- Let a process take its step. -/
def step (m : Machine π) (process : Process π) : Machine π :=
  let (files, rest) := programs.step m.files process.state
  { m with
    files := files
    clock := max m.clock process.due
    processes := (m.remove process.pid).processes ++ (process.after rest).toList }

/-- Let processes take all steps that are due until a time, at most so many. -/
def advance (limit : Nat) : Nat → Machine π → Machine π
  | 0, m => { m with clock := max m.clock limit }
  | steps + 1, m =>
    match m.first? with
    | some process =>
      if process.due ≤ limit then advance limit steps (m.step programs process)
      else { m with clock := max m.clock limit }
    | none => { m with clock := max m.clock limit }

/-- Let time pass until a time.  A process cannot take more steps than there are
microseconds. -/
def passTo (limit : Nat) (m : Machine π) : Machine π :=
  m.advance programs limit ((limit + 1 - m.clock) * m.processes.length)

/-- Let processes take steps until one of them has ended, at most so many. -/
def runToEnd (pid : Nat) : Nat → Machine π → Machine π
  | 0, m => m
  | steps + 1, m =>
    if m.isRunning pid then
      match m.first? with
      | some process => runToEnd pid steps (m.step programs process)
      | none => m
    else m

/-- How many steps are waited for the end of a process. -/
def longestWait : Nat := 10000000

/-! ## Operations -/

/-- The directory in which a command starts. -/
def directoryOf (m : Machine π) (command : Command) : Except Fault Place :=
  match command.directory with
  | none => .ok m.files.current
  | some path => do
    match ← m.files.find path with
    | (place, .directory) => .ok place
    | _ => .error .notDirectory

/-- The file that the output of a command goes to. -/
def outputOf (m : Machine π) (command : Command) : Option Place :=
  match command.output with
  | .opened handle => m.opened[handle]?
  | _ => none

/-- Whether a command has the character that ends the arguments of the system. -/
def isBroken (command : Command) : Bool :=
  (command.program.text :: command.args).any fun text => text.toList.contains '\x00'

/-- Start a program. -/
def spawn (command : Command) : Action (Machine π) Fault Nat := fun m =>
  let started : Except Fault π := do
    if isBroken command then throw .endInArgument
    let directory ← m.directoryOf command
    let (start, front) ← programs.find { m.files with current := directory } Programs.longestChain
      command.program
    return start (front ++ command.args) directory (m.outputOf command)
  match started with
  | .error fault => (.error fault, m)
  | .ok state =>
    (.ok m.nextPid, { m with
      nextPid := m.nextPid + 1
      processes := m.processes ++ [⟨m.nextPid, state, m.clock⟩] })

/-- Create a file, or empty it, and open it. -/
def createFile (path : Path) : Action (Machine π) Fault Nat := fun m =>
  match m.files.ensureFile path with
  | .error fault => (.error fault, m)
  | .ok (place, files) =>
    (.ok m.opened.length,
      { m with files := files.setContent place .empty, opened := m.opened ++ [place] })

/-- Ask a process to end. -/
def askToStop (pid : Nat) : Action (Machine π) Fault Unit := fun m =>
  match m.processes.find? (·.pid == pid) with
  | none => (.error .noProcess, m)
  | some process =>
    match programs.onStop process.state with
    | none => (.ok (), m.remove pid)
    | some state =>
      (.ok (), { m.remove pid with
        processes := (m.remove pid).processes ++ [⟨pid, state, m.clock⟩] })

/-- Change the files. -/
def onFiles {α : Type} (action : Action FileTree Fault α) : Action (Machine π) Fault α :=
  action.within Machine.files fun files m => { m with files := files }

/-- The system of a machine. -/
def system : System (Machine π) where
  files := FileTree.fileSystem.within Machine.files fun files m => { m with files := files }
  removeFile path := onFiles (FileTree.changing (·.removeFile path))
  createFile := createFile
  spawn := spawn programs
  hasEnded pid := fun m =>
    let m := m.passTo programs m.clock
    (.ok (!m.isRunning pid), m)
  awaitEnd pid := fun m => (.ok (), m.runToEnd programs pid longestWait)
  askToStop := askToStop programs
  kill pid := fun m => (.ok (), m.remove pid)
  clock := Machine.clock
  sleep micros m := m.passTo programs (m.clock + micros)
  isInterrupted m := m.interruption.any (· ≤ m.clock)

/-! ## Time -/

variable {programs}

/-- The clock is never turned back. -/
theorem clock_step (m : Machine π) (process : Process π) :
    m.clock ≤ (m.step programs process).clock :=
  Nat.le_max_left _ _

/-- When time has passed until a limit, the clock shows it. -/
theorem max_le_clock_advance (limit steps : Nat) (m : Machine π) :
    max m.clock limit ≤ (m.advance programs limit steps).clock := by
  induction steps generalizing m with
  | zero => exact Nat.le_refl _
  | succ steps ih =>
    rw [advance]
    split
    · next process hfirst =>
      split
      · have hstep : m.clock ≤ (m.step programs process).clock := clock_step m process
        exact Nat.le_trans (by omega) (ih (m.step programs process))
      · exact Nat.le_refl _
    · exact Nat.le_refl _

/-- A machine tells the time properly. -/
theorem isPunctual_system : (system programs).IsPunctual where
  sleep _ m :=
    Nat.le_trans (Nat.le_max_right m.clock _) (max_le_clock_advance _ _ _)
  look _ m := Nat.le_trans (Nat.le_max_left _ m.clock) (max_le_clock_advance _ _ _)

end Machine

end FuzzCampaign

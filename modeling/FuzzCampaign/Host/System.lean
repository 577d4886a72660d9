import FuzzCampaign.Storage.FileSystem

/-!
# The system of a host

A campaign starts programs of others: fuzzers, binaries that run seeds, a script.  What
these do is not known here.  The campaign sees of them what the system shows, which is a
record of operations on a state, like a file system.  Every operation may fail; nothing
else is assumed of it.

Times are in microseconds.

Main definitions:

- `Command`: a program to be started.
- `System`: the operations.
- `System.IsPunctual`: a system that tells the time properly.
-/

namespace FuzzCampaign

/-- Where the output of a program goes. -/
inductive Sink where
  /-- Where the output of the campaign goes. -/
  | inherited
  | discarded
  /-- Into a file that was opened. -/
  | opened (handle : Nat)
  deriving Repr, DecidableEq

/-- A program to be started, which finds no input. -/
structure Command where
  program : Path
  args : List String
  /-- Where it starts, if not where the campaign is. -/
  directory : Option Path := none
  output : Sink := .discarded
  deriving Repr, DecidableEq

/-- What a campaign asks of the system that it runs on. -/
structure System (σ : Type) where
  files : FileSystem σ
  /-- Remove a file. -/
  removeFile : Path → Action σ Fault Unit
  /-- Create a file, or empty it, and open it for writing. -/
  createFile : Path → Action σ Fault Nat
  /-- Start a program.  The answer is the number of its process. -/
  spawn : Command → Action σ Fault Nat
  /-- Whether a process has ended.  The system remembers the end of a process. -/
  hasEnded : Nat → Action σ Fault Bool
  /-- Wait for the end of a process. -/
  awaitEnd : Nat → Action σ Fault Unit
  /-- Ask a process to end. -/
  askToStop : Nat → Action σ Fault Unit
  /-- End a process at once. -/
  kill : Nat → Action σ Fault Unit
  clock : σ → Nat
  sleep : Nat → σ → σ
  /-- Whether the operator has asked the campaign to stop. -/
  isInterrupted : σ → Bool

namespace System

variable {σ : Type}

/-- On a punctual system sleeping lasts at least as long as was asked for, and a look at a
process does not turn the clock back. -/
structure IsPunctual (sys : System σ) : Prop where
  sleep : ∀ micros w, sys.clock w + micros ≤ sys.clock (sys.sleep micros w)
  look : ∀ pid w, sys.clock w ≤ sys.clock (sys.hasEnded pid w).2

end System

end FuzzCampaign

import FuzzCampaign.Text.Line

/-!
# File systems

Paths are texts with slashes.  Joining a name to a path puts one slash between
them, unless there is one already or the path is empty; an absolute name
replaces the path.

The campaign touches files through a record of operations on a state.  Every
operation may fail; nothing else is assumed of it.

Main definitions:

- `Fault`: why an operation on files failed.
- `Fault.message`: its wording and its number.
- `Action`: a step that changes a state and may fail.
- `FileSystem`: the operations.
- `FileSystem.within`: a file system that is a part of a larger state.

Main results:

- `text_join`: the text of a joined path, for a relative name.
-/

namespace FuzzCampaign

/-! ## Paths -/

/-- The path of a file or a directory. -/
structure Path where
  text : String
  deriving Repr, DecidableEq, Hashable, Inhabited

namespace Path

/-- Whether a text names a place independently of the current directory. -/
def isAbsoluteText (text : String) : Bool := text.toList.head? == some '/'

/-- Whether a path names a place independently of the current directory. -/
def isAbsolute (p : Path) : Bool := isAbsoluteText p.text

/-- What is put between a path and a name joined to it. -/
def separator (p : Path) : String :=
  if p.text.isEmpty || p.text.toList.getLast? == some '/' then "" else "/"

/-- Join a name to a path. -/
def join (p : Path) (name : String) : Path :=
  if isAbsoluteText name then ⟨name⟩ else ⟨p.text ++ p.separator ++ name⟩

/-- The text of a joined path, for a relative name. -/
theorem text_join {p : Path} {name : String} (h : isAbsoluteText name = false) :
    (p.join name).text = p.text ++ p.separator ++ name := by
  simp [join, h]

/-- The parts of a path between its slashes. -/
def parts (p : Path) : List String :=
  ((Text.pieces '/' p.text.toList).map String.ofList).filter (· != "")

/-- The steps of a path: its parts without single dots, which lead nowhere. -/
def steps (p : Path) : List String := p.parts.filter (· != ".")

/-- Whether a path can lead to a directory only, because it ends in a slash. -/
def endsInSlash (p : Path) : Bool := p.text.toList.getLast? == some '/'

/-- Whether a path ends in a name and not in dots that lead to a place. -/
def endsInName (p : Path) : Bool := p.parts.getLast?.any fun part => part != "." && part != ".."

/-- The path without its last step; `none` for the root and the empty path. -/
def parent? (p : Path) : Option Path :=
  if p.steps.isEmpty then none
  else some ⟨(if p.isAbsolute then "/" else "") ++ "/".intercalate p.steps.dropLast⟩

/-- A path and the paths above it, from the innermost on, without the root. -/
def upwards (p : Path) : List Path :=
  let start := if p.isAbsolute then "/" else ""
  p :: ((List.range' 1 (p.steps.length - 1)).reverse.map fun n =>
    ⟨start ++ "/".intercalate (p.steps.take n)⟩)

/-- The last step of a path, unless it leads upwards. -/
def fileName? (p : Path) : Option String :=
  match p.steps.getLast? with
  | some name => if name = ".." then none else some name
  | none => none

end Path

/-! ## Faults of the file system -/

/-- Why an operation on files or processes failed. -/
inductive Fault where
  | notFound
  | permissionDenied
  | busy
  | alreadyExists
  | notDirectory
  | isDirectory
  | invalidArgument
  | execFormat
  | nameTooLong
  | directoryNotEmpty
  | noProcess
  /-- A path with the character that ends the paths of the system. -/
  | endInPath
  /-- An argument with the character that ends the arguments of the system. -/
  | endInArgument
  /-- A text was asked for, but the bytes are none. -/
  | invalidText
  /-- A fault that is known by its wording only. -/
  | reported (text : String)
  deriving Repr, DecidableEq

namespace Fault

/-- The wording of a fault. -/
def reason : Fault → String
  | notFound => "No such file or directory"
  | execFormat => "Exec format error"
  | permissionDenied => "Permission denied"
  | busy => "Device or resource busy"
  | alreadyExists => "File exists"
  | notDirectory => "Not a directory"
  | isDirectory => "Is a directory"
  | invalidArgument => "Invalid argument"
  | nameTooLong => "File name too long"
  | directoryNotEmpty => "Directory not empty"
  | noProcess => "No such process"
  | endInPath => "file name contained an unexpected NUL byte"
  | endInArgument => "nul byte found in provided data"
  | invalidText => "stream did not contain valid UTF-8"
  | reported text => text

/-- The number of a fault of the system. -/
def number? : Fault → Option Nat
  | notFound => some 2
  | execFormat => some 8
  | permissionDenied => some 13
  | busy => some 16
  | alreadyExists => some 17
  | notDirectory => some 20
  | isDirectory => some 21
  | invalidArgument => some 22
  | nameTooLong => some 36
  | directoryNotEmpty => some 39
  | noProcess => some 3
  | endInPath => none
  | endInArgument => none
  | invalidText => none
  | reported _ => none

/-- The wording of a fault, with its number if it has one. -/
def message (fault : Fault) : String :=
  match fault.number? with
  | some number => fault.reason ++ " (os error " ++ toString number ++ ")"
  | none => fault.reason

example : notFound.message = "No such file or directory (os error 2)" := by decide +kernel

end Fault

/-! ## File systems -/

/-- A step that changes a state and ends with a value or an error. -/
abbrev Action (σ ε α : Type) := ExceptT ε (StateM σ) α

namespace Action
variable {σ τ ε ε' α : Type}

/-- Run an action from a state. -/
def from_ (action : Action σ ε α) (s : σ) : Except ε α × σ := action.run s

/-- Rename the errors of an action. -/
def orFail (action : Action σ ε α) (f : ε → ε') : Action σ ε' α := fun s =>
  match action s with
  | (.ok value, s) => (.ok value, s)
  | (.error e, s) => (.error (f e), s)

/-- Run an action on a part of a larger state. -/
def within (get : τ → σ) (set : σ → τ → τ) (action : Action σ ε α) : Action τ ε α := fun t =>
  let (result, s) := action (get t)
  (result, set s t)

/-- Observe the state. -/
def observe (f : σ → α) : Action σ ε α := fun s => (.ok (f s), s)

end Action

/-- The operations on files that a campaign needs. -/
structure FileSystem (σ : Type) where
  /-- Whether a path leads to a directory. -/
  isDirectory : Path → σ → Bool
  /-- Whether a path leads to a regular file. -/
  isFile : Path → σ → Bool
  /-- Whether a path leads anywhere. -/
  isPresent : Path → σ → Bool
  /-- The names of everything directly inside a directory, in any order. -/
  entryNames : Path → Action σ Fault (List String)
  /-- Create a directory and all directories above it that are missing. -/
  createDirectories : Path → Action σ Fault Unit
  /-- Copy a file over another. -/
  copy : Path → Path → Action σ Fault Unit
  /-- Move a file or a directory. -/
  move : Path → Path → Action σ Fault Unit
  /-- Replace the content of a file. -/
  writeText : Path → String → Action σ Fault Unit
  /-- The content of a file. -/
  readText : Path → Action σ Fault String

/-- A file system as a part of a larger state. -/
def FileSystem.within {σ τ : Type} (files : FileSystem σ) (get : τ → σ) (set : σ → τ → τ) :
    FileSystem τ where
  isDirectory path t := files.isDirectory path (get t)
  isFile path t := files.isFile path (get t)
  isPresent path t := files.isPresent path (get t)
  entryNames path := (files.entryNames path).within get set
  createDirectories path := (files.createDirectories path).within get set
  copy source target := (files.copy source target).within get set
  move source target := (files.move source target).within get set
  writeText path text := (files.writeText path text).within get set
  readText path := (files.readText path).within get set

end FuzzCampaign

import FuzzCampaign.CommandLine.Run
import FuzzCampaign.Rehearsal.Machine

/-!
# The program

The program copies what it needs from the disk into a tree of files, runs the
command line on a machine with these files, and carries over to the disk what has
changed.  There are no programs on the machine: settings and inputs can be checked, but
a campaign ends when the monitor cannot be launched.
-/

namespace FuzzCampaign

/-- Copy what a path leads to into a tree.  Of a path that leads nowhere, the
directories above it are copied. -/
partial def collect (t : FileTree) (path : Path) : IO FileTree := do
  try
    let found ← IO.FS.realPath path.text
    if ← found.isDir then
      let mut t := t.plant path none
      for entry in ← found.readDir do
        t ← collect t (path.join entry.fileName)
      return t
    else return t.plant path (some { content := ← IO.FS.readBinFile path.text })
  catch _ =>
    match path.parent? with
    | some above =>
      try
        if ← (← IO.FS.realPath above.text).isDir then return t.plant above none
        else collect t above
      catch _ => collect t above
    | none => return t

/-- Carry the differences between two trees over to the disk. -/
def store (before after : FileTree) : IO Unit := do
  for (place, node) in after.entries do
    match node, before.node? place with
    | .directory, some .directory => pure ()
    | .directory, _ => IO.FS.createDirAll (FileTree.pathOf place).text
    | .file body, earlier =>
      let isKept := match earlier with
        | some (.file old) => old.content == body.content
        | _ => false
      unless isKept do
        IO.FS.createDirAll (FileTree.pathOf place.dropLast).text
        IO.FS.writeBinFile (FileTree.pathOf place).text body.content
  for (place, node) in before.entries do
    if (after.node? place).isNone then
      match node with
      | .file _ => IO.FS.removeFile (FileTree.pathOf place).text
      | .directory => pure ()

/-- The machine on which the program runs. -/
def bareSystem : System (Machine Empty) := Machine.system .none

/-- The files that a run on some arguments may need. -/
def collectFor (arguments : List String) (t : FileTree) : IO FileTree := do
  match Options.ofArguments arguments with
  | .error _ => return t
  | .ok options =>
    let t ← collect t options.settingsFile
    match (bareSystem.loadSettings options).from_ { files := t } with
    | (.error _, _) => return t
    | (.ok settings, _) => (options.pathsNeeded settings).foldlM collect t

/-- Run the command line on the files of the disk. -/
def runOnDisk (arguments : List String) : IO UInt32 := do
  let current : Path := ⟨(← IO.currentDir).toString⟩
  let files ← collectFor arguments { current := current.steps }
  let (outcome, machine) := bareSystem.runCommandLine arguments { files := files }
  store files machine.files
  IO.print outcome.output
  IO.eprint outcome.complaints
  return UInt32.ofNat outcome.code

end FuzzCampaign

/-- The entry of the program. -/
def main (arguments : List String) : IO UInt32 := FuzzCampaign.runOnDisk arguments

import FuzzCampaign.Config.Settings

/-!
# Options and outcomes of the command line

Options have a long name, and most of them a letter.  A value follows its option
as an argument of its own, or after an equals sign, or right behind the letter.
No option may be given twice.  Arguments are read in their order, and reading
stops at the first that is wrong, or that asks for help or for the version.

A run ends with an exit code and two texts.  A failure is shown as what could not
be done, followed by its causes, the outermost first; several causes are counted
from zero.

Main definitions:

- `Options.ofArguments`.
- `Outcome`.
- `Failure.render`.
-/

namespace FuzzCampaign

/-! ## Options of the command line -/

/-- What an operator asked for. -/
structure Options where
  settingsFile : Path := ⟨"campaign.toml"⟩
  workerCount : Option Nat := none
  strategy : Option Strategy := none
  outDir : Option Path := none
  logFile : Option Path := none
  /-- Whether nothing is to be started. -/
  checksOnly : Bool := false
  deriving Repr, DecidableEq

/-- The names that options go by. -/
inductive Switch where
  | settingsFile | workers | algorithm | outDir | logFile | check | help | version
  deriving Repr, DecidableEq

namespace Switch

/-- All of them. -/
def all : List Switch :=
  [settingsFile, workers, algorithm, outDir, logFile, check, help, version]

/-- The long name. -/
def name : Switch → String
  | settingsFile => "config-file"
  | workers => "workers"
  | algorithm => "algorithm"
  | outDir => "out-dir"
  | logFile => "log-file"
  | check => "check"
  | help => "help"
  | version => "version"

/-- The letter. -/
def letter? : Switch → Option Char
  | settingsFile => some 'c'
  | workers => some 'w'
  | algorithm => some 'a'
  | outDir => some 'o'
  | logFile => none
  | check => none
  | help => some 'h'
  | version => some 'V'

/-- Whether a value belongs to it. -/
def takesValue : Switch → Bool
  | check => false
  | help => false
  | version => false
  | _ => true

/-- The switch with a long name. -/
def ofName? (text : String) : Option Switch := all.find? (·.name == text)

/-- The switch with a letter. -/
def ofLetter? (c : Char) : Option Switch := all.find? (·.letter? == some c)

@[simp] theorem ofName?_name (s : Switch) : ofName? s.name = some s := by
  cases s <;> decide

end Switch

/-- Why reading arguments stops before their end. -/
inductive Stop where
  | help
  | version
  | unknownArgument (text : String)
  | unexpectedValue (switch : Switch)
  | missingValue (switch : Switch)
  | repeated (switch : Switch)
  | invalidValue (switch : Switch) (text : String)
  deriving Repr, DecidableEq

/-- How far arguments have been read. -/
structure ArgumentReader where
  options : Options := {}
  seen : List Switch := []
  /-- The switch whose value has to come next. -/
  awaiting : Option Switch := none
  /-- Whether no switch may follow any more. -/
  isClosed : Bool := false
  deriving Repr, DecidableEq

/-- A path that is given as a value; it may not be empty. -/
def Path.ofValue? (text : String) : Option Path := if text.isEmpty then none else some ⟨text⟩

/-- Set an option to a value; `none` when the value is none of its kind. -/
def Options.set? (o : Options) (switch : Switch) (text : String) : Option Options :=
  match switch with
  | .settingsFile => (Path.ofValue? text).map fun path => { o with settingsFile := path }
  | .workers => (Text.word? 64 text.toList).map fun count => { o with workerCount := some count }
  | .algorithm => (Strategy.ofWord? text).map fun strategy => { o with strategy := some strategy }
  | .outDir => (Path.ofValue? text).map fun path => { o with outDir := some path }
  | .logFile => (Path.ofValue? text).map fun path => { o with logFile := some path }
  | .check => some { o with checksOnly := true }
  | .help => some o
  | .version => some o

namespace ArgumentReader

/-- Take the value of a switch. -/
def take (r : ArgumentReader) (switch : Switch) (text : String) : Except Stop ArgumentReader :=
  if switch ∈ r.seen then .error (.repeated switch)
  else
    match r.options.set? switch text with
    | some options =>
      .ok { r with options := options, seen := switch :: r.seen, awaiting := none }
    | none => .error (.invalidValue switch text)

/-- Take a switch, with its value if one is attached to it. -/
def mention (r : ArgumentReader) (switch : Switch) (attached : Option String) :
    Except Stop ArgumentReader :=
  match r.awaiting, switch, attached with
  | some waiting, _, _ => .error (.missingValue waiting)
  | none, .help, none => .error .help
  | none, .version, none => .error .version
  | none, switch, some text =>
    if switch.takesValue then r.take switch text else .error (.unexpectedValue switch)
  | none, switch, none =>
    if switch.takesValue then .ok { r with awaiting := some switch } else r.take switch ""

/-- The value that is attached to a letter. -/
def attachedTo : List Char → Option String
  | [] => none
  | '=' :: rest => some (String.ofList rest)
  | rest => some (String.ofList rest)

/-- Read a row of letters. -/
def letters (r : ArgumentReader) : List Char → Except Stop ArgumentReader
  | [] => .ok r
  | c :: rest =>
    match Switch.ofLetter? c with
    | none => .error (.unknownArgument (String.ofList ['-', c]))
    | some switch =>
      if switch.takesValue then r.mention switch (attachedTo rest)
      else do letters (← r.mention switch none) rest

/-- Read a long name with what is attached to it. -/
def long (r : ArgumentReader) (text : List Char) : Except Stop ArgumentReader :=
  let name := String.ofList (text.takeWhile (· != '='))
  match Switch.ofName? name, text.dropWhile (· != '=') with
  | none, _ => .error (.unknownArgument ("--" ++ name))
  | some switch, [] => r.mention switch none
  | some switch, _ :: value => r.mention switch (some (String.ofList value))

/-- Read an argument. -/
def read (r : ArgumentReader) (argument : String) : Except Stop ArgumentReader :=
  if r.isClosed then .error (.unknownArgument argument)
  else
    match argument.toList with
    | ['-', '-'] => .ok { r with isClosed := true }
    | '-' :: '-' :: text => r.long text
    | '-' :: c :: text => r.letters (c :: text)
    | _ =>
      match r.awaiting with
      | some switch => r.take switch argument
      | none => .error (.unknownArgument argument)

end ArgumentReader

/-- The options that arguments stand for. -/
def Options.ofArguments (arguments : List String) : Except Stop Options := do
  let r ← arguments.foldlM ArgumentReader.read {}
  match r.awaiting with
  | some switch => .error (.missingValue switch)
  | none => .ok r.options

/-- Write options over settings. -/
def Options.applyTo (o : Options) (s : Settings) : Settings :=
  { s with
    campaign := { s.campaign with
      workerCount := o.workerCount.getD s.campaign.workerCount
      strategy := o.strategy.getD s.campaign.strategy
      outDir := o.outDir.getD s.campaign.outDir } }

/-- The files and directories that a run with settings may read or change. -/
def Options.pathsNeeded (o : Options) (s : Settings) : List Path :=
  [s.inputs.callGraph, s.inputs.sourceIndex, s.inputs.blockIndex, s.campaign.seedCorpus,
    s.campaign.outDir, s.profiling.callLogPath, s.profiling.coverageFolder] ++
    (o.logFile.or s.campaign.logFile).toList

/-! ## What a run says -/

/-- How a run of the command line ends. -/
structure Outcome where
  code : Nat
  output : String := ""
  complaints : String := ""
  deriving Repr, DecidableEq

/-- A failure and its causes, the outermost first. -/
structure Failure where
  headline : String
  causes : List String
  deriving Repr, DecidableEq

namespace Failure

/-- A text whose first line stands behind a label, and whose later lines stand
below each other behind some margin. -/
def indent (label margin text : String) : String :=
  label ++ ("\n" ++ margin).intercalate ((Text.pieces '\n' text.toList).map String.ofList)

/-- The label of a counted cause, five places wide. -/
def label (number : Nat) : String :=
  let digits := toString number
  String.ofList (List.replicate (5 - digits.length) ' ') ++ digits ++ ": "

/-- A cause that is not the only one. -/
def counted (number : Nat) (cause : String) : String := indent (label number) "       " cause

/-- The part of a failure that shows its causes. -/
def renderCauses : List String → String
  | [] => ""
  | [cause] => "\n\nCaused by:\n" ++ indent "    " "    " cause
  | causes =>
    "\n\nCaused by:\n" ++ "\n".intercalate (causes.mapIdx counted)

/-- The text of a failure. -/
def render (f : Failure) : String := "Error: " ++ f.headline ++ renderCauses f.causes ++ "\n"

end Failure

/-! ### Ends without a run -/

/-- The text that explains the options. -/
def usage : String :=
  "Distributed fuzzing campaign manager\n\n" ++
  "Usage: teamfuzz [OPTIONS]\n\n" ++
  "Options:\n" ++
  "  -c, --config-file <CONFIG_FILE>  [default: campaign.toml]\n" ++
  "  -w, --workers <WORKERS>          Total fleet size, monitor included\n" ++
  "  -a, --algorithm <ALGORITHM>      Partitioning strategy: \"tree\" or \"naive\"\n" ++
  "  -o, --out-dir <OUT_DIR>          \n" ++
  "      --log-file <LOG_FILE>        Write log records to this file instead of stderr\n" ++
  "      --check                      Validate config and inputs, print the plan and exit\n" ++
  "  -h, --help                       Print help\n" ++
  "  -V, --version                    Print version\n"

/-- What is wrong with the arguments. -/
def Stop.message : Stop → String
  | help => ""
  | version => ""
  | unknownArgument text => "unexpected argument " ++ text
  | unexpectedValue switch => "--" ++ switch.name ++ " takes no value"
  | missingValue switch => "--" ++ switch.name ++ " needs a value"
  | repeated switch => "--" ++ switch.name ++ " is given twice"
  | invalidValue switch text => "--" ++ switch.name ++ " cannot be '" ++ text ++ "'"

/-- How a run ends that was stopped while its arguments were read. -/
def Stop.outcome : Stop → Outcome
  | help => { code := 0, output := usage }
  | version => { code := 0, output := "teamfuzz_cli 0.1.0\n" }
  | stop => { code := 2, complaints := "error: " ++ stop.message ++ "\n" }

end FuzzCampaign

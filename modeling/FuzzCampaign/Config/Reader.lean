import FuzzCampaign.Config.Settings
import FuzzCampaign.Text.Quoted
import FuzzCampaign.Toml.Document

/-!
# Reading settings

A settings file has four sections with fixed fields.  The fields of a section
are visited in the order of the file: an unknown field or a value of the wrong
kind is reported where it stands.  Then the fields that are required are looked
for in the order of the section's description.  A section that is written as a
list gives its fields in that order, too.

Main definitions:

- `Settings.ofToml`: settings from the table of a file.
- `Settings.parse`: settings from the text of a file.
- `Settings.load`: settings from a file.
-/

namespace FuzzCampaign

/-! ## Reading settings -/

/-- Why the text of a settings file was not accepted. -/
inductive SettingsError where
  /-- The text breaks the rules of its format, or a value is of the wrong kind. -/
  | malformed
  | missingField (name : String)
  | unknownField (name : String)
  | unknownVariant (word : String)
  deriving Repr, DecidableEq

/-- The wording of an error, where it has one. -/
def SettingsError.message? : SettingsError → Option String
  | malformed => none
  | missingField name => some ("missing field `" ++ name ++ "`")
  | unknownField name => some ("unknown field `" ++ name ++ "`")
  | unknownVariant word => some ("unknown variant `" ++ word ++ "`")

namespace Config

open Toml (Value Entries)

/-! ### Values of the kinds that fields have -/

/-- What is read from a value. -/
abbrev Decoder (α : Type) := Value → Except SettingsError α

/-- A text. -/
def text : Decoder String
  | .text content => .ok content
  | _ => .error .malformed

/-- A path. -/
def path : Decoder Path := fun value => Path.mk <$> text value

/-- A number that is not negative. -/
def count : Decoder Nat
  | .integer (.ofNat n) => .ok n
  | _ => .error .malformed

/-- A list of texts. -/
def texts : Decoder (List String)
  | .array _ items => items.mapM text
  | _ => .error .malformed

/-- A word of a vocabulary, as a text or as a table with the word as its only key
and nothing below it. -/
def word {α : Type} (vocabulary : List (String × α)) : Decoder α
  | .text content => find content
  | .table _ [(key, value)] => do
    let meaning ← find key
    match value with
    | .array _ [] => .ok meaning
    | .table _ [] => .ok meaning
    | _ => .error .malformed
  | _ => .error .malformed
where
  /-- The meaning of a word. -/
  find (content : String) : Except SettingsError α :=
    match vocabulary.lookup content with
    | some meaning => .ok meaning
    | none => .error (.unknownVariant content)

/-- The name of a strategy. -/
def strategy : Decoder Strategy := word [("tree", .tree), ("naive", .naive)]

/-- The name of a cap. -/
def scoreCap : Decoder ScoreCap := word [("none", .none), ("median-plus-mean", .medianPlusMean)]

/-! ### Fields and sections -/

/-- What becomes of a field that is not there. -/
inductive Absence where
  /-- It is reported. -/
  | reported
  /-- It stays empty, but a list has to have room for it. -/
  | empty
  /-- It takes its default. -/
  | default
  deriving Repr, DecidableEq

/-- The description of a field. -/
structure Field where
  name : String
  absence : Absence
  /-- Whether a value is of the right kind. -/
  check : Decoder Unit

/-- A field that holds a value of a kind. -/
def Field.of {α : Type} (name : String) (absence : Absence) (decoder : Decoder α) : Field :=
  ⟨name, absence, fun value => (fun _ => ()) <$> decoder value⟩

/-- Visit the entries of a section in their order. -/
def visit (fields : List Field) (entries : Entries) : Except SettingsError Unit :=
  entries.forM fun (name, value) =>
    match fields.find? (·.name == name) with
    | some field => field.check value
    | none => .error (.unknownField name)

/-- The only key below which a point in time shows its written form. -/
def momentKey : String := "$__toml_private_datetime"

/-- The entries of a section, visited. -/
def entriesOf (fields : List Field) : Decoder Entries
  | .table _ entries => do
    visit fields entries
    .ok entries
  | .array _ items => do
    let entries := (fields.map (·.name)).zip items
    visit fields entries
    if (fields.drop items.length).all (·.absence == .default) then .ok entries
    else .error .malformed
  | .moment _ => .error (.unknownField momentKey)
  | _ => .error .malformed

/-- A field that is required. -/
def required {α : Type} (entries : Entries) (name : String) (decoder : Decoder α) :
    Except SettingsError α :=
  match entries.lookup name with
  | some value => decoder value
  | none => .error (.missingField name)

/-- A field that may be absent. -/
def optional {α : Type} (entries : Entries) (name : String) (decoder : Decoder α) :
    Except SettingsError (Option α) :=
  match entries.lookup name with
  | some value => some <$> decoder value
  | none => .ok none

/-- A field with a default. -/
def withDefault {α : Type} (entries : Entries) (name : String) (decoder : Decoder α) (value : α) :
    Except SettingsError α :=
  (fun found => found.getD value) <$> optional entries name decoder

/-! ### The four sections -/

/-- The fields of the campaign section. -/
def campaignFields : List Field :=
  [.of "out-dir" .reported path, .of "seed-corpus" .reported path,
   .of "worker-count" .reported count, .of "total-timeout-secs" .reported count,
   .of "scanning-timeout-secs" .reported count, .of "exploitation-timeout-secs" .reported count,
   .of "launch-stagger-ms" .default count, .of "algorithm" .default strategy,
   .of "score-cap" .default scoreCap, .of "entry-function" .default text,
   .of "log-file" .empty path]

/-- The campaign section. -/
def campaign : Decoder CampaignSettings := fun value => do
  let entries ← entriesOf campaignFields value
  let outDir ← required entries "out-dir" path
  let seedCorpus ← required entries "seed-corpus" path
  let workerCount ← required entries "worker-count" count
  let totalSeconds ← required entries "total-timeout-secs" count
  let scanningSeconds ← required entries "scanning-timeout-secs" count
  let exploitationSeconds ← required entries "exploitation-timeout-secs" count
  let staggerMillis ← withDefault entries "launch-stagger-ms" count 5000
  let strategy ← withDefault entries "algorithm" strategy .tree
  let scoreCap ← withDefault entries "score-cap" scoreCap .none
  let entryFunction ← withDefault entries "entry-function" text "main"
  let logFile ← optional entries "log-file" path
  .ok { outDir, seedCorpus, workerCount, totalSeconds, scanningSeconds, exploitationSeconds,
        staggerMillis, strategy, scoreCap, entryFunction, logFile }

/-- The fields of the input section. -/
def inputFields : List Field :=
  [.of "call-graph" .reported path, .of "func-ids" .reported path, .of "func-bbs" .reported path]

/-- The input section. -/
def inputs : Decoder InputSettings := fun value => do
  let entries ← entriesOf inputFields value
  let callGraph ← required entries "call-graph" path
  let sourceIndex ← required entries "func-ids" path
  let blockIndex ← required entries "func-bbs" path
  .ok { callGraph, sourceIndex, blockIndex }

/-- The fields of the fuzzer section. -/
def fuzzerFields : List Field :=
  [.of "afl-fuzz" .default path, .of "task-fuzz" .default path, .of "afl-binary" .reported path,
   .of "task-binary" .reported path, .of "dictionary" .empty path,
   .of "memory-limit" .default text, .of "exec-timeout" .default text,
   .of "pre-args" .default texts, .of "post-args" .default texts]

/-- The fuzzer section. -/
def fuzzer : Decoder FuzzerSettings := fun value => do
  let entries ← entriesOf fuzzerFields value
  let genericFuzzer ← withDefault entries "afl-fuzz" path ⟨"afl-fuzz"⟩
  let taskFuzzer ← withDefault entries "task-fuzz" path ⟨"horse-fuzz"⟩
  let genericBinary ← required entries "afl-binary" path
  let taskBinary ← required entries "task-binary" path
  let dictionary ← optional entries "dictionary" path
  let memoryLimit ← withDefault entries "memory-limit" text "1G"
  let execTimeout ← withDefault entries "exec-timeout" text "20000+"
  let preArgs ← withDefault entries "pre-args" texts []
  let postArgs ← withDefault entries "post-args" texts []
  .ok { genericFuzzer, taskFuzzer, genericBinary, taskBinary, dictionary, memoryLimit,
        execTimeout, preArgs, postArgs }

/-- The fields of the profiling section. -/
def profilingFields : List Field :=
  [.of "profiling-binary" .reported path, .of "gcov-binary" .reported path,
   .of "gcov-folder" .reported path, .of "gcov-script" .default path, .of "call-log" .empty path,
   .of "seed-timeout-ms" .default count]

/-- The profiling section. -/
def profiling : Decoder ProfilingSettings := fun value => do
  let entries ← entriesOf profilingFields value
  let profilingBinary ← required entries "profiling-binary" path
  let coverageBinary ← required entries "gcov-binary" path
  let coverageFolder ← required entries "gcov-folder" path
  let coverageScript ← withDefault entries "gcov-script" path ⟨"run-gcov.sh"⟩
  let callLog ← optional entries "call-log" path
  let seedTimeoutMillis ← withDefault entries "seed-timeout-ms" count 5000
  .ok { profilingBinary, coverageBinary, coverageFolder, coverageScript, callLog,
        seedTimeoutMillis }

/-- The sections of a settings file. -/
def sections : List Field :=
  [.of "campaign" .reported campaign, .of "inputs" .reported inputs,
   .of "fuzzer" .reported fuzzer, .of "profiling" .reported profiling]

end Config

namespace Settings

open Config in
/-- Settings from the table of a file. -/
def ofToml (entries : Toml.Entries) : Except SettingsError Settings := do
  visit sections entries
  let campaign ← required entries "campaign" Config.campaign
  let inputs ← required entries "inputs" Config.inputs
  let fuzzer ← required entries "fuzzer" Config.fuzzer
  let profiling ← required entries "profiling" Config.profiling
  .ok { campaign, inputs, fuzzer, profiling }

/-- Settings from the text of a file. -/
def parse (text : String) : Except SettingsError Settings :=
  match Toml.parse? text with
  | some entries => ofToml entries
  | none => .error .malformed

end Settings

/-! ## Settings files -/

/-- Why settings could not be loaded. -/
inductive SettingsFileError where
  | unreadable (path : Path) (fault : Fault)
  | rejected (path : Path) (error : SettingsError)
  deriving Repr, DecidableEq

/-- The wording of a load error. -/
def SettingsFileError.message : SettingsFileError → String
  | unreadable path fault =>
    "Failed to read config file at " ++ Text.Quoted.path path.text ++ ": " ++ fault.message
  | rejected path error =>
    "Failed to parse TOML from config file " ++ Text.Quoted.path path.text ++ ": " ++
      error.message?.getD "malformed settings"

/-- Settings from a file. -/
def Settings.load {σ : Type} (files : FileSystem σ) (path : Path) :
    Action σ SettingsFileError Settings := do
  let text ← (files.readText path).orFail (.unreadable path)
  match Settings.parse text with
  | .ok settings => return settings
  | .error error => throw (.rejected path error)

end FuzzCampaign

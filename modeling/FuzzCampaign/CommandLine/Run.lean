import FuzzCampaign.CommandLine.Options
import FuzzCampaign.Config.Reader
import FuzzCampaign.Host.Crew

/-!
# Runs of the command line

The settings are loaded, options are written over them, the log is opened, and
then the inputs are checked or a whole campaign is run.

Main definitions:

- `System.runCommandLine`.
-/

namespace FuzzCampaign

/-- A campaign error behind a headline. -/
def CampaignError.under (headline : String) (error : CampaignError) : Failure :=
  ⟨headline, error.message :: error.causes⟩

namespace System

variable {σ : Type} (sys : System σ)

/-- The settings that options stand for. -/
def loadSettings (options : Options) : Action σ Failure Settings := do
  let settings ← (Settings.load sys.files options.settingsFile).orFail fun error =>
    ⟨"Loading campaign from " ++ options.settingsFile.text, [error.message]⟩
  return options.applyTo settings

/-- Open the log of a run, if there is one. -/
def openRunLog : Option Path → Action σ Failure Unit
  | none => return ()
  | some path => do
    let _ ← (sys.createFile path).orFail fun fault =>
      ⟨"Failed to create log file " ++ path.text, [fault.message]⟩

/-- Check the inputs and give the text of the report. -/
def check (settings : Settings) : Action σ Failure String := do
  let report ← (preflight sys.files settings).orFail
    (·.under "Preflight check failed")
  return report.render

/-- Run a campaign and give the text of its summary. -/
def runCampaign (settings : Settings) : Action σ Failure String := do
  let crew := sys.crew settings.profiler
  let inputs ← (CampaignInputs.load sys.files settings).orFail fun error =>
    (CampaignError.input error).under "Failed to load campaign inputs"
  match Campaign.ofSettings settings inputs with
  | .error error => throw ⟨error.message, error.causes⟩
  | .ok campaign =>
    let (outcome, progress) := campaign.run crew (← get)
    set progress.world
    match outcome with
    | .error error => throw (error.under "Campaign failed")
    | .ok summary => return summary.render

/-- Do what options ask for, and give the text of the result. -/
def runOptions (options : Options) : Action σ Failure String := do
  let settings ← sys.loadSettings options
  sys.openRunLog (options.logFile.or settings.campaign.logFile)
  if options.checksOnly then sys.check settings else sys.runCampaign settings

/-- Run the command line on its arguments. -/
def runCommandLine (arguments : List String) (w : σ) : Outcome × σ :=
  match Options.ofArguments arguments with
  | .error stop => (stop.outcome, w)
  | .ok options =>
    match sys.runOptions options w with
    | (.ok text, w) => ({ code := 0, output := text ++ "\n" }, w)
    | (.error failure, w) => ({ code := 1, complaints := failure.render }, w)

end System

end FuzzCampaign

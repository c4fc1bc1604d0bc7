import PassThrough.Analysis
import PassThrough.Command.Arguments
import PassThrough.Report.Json
import PassThrough.Report.Terminal
import PassThrough.Settings.Discovery
import PassThrough.Source.Load

/-! Running commands. -/

namespace PassThrough

variable {m : Type → Type} [Monad m]

/-- Why a command fails. -/
inductive CommandFailure where
  | failed (failure : Failure)
  | settings (path : String) (failure : Failure)
  | output (problem : FileProblem)
  | settingsExist
  deriving DecidableEq, Repr

namespace CommandFailure

/-- The text of the failure and those of its causes, the outermost first. -/
def texts : CommandFailure → List String
  | .failed f => f.causes
  | .settings path f => ("Failed to load config " ++ path) :: f.causes
  | .output p => [p.message]
  | .settingsExist => ["Configuration file already exists. Use --force to overwrite."]

/-- A text behind a label; its further lines are indented as far. -/
def indented (label text : String) : String :=
  let margin := String.ofList (List.replicate label.length ' ')
  label ++ ("\n" ++ margin).intercalate (text.splitOn "\n")

/-- The causes, one to a line, numbered if there are several. -/
def causeLines : List String → List String
  | [cause] => [indented "    " cause]
  | causes => causes.mapIdx fun i cause => indented ("    " ++ toString i ++ ": ") cause

def text (f : CommandFailure) : String :=
  match f.texts with
  | [] => "Error: \n"
  | [message] => "Error: " ++ message ++ "\n"
  | message :: causes =>
    "Error: " ++ message ++ "\n\nCaused by:\n" ++ "\n".intercalate (causeLines causes) ++ "\n"

end CommandFailure

/-- How a command ends that does not fail. -/
structure Outcome where
  findings : Nat := 0
  shouldFail : Bool := false
  output : String := ""
  deriving DecidableEq, Repr

/-- The settings of the file asked for, or else those that apply in the current directory. What the
command line says comes last. -/
def settingsFor (store : FileStore m) (path : Option String) (minRelayLinks : Option Nat) :
    ExceptT CommandFailure m Settings := do
  let s ← match path with
    | some p => ExceptT.mk do return (← Settings.load store p).mapError (.settings p)
    | none => ExceptT.lift (Settings.discover store)
  ExceptT.mk (pure ((s.withMinRelayLinks minRelayLinks).validate.mapError .failed))

def loadProgram (store : FileStore m) (paths : List String) :
    ExceptT CommandFailure m (List SourceFile) :=
  (do loadFiles store (← programFiles store paths)).adapt .failed

def Report.textIn (r : Report) (format : ReportFormat) (colour : Bool) : String :=
  match format with
  | .json => r.jsonText
  | .terminal => r.terminalText colour

/-- Writes to a file, or leaves the text for standard output. -/
def emit (store : FileStore m) (output : Option String) (text : String) :
    ExceptT CommandFailure m String := do
  match output with
  | none => return text
  | some path =>
    match ← store.write path text with
    | .ok _ => return ""
    | .error p => throw (.output p)

def runAnalyze (store : FileStore m) (colour : Bool) (o : AnalyzeOptions) :
    ExceptT CommandFailure m Outcome := do
  let settings ← settingsFor store o.settings o.minRelayLinks
  let report := analyze settings (← loadProgram store o.paths)
  let output ← emit store o.output (report.textIn o.format colour)
  return {
    findings := report.findings.length
    shouldFail := o.failOnFindings && report.hasFindings
    output }

/-- Writes a file with the default settings. -/
def runInit (store : FileStore m) (force : Bool) : ExceptT CommandFailure m Outcome := do
  let found ← store.kind? Settings.fileName
  if found.isSome && !force then throw .settingsExist
  let _ ← emit store (some Settings.fileName) ({} : Settings).text
  return { output := "Created " ++ Settings.fileName ++ " configuration file\n" }

def Command.run (store : FileStore m) (colour : Bool) : Command → ExceptT CommandFailure m Outcome
  | .analyze o => runAnalyze store colour o
  | .init force => runInit store force

/-- What a finished program leaves behind. -/
structure Exit where
  code : Nat
  output : String := ""
  errors : String := ""
  deriving DecidableEq, Repr

def Exit.ofResult : Except CommandFailure Outcome → Exit
  | .ok o => { code := if o.shouldFail then 1 else 0, output := o.output }
  | .error f => { code := 1, errors := f.text }

def helpText : String :=
  "Finds reactive state relayed unchanged through UI call chains\n\n" ++
  "Usage: relaymap <COMMAND>\n\n" ++
  "Commands:\n" ++
  "  analyze [OPTIONS] <PATHS>...  Analyze program-model dumps\n" ++
  "      -f, --format <json|terminal>  Output format\n" ++
  "      -o, --output <FILE>           Output file (defaults to stdout)\n" ++
  "      -c, --config <FILE>           Configuration file\n" ++
  "          --min-relay-links <N>     Minimum relay links before a chain is reported\n" ++
  "          --fail-on-findings        Exit with status 1 when any finding is reported\n" ++
  "      -v, --verbose                 Increase log verbosity\n" ++
  "  init [-f, --force]            Write a default .relaymap.toml\n" ++
  "  help [COMMAND]                Print this text\n"

def versionText : String := "relaymap 0.1.0\n"

def UsageStop.message : UsageStop → String
  | .missingOperand => "a required argument is missing"
  | .unknownArgument => "unexpected argument"
  | .invalidValue => "a value is missing or not among those allowed"
  | .invalidNumber => "a value is not a number in range"
  | .repeated => "an argument is given more than once"
  | .unexpectedValue => "a value is given to an argument that takes none"
  | .unknownCommand => "unrecognized subcommand"
  | .noCommand => "a subcommand is required"
  | .helpAsked => "help"
  | .versionAsked => "version"

def UsageStop.exit : UsageStop → Exit
  | .helpAsked => { code := 0, output := helpText }
  | .versionAsked => { code := 0, output := versionText }
  | .noCommand => { code := 2, errors := helpText }
  | stop => { code := 2, errors := "error: " ++ stop.message ++ "\n" }

/-- The program: reads the command line and runs what it says. -/
def runWords (store : FileStore m) (colour : Bool) (words : List String) : m Exit := do
  match Command.ofWords words with
  | .error stop => return stop.exit
  | .ok command => return Exit.ofResult (← (command.run store colour).run)

end PassThrough

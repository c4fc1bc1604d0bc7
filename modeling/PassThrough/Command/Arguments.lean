import PassThrough.Command.Basic
import PassThrough.Command.Grammar
import PassThrough.Text.Digits

/-! Commands from command lines. -/

namespace PassThrough

/-- A count in decimal digits, with a plus sign in front or none. -/
def decimal? (s : String) : Option Nat :=
  let digits := match s.toList with
    | '+' :: rest => rest
    | all => all
  if digits.isEmpty || !digits.all Char.isDigit then none
  else
    let n := Text.naturalOfDigits digits
    if n < Text.countLimit then some n else none

namespace Command

/-- No path is empty. -/
def pathTest (s : String) : Option UsageStop :=
  if s = "" then some .invalidValue else none

def formatTest (s : String) : Option UsageStop :=
  if (ReportFormat.ofText? s).isNone then some .invalidValue else none

def numberTest (s : String) : Option UsageStop :=
  if (decimal? s).isNone then some .invalidNumber else none

def helpOption : OptionSpec := ⟨"help", some 'h', .help⟩

def analyzeGrammar : Grammar where
  options := [
    ⟨"format", some 'f', .valued formatTest⟩,
    ⟨"output", some 'o', .valued pathTest⟩,
    ⟨"config", some 'c', .valued pathTest⟩,
    ⟨"min-relay-links", none, .valued numberTest⟩,
    ⟨"fail-on-findings", none, .switch⟩,
    ⟨"verbose", some 'v', .counter⟩,
    helpOption]
  operand := some pathTest

def initGrammar : Grammar where
  options := [⟨"force", some 'f', .switch⟩, helpOption]
  operand := none

/-- Verbosity stops growing at this count. -/
def maxVerbosity : Nat := 255

def analyzeOfWords (words : List String) : Except UsageStop Command := do
  let r ← analyzeGrammar.read words
  return .analyze {
    paths := r.operands
    format := ((r.value? "format").bind ReportFormat.ofText?).getD .terminal
    output := r.value? "output"
    settings := r.value? "config"
    minRelayLinks := (r.value? "min-relay-links").bind decimal?
    failOnFindings := r.has "fail-on-findings"
    verbosity := min maxVerbosity (r.given.countP (·.1 == "verbose")) }

def initOfWords (words : List String) : Except UsageStop Command := do
  return .init ((← initGrammar.read words).has "force")

def names : List String := ["analyze", "init", "help"]

/-- Help is for the program or for one command. -/
def helpOfWords : List String → UsageStop
  | [] => .helpAsked
  | [name] => if names.contains name then .helpAsked else .unknownCommand
  | _ => .unknownCommand

/-- A word in the place of a command that is none. -/
def strayWord (word : String) : UsageStop :=
  match word.toList with
  | '-' :: '-' :: text =>
    let name := String.ofList (text.takeWhile (· != '='))
    let asked := if name = "help" then some UsageStop.helpAsked
      else if name = "version" then some .versionAsked
      else none
    if asked.isSome && text.contains '=' then .unexpectedValue
    else asked.getD .unknownArgument
  | '-' :: c :: _ =>
    if c = 'h' then .helpAsked else if c = 'V' then .versionAsked else .unknownArgument
  | _ => .unknownCommand

/-- The command that a command line gives. -/
def ofWords : List String → Except UsageStop Command
  | [] => .error .noCommand
  | "analyze" :: rest => analyzeOfWords rest
  | "init" :: rest => initOfWords rest
  | "help" :: rest => .error (helpOfWords rest)
  | ["--"] => .error .noCommand
  | "--" :: word :: _ =>
    .error (if names.contains word then .unknownArgument else .unknownCommand)
  | word :: _ => .error (strayWord word)

end Command
end PassThrough

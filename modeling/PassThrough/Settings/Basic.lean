import PassThrough.Failure
import PassThrough.Reactive.Vocabulary

/-! Settings of the analysis. -/

namespace PassThrough

inductive Severity where
  | info
  | warning
  | error
  deriving DecidableEq, Repr

def Severity.text : Severity → String
  | .info => "info"
  | .warning => "warning"
  | .error => "error"

def Severity.ofText? (s : String) : Option Severity :=
  [Severity.info, .warning, .error].find? (·.text == s)

/-- Which functions build UI, which chains are worth reporting, and which annotations silence them. -/
structure Detection where
  uiMarker : String := "Composable"
  minRelayLinks : Nat := 2
  severity : Severity := .warning
  suppressionIds : List String := ["ReactivePassThrough", "StatePassThrough"]
  deriving DecidableEq, Repr

structure Settings where
  detection : Detection := {}
  vocabulary : Vocabulary := {}
  deriving DecidableEq, Repr

inductive SettingsProblem where
  | noRelayLinks
  | blankMarker
  deriving DecidableEq, Repr

def SettingsProblem.message : SettingsProblem → String
  | .noRelayLinks => "detection.min_relay_links must be at least 1"
  | .blankMarker => "detection.ui_marker must not be empty"

namespace Settings

def problem? (s : Settings) : Option SettingsProblem :=
  if s.detection.minRelayLinks = 0 then some .noRelayLinks
  else if Text.trim s.detection.uiMarker = "" then some .blankMarker
  else none

/-- The settings, unless they make no sense. -/
def validate (s : Settings) : Except Failure Settings :=
  match s.problem? with
  | some p => .error (.configuration p.message)
  | none => .ok s

def withMinRelayLinks (s : Settings) : Option Nat → Settings
  | some n => { s with detection := { s.detection with minRelayLinks := n } }
  | none => s

end Settings
end PassThrough

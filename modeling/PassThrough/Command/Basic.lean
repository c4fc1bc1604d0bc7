/-! The commands. -/

namespace PassThrough

inductive ReportFormat where
  | json
  | terminal
  deriving DecidableEq, Repr

def ReportFormat.text : ReportFormat → String
  | .json => "json"
  | .terminal => "terminal"

def ReportFormat.ofText? (s : String) : Option ReportFormat :=
  [ReportFormat.json, .terminal].find? (·.text == s)

/-- What is analyzed, and where and how it is reported. -/
structure AnalyzeOptions where
  paths : List String
  format : ReportFormat := .terminal
  output : Option String := none
  settings : Option String := none
  minRelayLinks : Option Nat := none
  failOnFindings : Bool := false
  verbosity : Nat := 0
  deriving DecidableEq, Repr

inductive Command where
  | analyze (options : AnalyzeOptions)
  | init (force : Bool)
  deriving DecidableEq, Repr

end PassThrough

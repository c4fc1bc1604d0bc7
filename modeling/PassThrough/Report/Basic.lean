import PassThrough.Chain.Basic
import PassThrough.Origin.Basic
import PassThrough.Settings.Basic

/-! Findings and reports. -/

namespace PassThrough

/-- One function that hands a reactive parameter on without reading it. -/
structure Finding where
  severity : Severity
  location : Location
  parameter : String
  parameterKind : Kind
  function : FunctionId
  forwardedTo : String
  chain : List String
  origin : Option Origin
  deriving DecidableEq, Repr

/-- The name under which findings are reported and suppressed. -/
def Finding.kindText : String := "ReactivePassThrough"

structure Stats where
  units : Nat := 0
  uiFunctions : Nat := 0
  callSites : Nat := 0
  unresolvedCallSites : Nat := 0
  chains : Nat := 0
  reportedChains : Nat := 0
  deriving DecidableEq, Repr

structure Report where
  findings : List Finding := []
  suppressed : Nat := 0
  errors : List Diagnostic := []
  stats : Stats := {}
  deriving DecidableEq, Repr

def Stats.add (a b : Stats) : Stats where
  units := a.units + b.units
  uiFunctions := a.uiFunctions + b.uiFunctions
  callSites := a.callSites + b.callSites
  unresolvedCallSites := a.unresolvedCallSites + b.unresolvedCallSites
  chains := a.chains + b.chains
  reportedChains := a.reportedChains + b.reportedChains

/-- The report of two batches that were analysed apart. -/
def Report.merge (a b : Report) : Report where
  findings := a.findings ++ b.findings
  suppressed := a.suppressed + b.suppressed
  errors := a.errors ++ b.errors
  stats := a.stats.add b.stats

def Report.hasFindings (r : Report) : Bool := !r.findings.isEmpty

def Origin.describe (o : Origin) : String :=
  let place := " in '" ++ o.function.name ++ "'"
  match o.holder, o.kind with
  | some name, .directCreation => "originates from '" ++ name ++ "'" ++ place
  | some name, .collectedFromStream =>
    "originates from '" ++ name ++ "' collected from a stream" ++ place
  | none, .directCreation => "originates from a value created inline" ++ place
  | none, .collectedFromStream => "originates from a stream collected inline" ++ place

def arrows (names : List String) : String := " -> ".intercalate names

def Finding.message (f : Finding) : String :=
  "Reactive parameter '" ++ f.parameter ++ "' of '" ++ f.function.name ++
    "' is passed through unchanged to '" ++ f.forwardedTo ++
    "' without being read (chain: " ++ arrows f.chain ++ ")" ++
    (match f.origin with
      | some o => "; " ++ o.describe
      | none => "")

end PassThrough

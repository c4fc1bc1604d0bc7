import PassThrough.Json.Printer
import PassThrough.Report.Basic
import PassThrough.Source.Json

/-! Reports as JSON. -/

namespace PassThrough

def Origin.toJson (o : Origin) : Json :=
  .object [("variable", orNull .string o.holder), ("function", o.function.toJson),
    ("kind", .string o.kind.text), ("location", o.location.toJson)]

def Finding.toJson (f : Finding) : Json :=
  .object [("kind", .string Finding.kindText), ("severity", .string f.severity.text),
    ("location", f.location.toJson), ("parameter", .string f.parameter),
    ("parameter_kind", .string f.parameterKind.text), ("function", .string f.function.name),
    ("function_id", f.function.toJson), ("forwarded_to", .string f.forwardedTo),
    ("chain", textsToJson f.chain), ("origin", orNull Origin.toJson f.origin),
    ("message", .string f.message)]

def Diagnostic.toJson (d : Diagnostic) : Json :=
  .object [("function", orNull FunctionId.toJson d.function),
    ("location", orNull Location.toJson d.location), ("message", .string d.message)]

def Stats.toJson (s : Stats) : Json :=
  .object [("units", .natural s.units), ("ui_functions", .natural s.uiFunctions),
    ("call_sites", .natural s.callSites),
    ("unresolved_call_sites", .natural s.unresolvedCallSites), ("chains", .natural s.chains),
    ("reported_chains", .natural s.reportedChains)]

def Report.toJson (r : Report) : Json :=
  .object [("findings", .array (r.findings.map Finding.toJson)),
    ("suppressed", .natural r.suppressed), ("errors", .array (r.errors.map Diagnostic.toJson)),
    ("stats", r.stats.toJson)]

/-- The report as indented JSON text. -/
def Report.jsonText (r : Report) : String := r.toJson.pretty 0 ++ "\n"

end PassThrough

import PassThrough.Report.Basic

/-! Reports for a terminal, with or without colour. -/

namespace PassThrough

/-- The codes of one coloured piece of text. -/
structure Style where
  codes : List Nat := []

namespace Style

def plain : Style := {}
def bold : Style := ⟨[1]⟩
def dimmed : Style := ⟨[2]⟩
def cyan : Style := ⟨[36]⟩
def blue : Style := ⟨[34]⟩
def boldRed : Style := ⟨[1, 31]⟩
def boldGreen : Style := ⟨[1, 32]⟩
def boldYellow : Style := ⟨[1, 33]⟩
def boldBlue : Style := ⟨[1, 34]⟩

def reset : String := "\x1b[0m"

/-- Text between the codes of its style and the code that resets them. A reset inside the text is
followed by the codes again. -/
def paint (colour : Bool) (s : Style) (text : String) : String :=
  if colour && !s.codes.isEmpty then
    let start := "\x1b[" ++ ";".intercalate (s.codes.map toString) ++ "m"
    start ++ text.replace reset (reset ++ start) ++ reset
  else text

end Style

def Severity.style : Severity → Style
  | .error => .boldRed
  | .warning => .boldYellow
  | .info => .plain

def Severity.label (s : Severity) : String :=
  "[" ++ String.ofList (s.text.toList.map Char.toUpper) ++ "]"

/-- One entry of the numbered list of findings. -/
def Finding.lines (colour : Bool) (number : Nat) (f : Finding) : List String :=
  ["  " ++ toString number ++ ". " ++ f.severity.style.paint colour f.severity.label ++ " " ++
      Style.dimmed.paint colour f.location.text,
    "     " ++ f.message,
    "     " ++ Style.dimmed.paint colour "chain:" ++ " " ++
      Style.cyan.paint colour (arrows f.chain)]

namespace Report

def headerLines (colour : Bool) : List String :=
  [Style.boldBlue.paint colour "Reactive Pass-Through Report",
    Style.blue.paint colour "============================", ""]

def summaryLines (colour : Bool) (r : Report) : List String :=
  [Style.bold.paint colour "Summary:",
    "  Units analyzed: " ++ toString r.stats.units,
    "  UI functions: " ++ toString r.stats.uiFunctions,
    "  Call sites: " ++ toString r.stats.callSites ++ " (" ++
      toString r.stats.unresolvedCallSites ++ " unresolved)",
    "  Chains: " ++ toString r.stats.chains ++ " (" ++ toString r.stats.reportedChains ++
      " reported)"] ++
  (if r.suppressed > 0 then ["  Suppressed findings: " ++ toString r.suppressed] else []) ++ [""]

def findingLines (colour : Bool) (r : Report) : List String :=
  if r.findings.isEmpty then []
  else
    (Style.bold.paint colour "Findings" ++ " (" ++ toString r.findings.length ++ "):") ::
      (r.findings.zipIdx 1).flatMap (fun (f, i) => f.lines colour i) ++ [""]

def errorLines (colour : Bool) (r : Report) : List String :=
  if r.errors.isEmpty then []
  else
    (Style.boldYellow.paint colour "Analysis errors" ++ " (" ++ toString r.errors.length ++
      "):") :: r.errors.map (fun e => "  - " ++ e.text) ++ [""]

def statusLine (colour : Bool) (r : Report) : String :=
  if r.hasFindings then
    Style.boldRed.paint colour "✗" ++ " " ++ toString r.findings.length ++
      " unnecessary relay layer(s) found"
  else Style.boldGreen.paint colour "✓" ++ " No reactive pass-through chains found"

def terminalText (colour : Bool) (r : Report) : String :=
  let lines := headerLines colour ++ r.summaryLines colour ++ r.findingLines colour ++
    r.errorLines colour ++ [r.statusLine colour]
  String.join (lines.map (· ++ "\n"))

end Report
end PassThrough

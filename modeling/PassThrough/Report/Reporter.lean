import PassThrough.Report.Basic
import PassThrough.Report.Suppression

/-! Turning chains into findings, one for each link, at most once for a link. -/

namespace PassThrough

structure Reporter where
  graph : Graph
  detection : Detection
  reported : List Link := []
  findings : List Finding := []
  suppressed : Nat := 0
  reportedChains : Nat := 0

namespace Reporter

def finding (r : Reporter) (node : Node) (p : Parameter) (next : String) (path : List String)
    (origin : Option Origin) : Finding where
  severity := r.detection.severity
  location := p.location
  parameter := p.name
  parameterKind := p.kind
  function := node.id
  forwardedTo := next
  chain := path
  origin := origin

/-- Reports one link, which hands the value on to the function named `next`. -/
def reportLink (path : List String) (origin : Option Origin) (r : Reporter)
    (link : Link × String) : Reporter :=
  let (l, next) := link
  if r.reported.contains l then r
  else
    let r := { r with reported := r.reported ++ [l] }
    match r.graph.node? l.node with
    | none => r
    | some node =>
      match node.param? l.param with
      | none => r
      | some p =>
        if node.decl.isSuppressed r.detection.suppressionIds then
          { r with suppressed := r.suppressed + 1 }
        else { r with findings := r.findings ++ [r.finding node p next path origin] }

/-- Reports the links of a chain that were not reported before, and says how many findings that
gave. -/
def report (r : Reporter) (c : Chain) (origin : Option Origin) : Reporter × Nat :=
  let path := c.path r.graph
  let after := (c.links.zip path.tail).foldl (reportLink path origin) r
  let emitted := after.findings.length - r.findings.length
  ({ after with reportedChains := r.reportedChains + if emitted = 0 then 0 else 1 }, emitted)

end Reporter
end PassThrough

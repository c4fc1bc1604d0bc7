import PassThrough.Graph.Build
import PassThrough.Origin.Resolve
import PassThrough.Report.Reporter

/-! The whole analysis: graph, chains, origins, report. -/

namespace PassThrough

/-- Reports the chains that qualify, in order. -/
def reportChains (s : Settings) (g : Graph) (chains : List Chain) : Reporter :=
  (chains.filter (·.qualifies s.detection.minRelayLinks)).foldl
    (fun r c => (r.report c (g.originOf s.vocabulary c)).1)
    { graph := g, detection := s.detection }

/-- Finds the reactive parameters that a program passes through unread. -/
def analyze (s : Settings) (files : List SourceFile) : Report :=
  let (g, errors) := Graph.build s.vocabulary s.detection.uiMarker files
  let (chains, memo) := (g.track g.memoUsage).run { errors }
  let reporter := reportChains s g chains
  { findings := reporter.findings
    suppressed := reporter.suppressed
    errors := memo.errors
    stats :=
      { units := files.length
        uiFunctions := g.nodes.length
        callSites := g.siteCount
        unresolvedCallSites := g.unresolvedCount
        chains := chains.length
        reportedChains := reporter.reportedChains } }

end PassThrough

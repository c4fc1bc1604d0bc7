import Mathlib.Data.Finset.Card
import Mathlib.Data.Finset.Dedup
import PassThrough.Proofs.Relay
import PassThrough.Proofs.Reporter

/-! What an analysis reports. The main statement says which parameters are counted, as a finding or as a suppressed one:
those on a run of relays that is long enough and at whose end the value is needed. -/

namespace PassThrough

/-- An analysis reports the chains of the graph, with the diagnostics of its building and no others. -/
theorem analyze_eq (s : Settings) (files : List SourceFile) :
    let built := Graph.build s.vocabulary s.detection.uiMarker files
    let reporter := reportChains s built.1 built.1.chains
    analyze s files =
      { findings := reporter.findings
        suppressed := reporter.suppressed
        errors := built.2
        stats :=
          { units := files.length
            uiFunctions := built.1.nodes.length
            callSites := built.1.siteCount
            unresolvedCallSites := built.1.unresolvedCount
            chains := built.1.chains.length
            reportedChains := reporter.reportedChains } } := by
  intro built reporter
  obtain ⟨hchains, herrors⟩ := (Graph.build_lawful s.vocabulary s.detection.uiMarker files).track_run built.2
  simp only [analyze, reporter, built] at hchains herrors ⊢
  generalize StateT.run _ _ = tracked at hchains herrors ⊢
  obtain ⟨chains, memo⟩ := tracked
  obtain rfl : chains = _ := hchains
  dsimp only at herrors ⊢
  rw [herrors]

namespace Graph
variable {g : Graph} {ids : List String} {l : Link}

/-- The pair names the link: it holds the id of its function and its parameter. -/
def Names (g : Graph) (pair : FunctionId × String) (l : Link) : Prop :=
  ∃ node, g.node? l.node = some node ∧ pair = (node.id, l.param)

/-- The function of the link has its findings suppressed. -/
def SuppressedAt (g : Graph) (ids : List String) (l : Link) : Prop :=
  ∃ node, g.node? l.node = some node ∧ node.decl.isSuppressed ids = true

theorem Lawful.names_unique (h : g.Lawful) {pair : FunctionId × String} {l' : Link} (hl : g.Names pair l)
    (hl' : g.Names pair l') : l = l' := by
  obtain ⟨node, hn, rfl⟩ := hl
  obtain ⟨node', hn', heq⟩ := hl'
  obtain ⟨hid, hparam⟩ := Prod.mk.inj heq
  have hnode := h.node_unique hn hn' hid
  cases l
  cases l'
  simp_all

theorem isSilenced_eq_true_iff : g.isSilenced ids l = true ↔ (g.param? l).isSome = true ∧ g.SuppressedAt ids l := by
  cases hn : g.node? l.node <;> simp [isSilenced, SuppressedAt, param?, hn]

theorem pair?_eq_some_iff {pair : FunctionId × String} : g.pair? ids l = some pair ↔
    (g.param? l).isSome = true ∧ ¬ g.SuppressedAt ids l ∧ g.Names pair l := by
  cases hn : g.node? l.node with
  | none => simp [pair?, Names, hn]
  | some node => simp [pair?, SuppressedAt, Names, param?, hn, and_assoc, @eq_comm _ pair]

theorem Lawful.passedOn_declared (h : g.Lawful) {least : Nat} (hl : g.PassedOn least l) : (g.param? l).isSome = true := by
  obtain ⟨start, run, stop, hrun, hmem, -, -⟩ := hl
  obtain ⟨p, hp⟩ := param?_isSome_of_mem_reactiveLinks (h.relay_declared (hrun.relay_of_mem l hmem)).1
  simp [hp]

/-- A link has a finding iff it was reported and its function is not suppressed. -/
theorem Lawful.exists_names_iff (h : g.Lawful) {findings : List Finding} {reported : List Link}
    (hpairs : findings.map Finding.pair = reported.filterMap (g.pair? ids))
    (hdeclared : ∀ l ∈ reported, (g.param? l).isSome = true) (l : Link) :
    (∃ f ∈ findings, g.Names f.pair l) ↔ l ∈ reported ∧ ¬ g.SuppressedAt ids l := by
  constructor
  · rintro ⟨f, hf, hnames⟩
    have hmem : f.pair ∈ reported.filterMap (g.pair? ids) := hpairs ▸ List.mem_map_of_mem hf
    obtain ⟨l', hl', hpair⟩ := List.mem_filterMap.1 hmem
    obtain ⟨-, hs, hnames'⟩ := pair?_eq_some_iff.1 hpair
    obtain rfl := h.names_unique hnames hnames'
    exact ⟨hl', hs⟩
  · rintro ⟨hl, hs⟩
    obtain ⟨p, hp⟩ := Option.isSome_iff_exists.1 (hdeclared l hl)
    obtain ⟨node, hn, -⟩ := param?_eq_some_iff.1 hp
    have hpair : g.pair? ids l = some (node.id, l.param) := pair?_eq_some_iff.2 ⟨hdeclared l hl, hs, node, hn, rfl⟩
    have hmem : (node.id, l.param) ∈ findings.map Finding.pair := hpairs ▸ List.mem_filterMap.2 ⟨l, hl, hpair⟩
    obtain ⟨f, hf, heq⟩ := List.mem_map.1 hmem
    exact ⟨f, hf, node, hn, heq⟩

end Graph

/-- The links that an analysis has reported, as findings or as suppressed ones, each once. -/
theorem exists_reported (s : Settings) (files : List SourceFile) :
    let g := (Graph.build s.vocabulary s.detection.uiMarker files).1
    ∃ reported : List Link, reported.Nodup ∧ (∀ l, l ∈ reported ↔ g.PassedOn s.detection.minRelayLinks l) ∧
      (analyze s files).findings.map Finding.pair = reported.filterMap (g.pair? s.detection.suppressionIds) ∧
      (analyze s files).suppressed = reported.countP (g.isSilenced s.detection.suppressionIds) := by
  intro g
  have hg : g.Lawful := Graph.build_lawful s.vocabulary s.detection.uiMarker files
  obtain ⟨hb, hgraph, hdetection, hmem⟩ := reportChains_balanced s g g.chains
  refine ⟨(reportChains s g g.chains).reported, hb.nodup, fun l => (hmem l).trans (hg.passedOn_iff _ l).symm, ?_, ?_⟩
  · have hpairs := hb.findings_eq
    rw [hgraph, hdetection] at hpairs
    rw [← hpairs, analyze_eq]
  · have hcount := hb.suppressed_eq
    rw [hgraph, hdetection] at hcount
    rw [← hcount, analyze_eq]

/-- A parameter is counted, by a finding or among the suppressed ones, iff it lies on a run of enough relays at whose end the
value is needed. No parameter is counted twice, and suppression decides alone which way it is counted. -/
theorem analyze_counts_iff_passedOn (s : Settings) (files : List SourceFile) :
    let g := (Graph.build s.vocabulary s.detection.uiMarker files).1
    let report := analyze s files
    ∃ dropped : Finset Link, report.suppressed = dropped.card ∧
      (∀ l ∈ dropped, g.SuppressedAt s.detection.suppressionIds l) ∧
      (∀ f ∈ report.findings, ∃ l, g.Names f.pair l ∧ ¬ g.SuppressedAt s.detection.suppressionIds l) ∧
      (report.findings.map Finding.pair).Nodup ∧
      ∀ l, ((∃ f ∈ report.findings, g.Names f.pair l) ∨ l ∈ dropped) ↔ g.PassedOn s.detection.minRelayLinks l := by
  intro g report
  have hg : g.Lawful := Graph.build_lawful s.vocabulary s.detection.uiMarker files
  obtain ⟨reported, hnodup, hmem, hpairs, hsuppressed⟩ := exists_reported s files
  have hdeclared : ∀ l ∈ reported, (g.param? l).isSome = true := fun l hl => hg.passedOn_declared ((hmem l).1 hl)
  have hdropped : ∀ l, l ∈ (reported.filter (g.isSilenced s.detection.suppressionIds)).toFinset ↔
      l ∈ reported ∧ g.SuppressedAt s.detection.suppressionIds l := by
    intro l
    rw [List.mem_toFinset, List.mem_filter, Graph.isSilenced_eq_true_iff]
    exact and_congr_right fun hl => and_iff_right (hdeclared l hl)
  refine ⟨(reported.filter (g.isSilenced s.detection.suppressionIds)).toFinset, ?_, ?_, ?_, ?_, ?_⟩
  · rw [List.toFinset_card_of_nodup (hnodup.filter _), ← List.countP_eq_length_filter]
    exact hsuppressed
  · exact fun l hl => ((hdropped l).1 hl).2
  · intro f hf
    have hmem : f.pair ∈ reported.filterMap (g.pair? s.detection.suppressionIds) := hpairs ▸ List.mem_map_of_mem hf
    obtain ⟨l, -, hpair⟩ := List.mem_filterMap.1 hmem
    obtain ⟨-, hs, hnames⟩ := Graph.pair?_eq_some_iff.1 hpair
    exact ⟨l, hnames, hs⟩
  · rw [hpairs]
    exact hnodup.filterMap fun l l' k hl hl' =>
      hg.names_unique (Graph.pair?_eq_some_iff.1 hl).2.2 (Graph.pair?_eq_some_iff.1 hl').2.2
  · intro l
    rw [hg.exists_names_iff hpairs hdeclared, hdropped, ← hmem, ← and_or_left, and_iff_left (Classical.em _).symm]

end PassThrough

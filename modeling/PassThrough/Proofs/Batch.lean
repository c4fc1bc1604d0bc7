import Mathlib.Data.List.Perm.Basic
import PassThrough.Proofs.Analysis
import PassThrough.Proofs.Inclusion

/-! Batches analysed together or apart. Where two batches share no function and do not call each other, the graph of both
holds the graphs of each, one behind the other, and the reporter of both does what the two reporters do in turn. -/

namespace PassThrough

namespace Reporter
variable {g h : Graph} {σ : NodeId → NodeId} {base r copy : Reporter} {c : Chain}

/-- What is fresh among copies is the copy of what is fresh, where the links seen before all of it are no copies. -/
theorem fresh_renumber (e : g.Embedding h σ) {before seen : List Link} {xs : List (Link × String)}
    (hbefore : ∀ l : Link, g.Holds l.node → l.renumber σ ∉ before) (hseen : ∀ l ∈ seen, g.Holds l.node)
    (hxs : ∀ x ∈ xs, g.Holds x.1.node) :
    fresh (before ++ seen.map (Link.renumber σ)) (xs.map (Prod.map (Link.renumber σ) id)) =
      (fresh seen xs).map (Prod.map (Link.renumber σ) id) := by
  induction xs generalizing seen with
  | nil => rfl
  | cons x rest ih =>
    obtain ⟨hx, hrest⟩ := List.forall_mem_cons.1 hxs
    have hcontains : (before ++ seen.map (Link.renumber σ)).contains (x.1.renumber σ) = seen.contains x.1 := by
      rw [Bool.eq_iff_iff, List.contains_iff_mem, List.contains_iff_mem, List.mem_append, List.mem_map]
      constructor
      · rintro (hmem | ⟨l, hl, heq⟩)
        · exact absurd hmem (hbefore x.1 hx)
        · rwa [← (e.renumber_inj (hseen l hl) hx).1 heq]
      · exact fun hmem => .inr ⟨x.1, hmem, rfl⟩
    simp only [List.map_cons, fresh, Prod.map_fst, hcontains]
    split
    · exact ih hseen hrest
    · have hmore : ∀ l ∈ seen ++ [x.1], g.Holds l.node := by
        intro l hl
        rcases List.mem_append.1 hl with hl | hl
        · exact hseen l hl
        · rwa [List.mem_singleton.1 hl]
      simpa using ih hmore hrest

/-- After `base`, the reporter `copy` has reported on the graph `h` what `r` has reported on `g`. -/
structure Repeats (g h : Graph) (σ : NodeId → NodeId) (base r copy : Reporter) : Prop where
  graph : r.graph = g
  graph_copy : copy.graph = h
  detection : copy.detection = r.detection
  held : ∀ l ∈ r.reported, g.Holds l.node
  reported : copy.reported = base.reported ++ r.reported.map (Link.renumber σ)
  findings : copy.findings = base.findings ++ r.findings
  suppressed : copy.suppressed = base.suppressed + r.suppressed
  reportedChains : copy.reportedChains = base.reportedChains + r.reportedChains

private theorem findingAt?_renumber (e : g.Inclusion h σ) (d : Detection) (path : List String) (origin : Option Origin)
    {x : Link × String} (hx : g.Holds x.1.node) :
    findingAt? h d path origin (x.map (Link.renumber σ) id) = findingAt? g d path origin x := by
  have hnode : h.node? (σ x.1.node) = g.node? x.1.node := e.same hx
  simp [findingAt?, Link.renumber, hnode]

private theorem stepsOf_renumber (e : g.Inclusion h σ) (hc : c ∈ g.chains) :
    stepsOf h (c.renumber σ) = (stepsOf g c).map (Prod.map (Link.renumber σ) id) := by
  rw [stepsOf, stepsOf, e.path_eq hc, ← List.zip_map_left]
  rfl

private theorem holds_of_mem_stepsOf (e : g.Inclusion h σ) (hc : c ∈ g.chains) : ∀ x ∈ stepsOf g c, g.Holds x.1.node := by
  intro x hx
  have hlink : x.1 ∈ c.links := by
    rw [← map_fst_stepsOf g c]
    exact List.mem_map_of_mem hx
  exact e.holds_of_mem_chain hc x.1 (List.mem_append_left _ hlink)

theorem Repeats.report (hr : Repeats g h σ base r copy) (e : g.Inclusion h σ)
    (hbase : ∀ l : Link, g.Holds l.node → l.renumber σ ∉ base.reported) (hc : c ∈ g.chains) (origin : Option Origin) :
    Repeats g h σ base (r.report c origin).1 (copy.report (c.renumber σ) origin).1 := by
  have hsteps := holds_of_mem_stepsOf e hc
  have hheld := fun x hx => hsteps x (fresh_subset r.reported _ x hx)
  obtain ⟨rfl, rfl, hdetection, hreportedHeld, hreported, hfindings, hsuppressed, hchains⟩ := hr
  have hfresh : fresh copy.reported (stepsOf copy.graph (c.renumber σ)) =
      (fresh r.reported (stepsOf r.graph c)).map (Prod.map (Link.renumber σ) id) := by
    rw [hreported, stepsOf_renumber e hc]
    exact fresh_renumber e.toEmbedding hbase hreportedHeld hsteps
  have hadded : copy.added (c.renumber σ) origin = r.added c origin := by
    rw [added, added, hfresh, List.filterMap_map, hdetection, e.path_eq hc]
    exact List.filterMap_congr fun x hx => findingAt?_renumber e _ _ origin (hheld x hx)
  rw [report_eq, report_eq]
  refine ⟨rfl, rfl, hdetection, ?_, ?_, ?_, ?_, ?_⟩
  · intro l hl
    rcases List.mem_append.1 hl with hl | hl
    · exact hreportedHeld l hl
    · obtain ⟨x, hx, rfl⟩ := List.mem_map.1 hl
      exact hheld x hx
  · simp only [hfresh]
    rw [hreported]
    simp
  · simp [hadded, hfindings]
  · simp only [hfresh, hsuppressed, hdetection, List.countP_map, Nat.add_assoc]
    congr 2
    exact List.countP_congr fun x hx => by simp [e.isSilenced_eq (hheld x hx)]
  · simp only [hadded, hchains, Nat.add_assoc]

/-- A run over copies of chains repeats the run over the chains. -/
theorem Repeats.foldl (hr : Repeats g h σ base r copy) (e : g.Inclusion h σ)
    (hbase : ∀ l : Link, g.Holds l.node → l.renumber σ ∉ base.reported) (v : Vocabulary) {cs : List Chain}
    (hcs : ∀ c ∈ cs, c ∈ g.chains) :
    Repeats g h σ base (cs.foldl (fun r c => (r.report c (g.originOf v c)).1) r)
      ((cs.map (Chain.renumber σ)).foldl (fun r c => (r.report c (h.originOf v c)).1) copy) := by
  induction cs generalizing r copy with
  | nil => exact hr
  | cons c rest ih =>
    obtain ⟨hc, hrest⟩ := List.forall_mem_cons.1 hcs
    rw [List.map_cons, List.foldl_cons, List.foldl_cons, e.originOf_eq hc]
    exact ih (hr.report e hbase hc _) hrest

end Reporter

private theorem filter_qualifies_renumber (σ : NodeId → NodeId) (cs : List Chain) (least : Nat) :
    (cs.map (Chain.renumber σ)).filter (·.qualifies least) = (cs.filter (·.qualifies least)).map (Chain.renumber σ) := by
  rw [List.filter_map]
  congr 1
  exact List.filter_congr fun c _ => Chain.qualifies_of_renumber rfl least

/-- Reporting copies of the chains of two graphs, first of one and then of the other, gives what reporting them apart
gives. -/
theorem reportChains_append (s : Settings) {a b h : Graph} {σ τ : NodeId → NodeId} (left : a.Inclusion h σ)
    (right : b.Inclusion h τ)
    (hapart : ∀ k l : Link, a.Holds k.node → b.Holds l.node → k.renumber σ ≠ l.renumber τ) :
    let both := reportChains s h (a.chains.map (Chain.renumber σ) ++ b.chains.map (Chain.renumber τ))
    let first := reportChains s a a.chains
    let second := reportChains s b b.chains
    both.findings = first.findings ++ second.findings ∧ both.suppressed = first.suppressed + second.suppressed ∧
      both.reportedChains = first.reportedChains + second.reportedChains := by
  intro both first second
  have hmem : ∀ (g : Graph) (c : Chain), c ∈ g.chains.filter (·.qualifies s.detection.minRelayLinks) → c ∈ g.chains :=
    fun _ _ hc => List.mem_of_mem_filter hc
  have hempty : Reporter.Repeats a h σ { graph := h, detection := s.detection } { graph := a, detection := s.detection }
      { graph := h, detection := s.detection } := ⟨rfl, rfl, rfl, by simp, rfl, rfl, rfl, rfl⟩
  have hfirst := hempty.foldl left (by simp) s.vocabulary (hmem a)
  -- the second run starts where the first one ends
  generalize hmiddle : List.foldl _ _ (List.map (Chain.renumber σ) _) = middle at hfirst
  have hdetection : middle.detection = s.detection :=
    hfirst.detection.trans (reportChains_balanced s a a.chains).2.2.1
  have hstart : Reporter.Repeats b h τ middle { graph := b, detection := s.detection } middle :=
    ⟨rfl, hfirst.graph_copy, hdetection, by simp, by simp, by simp, rfl, rfl⟩
  have hbase : ∀ l : Link, b.Holds l.node → l.renumber τ ∉ middle.reported := by
    intro l hl hmem
    rw [hfirst.reported, List.nil_append] at hmem
    obtain ⟨k, hk, heq⟩ := List.mem_map.1 hmem
    exact hapart k l (hfirst.held k hk) hl heq
  have hsecond : Reporter.Repeats b h τ middle second both := by
    simp only [both, second, reportChains, List.filter_append, filter_qualifies_renumber, List.foldl_append, hmiddle]
    exact hstart.foldl right hbase s.vocabulary (hmem b)
  refine ⟨?_, ?_, ?_⟩
  · rw [hsecond.findings, hfirst.findings]
    rfl
  · rw [hsecond.suppressed, hfirst.suppressed, Nat.zero_add]
    rfl
  · rw [hsecond.reportedChains, hfirst.reportedChains, Nat.zero_add]
    rfl

namespace Graph
variable {a b h : Graph}

/-- The functions of `a` and then those of `b` make up `h`. -/
structure Join (a b h : Graph) : Prop where
  length_eq : h.nodes.length = a.nodes.length + b.nodes.length
  left : Inclusion a h (0 + ·)
  right : Inclusion b h (a.nodes.length + ·)

namespace Join

/-- What the functions give is what those of `a` give and then what those of `b` give. -/
theorem flatMap_eq (j : Join a b h) {α β : Type} {ofCopy : NodeId → List β} {ofNode ofNode' : NodeId → List α}
    {r r' : α → β} (hleft : ∀ n, a.Holds n → ofCopy (0 + n) = (ofNode n).map r)
    (hright : ∀ n, b.Holds n → ofCopy (a.nodes.length + n) = (ofNode' n).map r') :
    (List.range h.nodes.length).flatMap ofCopy = ((List.range a.nodes.length).flatMap ofNode).map r ++
      ((List.range b.nodes.length).flatMap ofNode').map r' := by
  have hrange : List.range h.nodes.length =
      (List.range a.nodes.length).map (0 + ·) ++ (List.range b.nodes.length).map (a.nodes.length + ·) := by
    simp [j.length_eq, List.range_add]
  rw [hrange, List.flatMap_append, Embedding.flatMap_copies hleft, Embedding.flatMap_copies hright]

theorem sites_eq (j : Join a b h) : h.sites.flatten =
    a.sites.flatten.map (CallSite.renumber (0 + ·)) ++ b.sites.flatten.map (CallSite.renumber (a.nodes.length + ·)) := by
  rw [j.left.target.flatten_sites, j.left.source.flatten_sites, j.right.source.flatten_sites]
  exact j.flatMap_eq (fun _ => j.left.sitesOf_eq) fun _ => j.right.sitesOf_eq

theorem chains_eq (j : Join a b h) : h.chains =
    a.chains.map (Chain.renumber (0 + ·)) ++ b.chains.map (Chain.renumber (a.nodes.length + ·)) := by
  have hlinks : h.reactiveLinks =
      a.reactiveLinks.map (Link.renumber (0 + ·)) ++ b.reactiveLinks.map (Link.renumber (a.nodes.length + ·)) := by
    rw [reactiveLinks_eq, reactiveLinks_eq, reactiveLinks_eq]
    exact j.flatMap_eq (fun _ => j.left.reactiveLinksOf_eq) fun _ => j.right.reactiveLinksOf_eq
  rw [chains, hlinks, List.filterMap_append, j.left.filterMap_chain?, j.right.filterMap_chain?]

theorem bindDiagnostics_eq (j : Join a b h) : h.nodes.flatMap (bindDiagnostics h.nodes) =
    a.nodes.flatMap (bindDiagnostics a.nodes) ++ b.nodes.flatMap (bindDiagnostics b.nodes) := by
  rw [flatMap_bindDiagnostics, flatMap_bindDiagnostics, flatMap_bindDiagnostics]
  have hleft : ∀ n, a.Holds n → h.bindDiagnosticsOf (0 + n) = (a.bindDiagnosticsOf n).map id := by
    intro n hn
    rw [List.map_id]
    exact j.left.bindDiagnosticsOf_eq hn
  have hright : ∀ n, b.Holds n → h.bindDiagnosticsOf (a.nodes.length + n) = (b.bindDiagnosticsOf n).map id := by
    intro n hn
    rw [List.map_id]
    exact j.right.bindDiagnosticsOf_eq hn
  have hjoin := j.flatMap_eq hleft hright
  rwa [List.map_id, List.map_id] at hjoin

theorem counts_eq (j : Join a b h) : h.siteCount = a.siteCount + b.siteCount ∧
    h.unresolvedCount = a.unresolvedCount + b.unresolvedCount ∧ h.chains.length = a.chains.length + b.chains.length := by
  refine ⟨?_, ?_, ?_⟩
  · rw [siteCount, j.sites_eq, List.length_append, List.length_map, List.length_map]
    rfl
  · rw [unresolvedCount, j.sites_eq, List.countP_append, List.countP_map, List.countP_map]
    rfl
  · rw [j.chains_eq, List.length_append, List.length_map, List.length_map]

end Join

/-- The copies of links in the two rows differ. -/
theorem renumber_ne_of_holds {k l : Link} (hk : a.Holds k.node) :
    k.renumber (0 + ·) ≠ l.renumber (a.nodes.length + ·) := by
  intro heq
  obtain ⟨hnode, -⟩ := Link.mk.inj heq
  dsimp only at hnode
  rw [Nat.zero_add] at hnode
  exact absurd (hnode ▸ holds_iff.1 hk) (Nat.not_lt.2 (Nat.le_add_right _ _))

private theorem neverCalls_build {v : Vocabulary} {marker : String} {A B : List SourceFile}
    (h : ∀ f ∈ markedFunctions marker A, ∀ call ∈ f.2.renderCalls, ∀ f' ∈ markedFunctions marker B,
      call.target ≠ .resolved f'.2.id) :
    NeverCalls (build v marker A).1.nodes (build v marker B).1.nodes := by
  intro caller hcaller call hcall callee hcallee
  obtain ⟨x, hx, rfl⟩ := exists_of_mem_build hcaller
  obtain ⟨y, hy, rfl⟩ := exists_of_mem_build hcallee
  exact h x hx call hcall y hy

/-- The graph of two batches without a common id: the functions of each, and the duplicates of each. -/
theorem build_append (v : Vocabulary) (marker : String) {A B : List SourceFile}
    (hids : ∀ f ∈ markedFunctions marker A, ∀ f' ∈ markedFunctions marker B, f.2.id ≠ f'.2.id) :
    (build v marker (A ++ B)).1.nodes = (build v marker A).1.nodes ++ (build v marker B).1.nodes ∧
      (addNodes v [] (markedFunctions marker (A ++ B))).2 =
        (addNodes v [] (markedFunctions marker A)).2 ++ (addNodes v [] (markedFunctions marker B)).2 := by
  have hmarked : markedFunctions marker (A ++ B) = markedFunctions marker A ++ markedFunctions marker B :=
    List.flatMap_append
  have hnew : ∀ x ∈ markedFunctions marker B, ∀ node ∈ (addNodes v [] (markedFunctions marker A)).1, node.id ≠ x.2.id := by
    intro x hx node hnode
    obtain ⟨y, hy, rfl⟩ := exists_of_mem_build hnode
    exact hids y hy x hx
  have hadd := addNodes_append v [] (markedFunctions marker A) (markedFunctions marker B)
  have hafter := addNodes_after v _ [] _ hnew
  rw [List.append_nil] at hafter
  rw [hafter, ← hmarked] at hadd
  exact ⟨congrArg Prod.fst hadd, congrArg Prod.snd hadd⟩

private theorem join_build (v : Vocabulary) (marker : String) {A B : List SourceFile}
    (hids : ∀ f ∈ markedFunctions marker A, ∀ f' ∈ markedFunctions marker B, f.2.id ≠ f'.2.id)
    (hAB : ∀ f ∈ markedFunctions marker A, ∀ call ∈ f.2.renderCalls, ∀ f' ∈ markedFunctions marker B,
      call.target ≠ .resolved f'.2.id)
    (hBA : ∀ f ∈ markedFunctions marker B, ∀ call ∈ f.2.renderCalls, ∀ f' ∈ markedFunctions marker A,
      call.target ≠ .resolved f'.2.id) :
    Join (build v marker A).1 (build v marker B).1 (build v marker (A ++ B)).1 := by
  obtain ⟨hnodes, -⟩ := build_append v marker hids
  have hlawful := fun files => build_lawful v marker files
  have hout := neverCalls_build (v := v) hAB
  have hin := neverCalls_build (v := v) hBA
  refine ⟨by rw [hnodes, List.length_append], ?_, ?_⟩
  · exact inclusion_of_append [] _ (hlawful A) (hlawful _) hnodes hout hin
  · refine inclusion_of_append _ [] (hlawful B) (hlawful _) (by rw [hnodes, List.append_nil]) ?_ ?_
    · rwa [List.append_nil]
    · rwa [List.append_nil]

end Graph

/-- Two batches that share no function and do not call each other may be analysed together or apart: the findings, with all
that they say, the counts and the statistics are those of the merged reports, and so are the diagnostics up to their order. -/
theorem analyze_append_eq_merge (s : Settings) (A B : List SourceFile)
    (hids : ∀ f ∈ markedFunctions s.detection.uiMarker A, ∀ f' ∈ markedFunctions s.detection.uiMarker B,
      f.2.id ≠ f'.2.id)
    (hAB : ∀ f ∈ markedFunctions s.detection.uiMarker A, ∀ call ∈ f.2.renderCalls,
      ∀ f' ∈ markedFunctions s.detection.uiMarker B, call.target ≠ .resolved f'.2.id)
    (hBA : ∀ f ∈ markedFunctions s.detection.uiMarker B, ∀ call ∈ f.2.renderCalls,
      ∀ f' ∈ markedFunctions s.detection.uiMarker A, call.target ≠ .resolved f'.2.id) :
    let joint := analyze s (A ++ B)
    let merged := (analyze s A).merge (analyze s B)
    joint.findings = merged.findings ∧ joint.suppressed = merged.suppressed ∧ joint.stats = merged.stats ∧
      joint.errors.Perm merged.errors := by
  intro joint merged
  have j := Graph.join_build s.vocabulary s.detection.uiMarker hids hAB hBA
  have hduplicates := (Graph.build_append s.vocabulary s.detection.uiMarker hids).2
  obtain ⟨hfindings, hsuppressed, hreported⟩ := reportChains_append s j.left j.right
    fun _ _ hk _ => Graph.renumber_ne_of_holds hk
  rw [← j.chains_eq] at hfindings hsuppressed hreported
  obtain ⟨hsites, hunresolved, hchains⟩ := j.counts_eq
  simp only [joint, merged, analyze_eq, Report.merge]
  refine ⟨hfindings, hsuppressed, ?_, ?_⟩
  · simp only [Stats.add, List.length_append, j.length_eq, hsites, hunresolved, hchains, hreported]
  · -- the duplicates of both batches come before the binding problems of either
    have herrors : ∀ files, (Graph.build s.vocabulary s.detection.uiMarker files).2 =
        (addNodes s.vocabulary [] (markedFunctions s.detection.uiMarker files)).2 ++
          (Graph.build s.vocabulary s.detection.uiMarker files).1.nodes.flatMap
            (bindDiagnostics (Graph.build s.vocabulary s.detection.uiMarker files).1.nodes) := fun _ => rfl
    rw [herrors, herrors, herrors, hduplicates, j.bindDiagnostics_eq, List.append_assoc, List.append_assoc]
    exact (List.perm_append_comm_assoc _ _ _).append_left _

theorem analyze_append_eq_merge_two_panels :
    let s : Settings := { detection := { minRelayLinks := 1 } }
    let upper := [⟨"a.kt", [Sample.relay "Panel" (Sample.reader "Label"), Sample.reader "Label"]⟩]
    let lower := [⟨"b.kt", [Sample.relay "Footer" (Sample.reader "Note"), Sample.reader "Note"]⟩]
    (analyze s (upper ++ lower)).findings = ((analyze s upper).merge (analyze s lower)).findings ∧
      (analyze s (upper ++ lower)).stats = ((analyze s upper).merge (analyze s lower)).stats := by
  intro s upper lower
  obtain ⟨hfindings, -, hstats, -⟩ := analyze_append_eq_merge s upper lower (by decide +kernel) (by decide +kernel)
    (by decide +kernel)
  exact ⟨hfindings, hstats⟩

end PassThrough

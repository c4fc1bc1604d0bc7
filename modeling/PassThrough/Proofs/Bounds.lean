import PassThrough.Proofs.Analysis
import PassThrough.Proofs.CheckedScope
import PassThrough.Proofs.CheckedWalk
import PassThrough.Proofs.Heads

/-! The whole analysis over tables, with every access checked. It raises no fault and gives the report. -/

namespace PassThrough

private theorem findM?_eq_pure {α : Type} {p : α → Except Fault Bool} {q : α → Bool} {as : List α}
    (h : ∀ a ∈ as, p a = pure (q a)) : as.findM? p = pure (as.find? q) := by
  induction as with
  | nil => rfl
  | cons a rest ih =>
    obtain ⟨ha, hrest⟩ := List.forall_mem_cons.1 h
    rw [List.findM?, ha, pure_bind, List.find?_cons]
    cases q a with
    | true => rfl
    | false => exact ih hrest

namespace Tables

/-- Where a name used as an argument at a site gets its value. A visit of the caller's body finds what binds the name. -/
def nameStep (v : Vocabulary) (caller : Node) (site : CallSite) (name : String) : OriginStep :=
  match caller.decl.findBinder site.position name with
  | none => Graph.outerParam caller name
  | some .inner => .lost
  | some (.val true _ _) => .lost
  | some (.val false none _) => .lost
  | some (.val false (some e) location) =>
    match v.creationKind e with
    | some kind => .found ⟨some name, caller.id, kind, location⟩
    | none =>
      match e.ident? with
      | some source => Graph.outerParam caller source
      | none => .lost

/-- Where the argument bound to a parameter at a site gets its value. -/
def originStep (t : Tables) (v : Vocabulary) (s : SiteId) (param : String) : Except Fault OriginStep := do
  let site ← t.siteAt s
  let caller ← t.nodeAt s.caller
  match site.argument? param with
  | none => pure .lost
  | some e =>
    match v.creationKind e with
    | some kind => pure (.found ⟨none, caller.id, kind, site.location⟩)
    | none =>
      match e.ident? with
      | some name => pure (nameStep v caller site name)
      | none => pure .lost

/-- The first site that supplies a parameter. -/
def supplier (t : Tables) (l : Link) : Except Fault (Option SiteId) := do
  let sites ← t.incomingAt l.node
  sites.findM? fun s => do
    let site ← t.siteAt s
    pure (site.argument? l.param).isSome

def originFrom (t : Tables) (v : Vocabulary) (pool : List Link) (s : SiteId) (param : String) :
    Except Fault (Option Origin) := do
  let step ← t.originStep v s param
  match step with
  | .found origin => pure (some origin)
  | .lost => pure none
  | .outer outer =>
    if _h : ⟨s.caller, outer⟩ ∈ pool then do
      let found ← t.supplier ⟨s.caller, outer⟩
      match found with
      | some supplier => originFrom t v (Graph.without pool ⟨s.caller, outer⟩) supplier outer
      | none => pure none
    else pure none
termination_by pool.length
decreasing_by exact Graph.length_without_lt _h

def originOf (t : Tables) (v : Vocabulary) (c : Chain) : Except Fault (Option Origin) :=
  match c.entry, c.links with
  | .site s, head :: _ => t.originFrom v t.links s head.param
  | _, _ => pure none

/-- The names of the functions from the first link of a chain to the terminal. -/
def pathOf (t : Tables) (c : Chain) : Except Fault (List String) :=
  (c.links ++ [c.terminal.link]).mapM fun l => Node.name <$> t.nodeAt l.node

/-- Reports the link with a number in its chain, which hands the value on to the function after it in the path. -/
def reportLink (t : Tables) (path : List String) (origin : Option Origin) (r : Reporter) (x : Link × Nat) :
    Except Fault Reporter :=
  if r.reported.contains x.1 then pure r
  else do
    let r := { r with reported := r.reported ++ [x.1] }
    let node ← t.nodeAt x.1.node
    match node.param? x.1.param with
    | none => pure r
    | some p =>
      if node.decl.isSuppressed r.detection.suppressionIds then pure { r with suppressed := r.suppressed + 1 }
      else do
        let next ← checked path[x.2 + 1]? (.path (x.2 + 1))
        pure { r with findings := r.findings ++ [r.finding node p next path origin] }

def report (t : Tables) (r : Reporter) (c : Chain) (origin : Option Origin) : Except Fault Reporter := do
  let path ← t.pathOf c
  let after ← c.links.zipIdx.foldlM (t.reportLink path origin) r
  let emitted := after.findings.length - r.findings.length
  pure { after with reportedChains := r.reportedChains + if emitted = 0 then 0 else 1 }

def reportChains (t : Tables) (s : Settings) (chains : List Chain) : Except Fault Reporter :=
  (chains.filter (·.qualifies s.detection.minRelayLinks)).foldlM
    (fun r c => do
      let origin ← t.originOf s.vocabulary c
      t.report r c origin)
    { graph := t.toGraph, detection := s.detection }

end Tables

/-- The analysis over tables. -/
def analyzeChecked (s : Settings) (files : List SourceFile) : Except Fault Report := do
  let (t, errors) ← Tables.build s.vocabulary s.detection.uiMarker files
  let (chains, memo) ← (t.chainsAt t.reactiveLinks).run { errors }
  let reporter ← t.reportChains s chains
  pure
    { findings := reporter.findings
      suppressed := reporter.suppressed
      errors := memo.errors
      stats :=
        { units := files.length
          uiFunctions := t.nodes.length
          callSites := t.siteCount
          unresolvedCallSites := t.unresolvedCount
          chains := chains.length
          reportedChains := reporter.reportedChains } }

namespace Tables
variable {t : Tables}

private theorem nameStep_eq (v : Vocabulary) (caller : Node) (site : CallSite) (name : String) :
    nameStep v caller site name = Graph.nameStep v caller site name := by
  rw [nameStep, FunctionDecl.findBinder_eq_binderAt]
  rfl

theorem Sound.originStep_eq (h : t.Sound) (v : Vocabulary) {s : SiteId} {site : CallSite} (hs : t.site? s = some site)
    (param : String) : t.originStep v s param = pure (t.toGraph.originStep v s param) := by
  obtain ⟨caller, -, hn, -⟩ := h.lawful.site?_eq_some_iff.1 hs
  rw [originStep, siteAt_eq hs, pure_bind, nodeAt_eq hn, pure_bind, Graph.originStep, hs, hn]
  dsimp only
  cases site.argument? param with
  | none => rfl
  | some e =>
    dsimp only
    cases v.creationKind e with
    | some kind => rfl
    | none =>
      cases e.ident? with
      | none => rfl
      | some name => exact congrArg pure (nameStep_eq v caller site name)

theorem Sound.supplier_eq (h : t.Sound) {l : Link} {node : Node} (hn : t.node? l.node = some node) :
    t.supplier l = pure (t.supplier? l) := by
  rw [supplier, h.incomingAt_eq hn, pure_bind, Graph.supplier?]
  refine findM?_eq_pure fun s hmem => ?_
  obtain ⟨site, hs⟩ := h.lawful.site?_of_mem_incomingOf hmem
  rw [siteAt_eq hs, pure_bind, Graph.argument?, hs, Option.bind_some]

/-- Walking back, each site comes from the list of those that reach a function. -/
theorem Sound.originFrom_eq (h : t.Sound) (v : Vocabulary) (pool : List Link) (s : SiteId) (param : String)
    (hs : ∃ site, t.site? s = some site) : t.originFrom v pool s param = pure (t.toGraph.originFrom v pool s param) := by
  induction hlength : pool.length using Nat.strong_induction_on generalizing pool s param with
  | _ n ih =>
    obtain ⟨site, hs⟩ := hs
    obtain ⟨caller, -, hn, -⟩ := h.lawful.site?_eq_some_iff.1 hs
    rw [originFrom, h.originStep_eq v hs, pure_bind, Graph.originFrom]
    cases t.toGraph.originStep v s param with
    | found origin => rfl
    | lost => rfl
    | outer outer =>
      dsimp only
      by_cases hpool : ⟨s.caller, outer⟩ ∈ pool
      · rw [dif_pos hpool, dif_pos hpool, h.supplier_eq (l := ⟨s.caller, outer⟩) hn, pure_bind]
        cases hsupplier : t.supplier? ⟨s.caller, outer⟩ with
        | none => rfl
        | some next =>
          have hmem : next ∈ t.incomingOf s.caller := List.mem_of_find?_eq_some hsupplier
          exact ih _ (hlength ▸ Graph.length_without_lt hpool) _ next outer (h.lawful.site?_of_mem_incomingOf hmem) rfl
      · rw [dif_neg hpool, dif_neg hpool]

theorem reportLink_eq {path : List String} {r : Reporter} (hr : r.graph = t.toGraph) {l : Link} {node : Node}
    (hn : t.node? l.node = some node) {i : Nat} {next : String} (hnext : path[i + 1]? = some next)
    (origin : Option Origin) : t.reportLink path origin r (l, i) = pure (r.reportLink path origin (l, next)) := by
  unfold reportLink Reporter.reportLink
  dsimp only
  rw [nodeAt_eq hn, hr, hn, hnext]
  cases r.reported.contains l with
  | true => rfl
  | false =>
    simp only [pure_bind, Bool.false_eq_true, if_false, checked_some]
    cases node.param? l.param with
    | none => rfl
    | some p =>
      dsimp only
      split <;> rfl

/-- The links of a chain from number `k` on find the next function in the path, which is longer. -/
theorem foldlM_reportLink {path : List String} {r : Reporter} (hr : r.graph = t.toGraph) (origin : Option Origin)
    (links : List Link) (hnodes : ∀ l ∈ links, ∃ node, t.node? l.node = some node) {k : Nat}
    (hk : k + links.length < path.length) : (links.zipIdx k).foldlM (t.reportLink path origin) r =
      pure ((links.zip (path.drop (k + 1))).foldl (Reporter.reportLink path origin) r) := by
  induction links generalizing k r with
  | nil => rfl
  | cons l rest ih =>
    rw [List.length_cons] at hk
    obtain ⟨⟨node, hn⟩, hrest⟩ := List.forall_mem_cons.1 hnodes
    have hlt : k + 1 < path.length := by omega
    have hgraph : (r.reportLink path origin (l, path[k + 1])).graph = t.toGraph := by
      have hfold := congrArg Reporter.graph (Reporter.foldl_reportLink r path origin [(l, path[k + 1])])
      exact hfold.trans hr
    rw [List.zipIdx_cons, List.foldlM_cons, reportLink_eq hr hn (List.getElem?_eq_getElem hlt), pure_bind,
      ih hgraph hrest (by omega), List.drop_eq_getElem_cons hlt, List.zip_cons_cons, List.foldl_cons]

theorem pathOf_eq {c : Chain} (hnodes : ∀ l ∈ c.links ++ [c.terminal.link], ∃ node, t.node? l.node = some node) :
    t.pathOf c = pure (c.path t.toGraph) := by
  refine mapM_eq_pure fun l hl => ?_
  obtain ⟨node, hn⟩ := hnodes l hl
  rw [nodeAt_eq hn, map_pure, Graph.nameOf, hn]

theorem report_eq {r : Reporter} (hr : r.graph = t.toGraph) {c : Chain}
    (hnodes : ∀ l ∈ c.links ++ [c.terminal.link], ∃ node, t.node? l.node = some node) (origin : Option Origin) :
    t.report r c origin = pure (r.report c origin).1 := by
  have hlength : 0 + c.links.length < (c.path t.toGraph).length := by simp [Chain.path]
  have hlinks : ∀ l ∈ c.links, ∃ node, t.node? l.node = some node := fun l hl => hnodes l (List.mem_append_left _ hl)
  rw [report, pathOf_eq hnodes, pure_bind, foldlM_reportLink hr origin c.links hlinks hlength, pure_bind, List.drop_one,
    ← hr]
  rfl

end Tables

namespace Graph
variable {g : Graph}

private theorem node?_of_mem_links {l : Link} (h : l ∈ g.links) : ∃ node, g.node? l.node = some node := by
  simp only [links, List.mem_flatMap, Prod.exists, List.mem_zipIdx_iff_getElem?, List.mem_map] at h
  obtain ⟨node, i, hi, p, -, rfl⟩ := h
  exact ⟨node, hi⟩

/-- The functions of a chain are those of declared parameters. -/
theorem Lawful.node?_of_chain (h : g.Lawful) {c : Chain} (hc : c ∈ g.chains) :
    ∀ l ∈ c.links ++ [c.terminal.link], ∃ node, g.node? l.node = some node := by
  obtain ⟨start, hstart, hchain⟩ := List.mem_filterMap.1 hc
  obtain ⟨-, hrun, -⟩ := h.chain?_eq_some hchain
  obtain ⟨p, hp⟩ := param?_isSome_of_mem_reactiveLinks hstart
  intro l hl
  rcases List.mem_cons.1 (hrun.mem_pool h l hl) with rfl | hl
  · exact node?_of_mem_links (mem_links_of_param? hp)
  · exact node?_of_mem_links hl

/-- The site at which a chain is entered reaches its first function. -/
theorem Lawful.site?_of_entry (h : g.Lawful) {c : Chain} (hc : c ∈ g.chains) {s : SiteId} (hentry : c.entry = .site s) :
    ∃ site, g.site? s = some site := by
  obtain ⟨start, -, hchain⟩ := List.mem_filterMap.1 hc
  obtain ⟨-, -, hentered⟩ := h.chain?_eq_some hchain
  rw [hentry] at hentered
  obtain ⟨earlier, later, hsplit, -⟩ := hentered
  have hmem : s ∈ g.incomingOf start.node := by
    rw [hsplit]
    simp
  exact h.site?_of_mem_incomingOf hmem

end Graph

namespace Tables
variable {t : Tables}

theorem Sound.originOf_eq (h : t.Sound) (v : Vocabulary) {c : Chain} (hc : c ∈ t.chains) :
    t.originOf v c = pure (t.toGraph.originOf v c) := by
  unfold originOf Graph.originOf
  cases hentry : c.entry with
  | root => rfl
  | site s =>
    cases c.links with
    | nil => rfl
    | cons head rest => exact h.originFrom_eq v t.links s head.param (h.lawful.site?_of_entry hc hentry)

/-- Reporting chains of the graph raises no fault. -/
theorem Sound.reportChains_eq (h : t.Sound) (s : Settings) :
    t.reportChains s t.chains = pure (PassThrough.reportChains s t.toGraph t.chains) := by
  suffices hall : ∀ (chains : List Chain) (r : Reporter), r.graph = t.toGraph → (∀ c ∈ chains, c ∈ t.chains) →
      chains.foldlM (fun r c => do
        let origin ← t.originOf s.vocabulary c
        t.report r c origin) r =
      pure (chains.foldl (fun r c => (r.report c (t.toGraph.originOf s.vocabulary c)).1) r) from
    hall _ _ rfl fun c hc => List.mem_of_mem_filter hc
  intro chains
  induction chains with
  | nil => exact fun _ _ _ => rfl
  | cons c rest ih =>
    intro r hr hchains
    obtain ⟨hc, hrest⟩ := List.forall_mem_cons.1 hchains
    have hgraph : (r.report c (t.toGraph.originOf s.vocabulary c)).1.graph = t.toGraph := by
      rw [Reporter.report_eq]
      exact hr
    rw [List.foldlM_cons, h.originOf_eq _ hc, pure_bind, report_eq hr (h.lawful.node?_of_chain hc), pure_bind,
      ih _ hgraph hrest, List.foldl_cons]

end Tables

/-- The analysis over tables raises no fault and gives the report. -/
theorem analyzeChecked_eq (s : Settings) (files : List SourceFile) : analyzeChecked s files = pure (analyze s files) := by
  obtain ⟨t, hbuild, hgraph, hsound⟩ := Tables.build_eq s.vocabulary s.detection.uiMarker files
  obtain ⟨after, htrack, herrors⟩ := hsound.chainsAt_run (Graph.build s.vocabulary s.detection.uiMarker files).2
  simp only [analyzeChecked, hbuild, pure_bind, htrack, hsound.reportChains_eq, herrors]
  rw [analyze_eq, ← hgraph]

namespace Graph
variable {g : Graph}

/-- The number of a site denotes an entry of the table of sites. -/
def HasSite (g : Graph) (s : SiteId) : Prop := s.caller < g.sites.length ∧ s.index < (g.sitesOf s.caller).length

theorem hasSite_of_site? {s : SiteId} {site : CallSite} (hs : g.site? s = some site) : g.HasSite s := by
  obtain ⟨hindex, -⟩ := List.getElem?_eq_some_iff.1 hs
  refine ⟨?_, hindex⟩
  by_contra hlt
  have hnone : g.sites[s.caller]? = none := List.getElem?_eq_none (Nat.le_of_not_lt hlt)
  simp [sitesOf, hnone] at hindex

/-- The numbers in the tables of a graph, in chains and in the usages remembered denote functions and sites of the graph. -/
structure InBounds (g : Graph) (chains : List Chain) (m : Memo) : Prop where
  length_sites : g.sites.length = g.nodes.length
  length_incoming : g.incoming.length = g.nodes.length
  ids : ∀ f n, g.idOf? f = some n → n < g.nodes.length
  places : ∀ n position site, g.siteAt? n n position = some site → g.HasSite site.id
  incoming : ∀ n, ∀ s ∈ g.incomingOf n, g.HasSite s
  usages : ∀ l u, m.known? l = some u → l.node < g.nodes.length ∧
    ∀ f ∈ u.forwards, g.HasSite f.site ∧ ∃ n, g.callee? f.site = some n ∧ n < g.nodes.length
  followed : ∀ l u f, m.known? l = some u → u.forward? = some f → f ∈ u.forwards
  links : ∀ c ∈ chains, ∀ l ∈ c.links ++ [c.terminal.link], l.node < g.nodes.length
  entries : ∀ c ∈ chains, ∀ s, c.entry = .site s → g.HasSite s
  paths : ∀ c ∈ chains, (c.path g).length = c.links.length + 1

theorem lt_of_node? {n : NodeId} {node : Node} (hn : g.node? n = some node) : n < g.nodes.length :=
  (List.getElem?_eq_some_iff.1 hn).1

/-- What is remembered after tracking are usages of declared parameters. -/
theorem Lawful.known?_track (h : g.Lawful) (errors : List Diagnostic) {l : Link} {u : Usage}
    (hk : ((g.track g.memoUsage).run { errors }).2.known? l = some u) : u = g.usageOf l ∧ ∃ p, g.param? l = some p := by
  obtain ⟨asked, hasked, hrun⟩ := h.closed_declared.asks_track
  have hempty : Memo.Coherent g { errors } := fun l u hk => by cases hk
  have hafter : ((g.track g.memoUsage).run { errors }).2 = Memo.asking g { errors } asked :=
    congrArg Prod.snd (hrun { errors } hempty)
  rw [hafter, Memo.known?_asking] at hk
  obtain ⟨hmem, rfl⟩ : l ∈ asked ∧ g.usageOf l = u := by simpa [Memo.known?] using hk
  exact ⟨rfl, hasked l hmem⟩

private theorem Lawful.inBounds (h : g.Lawful) (errors : List Diagnostic) :
    g.InBounds ((g.track g.memoUsage).run { errors }).1 ((g.track g.memoUsage).run { errors }).2 := by
  have hchains : ((g.track g.memoUsage).run { errors }).1 = g.chains := (h.track_run errors).1
  refine {
    length_sites := by rw [h.sites_eq, List.length_mapIdx]
    length_incoming := by rw [h.incoming_eq, List.length_map]
    ids := fun f n hid => ?_
    places := fun n position site hs => ?_
    incoming := fun n s hs => ?_
    usages := fun l u hk => ?_
    followed := fun l u f hk hf => ?_
    links := fun c hc l hl => ?_
    entries := fun c hc s hentry => ?_
    paths := fun c _ => by simp [Chain.path] }
  · obtain ⟨node, hn, -⟩ := h.idOf?_eq_some_iff.1 hid
    exact lt_of_node? hn
  · exact hasSite_of_site? (h.site?_of_siteAt? hs).1
  · obtain ⟨site, hsite⟩ := h.site?_of_mem_incomingOf hs
    exact hasSite_of_site? hsite
  · obtain ⟨rfl, p, hp⟩ := h.known?_track errors hk
    obtain ⟨node, hn, -⟩ := param?_eq_some_iff.1 hp
    refine ⟨lt_of_node? hn, fun f hf => ?_⟩
    obtain ⟨-, next, q, -, hnext, hq, -⟩ := h.next?_of_mem_forwards hf
    obtain ⟨site, hs⟩ := h.site?_of_mem_forwards hf
    obtain ⟨n, hcallee, rfl⟩ := Option.map_eq_some_iff.1 hnext
    obtain ⟨callee, hn', -⟩ := param?_eq_some_iff.1 hq
    exact ⟨hasSite_of_site? hs, n, hcallee, lt_of_node? hn'⟩
  · obtain ⟨rfl, -⟩ := h.known?_track errors hk
    exact h.forward?_mem hf
  · obtain ⟨node, hn⟩ := h.node?_of_chain (hchains ▸ hc) l hl
    exact lt_of_node? hn
  · obtain ⟨site, hs⟩ := h.site?_of_entry (hchains ▸ hc) hentry
    exact hasSite_of_site? hs

end Graph

/-- No access of an analysis goes wrong. Carried out over tables in which every access by number is checked, and with a
checked counter of callbacks, it gives the report. The numbers kept in the tables, in the usages remembered and in the chains
found all denote functions and sites of the graph, and a path is longer than its chain by one. -/
theorem analyze_in_bounds (s : Settings) (files : List SourceFile) :
    let built := Graph.build s.vocabulary s.detection.uiMarker files
    let tracked := (built.1.track built.1.memoUsage).run { errors := built.2 }
    analyzeChecked s files = .ok (analyze s files) ∧ built.1.InBounds tracked.1 tracked.2 := by
  intro built tracked
  exact ⟨analyzeChecked_eq s files, (Graph.build_lawful s.vocabulary s.detection.uiMarker files).inBounds built.2⟩

end PassThrough

import Mathlib.Data.List.Perm.Basic
import PassThrough.Proofs.Analysis
import PassThrough.Proofs.Transport

/-! The order of declarations. Declaring the same functions in another order, or in other files, renumbers the graph, so the
analysis counts the same parameters. -/

namespace PassThrough

/-- Functions with ids of their own are all kept. -/
theorem addNodes_of_nodup (v : Vocabulary) (nodes : List Node) (fs : List (String × FunctionDecl))
    (hfs : (fs.map (·.2.id)).Nodup) (hnew : ∀ x ∈ fs, ∀ node ∈ nodes, node.id ≠ x.2.id) :
    addNodes v nodes fs = (nodes ++ fs.map fun x => Node.ofDecl v x.1 x.2, []) := by
  induction fs generalizing nodes with
  | nil => simp [addNodes]
  | cons x rest ih =>
    obtain ⟨path, f⟩ := x
    obtain ⟨hx, hrest⟩ := List.nodup_cons.1 hfs
    obtain ⟨hnodes, hnew⟩ := List.forall_mem_cons.1 hnew
    have hany : nodes.any (·.id == f.id) = false := by simpa using hnodes
    rw [addNodes, hany, if_neg (by simp), ih _ hrest]
    · simp
    · intro y hy node hnode
      rcases List.mem_append.1 hnode with hnode | hnode
      · exact hnew y hy node hnode
      · obtain rfl := List.mem_singleton.1 hnode
        intro heq
        exact hx (List.mem_map.2 ⟨y, hy, heq.symm⟩)

private theorem Node.ofDecl_alike (v : Vocabulary) (path path' : String) (f : FunctionDecl) :
    (Node.ofDecl v path f).Alike (Node.ofDecl v path' f) :=
  ⟨rfl, rfl, by simp [Node.ofDecl, Function.comp_def]⟩

namespace Graph
variable {g h : Graph}

private theorem Lawful.passedOn_holds (hg : g.Lawful) {least : Nat} {l : Link} (hl : g.PassedOn least l) :
    g.Holds l.node := by
  obtain ⟨p, hp⟩ := Option.isSome_iff_exists.1 (hg.passedOn_declared hl)
  exact holds_of_param? hp

/-- The number of a function in the other graph. -/
def numberIn (g h : Graph) (i : NodeId) : NodeId := ((g.node? i).bind fun node => h.idOf? node.id).getD 0

/-- The graphs have the same functions. -/
structure SameFunctions (g h : Graph) : Prop where
  source : g.Lawful
  target : h.Lawful
  copy : ∀ node ∈ g.nodes, ∃ copy ∈ h.nodes, node.Alike copy
  original : ∀ copy ∈ h.nodes, ∃ node ∈ g.nodes, node.Alike copy

namespace SameFunctions

private theorem numberIn_eq (same : SameFunctions g h) {i j : NodeId} {node copy : Node} (hi : g.node? i = some node)
    (hj : h.node? j = some copy) (hid : copy.id = node.id) : g.numberIn h i = j := by
  simp [numberIn, hi, same.target.idOf?_eq_some_iff.2 ⟨copy, hj, hid⟩]

private theorem exists_number (same : SameFunctions g h) {j : NodeId} (hj : h.Holds j) :
    ∃ i, g.Holds i ∧ g.numberIn h i = j := by
  obtain ⟨copy, hcopy⟩ := hj
  obtain ⟨node, hnode, halike⟩ := same.original copy (List.mem_of_getElem? hcopy)
  obtain ⟨i, hi⟩ := List.mem_iff_getElem?.1 hnode
  exact ⟨i, ⟨node, hi⟩, same.numberIn_eq hi hcopy halike.id⟩

theorem embedding (same : SameFunctions g h) : Embedding g h (g.numberIn h) where
  source := same.source
  target := same.target
  node := by
    intro i node hi
    obtain ⟨copy, hcopy, halike⟩ := same.copy node (List.mem_of_getElem? hi)
    obtain ⟨j, hj⟩ := List.mem_iff_getElem?.1 hcopy
    rw [same.numberIn_eq hi hj halike.id]
    exact ⟨copy, hj, halike⟩
  callee := by
    intro i node call f _ _ _ hf
    obtain ⟨copy, hcopy⟩ := Option.isSome_iff_exists.1 hf
    obtain ⟨j, hj, rfl⟩ := same.target.find?_eq_some_iff.1 hcopy
    obtain ⟨original, horiginal, halike⟩ := same.original copy (List.mem_of_getElem? hj)
    obtain ⟨i, hi⟩ := List.mem_iff_getElem?.1 horiginal
    simp [same.source.find?_eq_some_iff.2 ⟨i, hi, halike.id.symm⟩]
  caller := fun _ hs => same.exists_number (same.target.caller_holds hs)

/-- Every function of the other graph is met once. -/
theorem perm_numbers (same : SameFunctions g h) :
    ((List.range g.nodes.length).map (g.numberIn h)).Perm (List.range h.nodes.length) := by
  have hinj : ((List.range g.nodes.length).map (g.numberIn h)).Nodup := by
    refine List.Nodup.map_on (fun i hi j hj heq => ?_) List.nodup_range
    exact same.embedding.injective (holds_iff.2 (List.mem_range.1 hi)) (holds_iff.2 (List.mem_range.1 hj)) heq
  refine (List.perm_ext_iff_of_nodup hinj List.nodup_range).2 fun j => ?_
  simp only [List.mem_map, List.mem_range, ← holds_iff]
  constructor
  · rintro ⟨i, ⟨node, hi⟩, rfl⟩
    obtain ⟨copy, hcopy, -⟩ := same.embedding.node hi
    exact ⟨copy, hcopy⟩
  · exact same.exists_number

theorem flatMap_perm (same : SameFunctions g h) {α β : Type} {ofCopy : NodeId → List β} {ofNode : NodeId → List α}
    {r : α → β} (heq : ∀ n, g.Holds n → ofCopy (g.numberIn h n) = (ofNode n).map r) :
    (((List.range g.nodes.length).flatMap ofNode).map r).Perm ((List.range h.nodes.length).flatMap ofCopy) := by
  rw [← Embedding.flatMap_copies heq]
  exact same.perm_numbers.flatMap_right _

theorem sites_perm (same : SameFunctions g h) :
    (g.sites.flatten.map (CallSite.renumber (g.numberIn h))).Perm h.sites.flatten := by
  rw [same.source.flatten_sites, same.target.flatten_sites]
  exact same.flatMap_perm fun _ hn => same.embedding.sitesOf_eq hn

theorem bindDiagnostics_perm (same : SameFunctions g h) :
    (g.nodes.flatMap (bindDiagnostics g.nodes)).Perm (h.nodes.flatMap (bindDiagnostics h.nodes)) := by
  rw [flatMap_bindDiagnostics, flatMap_bindDiagnostics, ← List.map_id ((List.range _).flatMap g.bindDiagnosticsOf)]
  refine same.flatMap_perm fun n hn => ?_
  rw [same.embedding.bindDiagnosticsOf_eq hn, List.map_id]

/-- The chains pass the same links, up to the numbers. -/
theorem walks_perm (same : SameFunctions g h) :
    (g.chains.map fun c => c.toWalk.renumber (g.numberIn h)).Perm (h.chains.map Chain.toWalk) := by
  have hlinks : (g.reactiveLinks.map (Link.renumber (g.numberIn h))).Perm h.reactiveLinks := by
    rw [reactiveLinks_eq, reactiveLinks_eq]
    exact same.flatMap_perm fun _ hn => same.embedding.reactiveLinksOf_eq hn
  have hperm := hlinks.filterMap fun l => (h.chain? l).map Chain.toWalk
  rw [List.filterMap_map] at hperm
  rw [chains, chains, List.map_filterMap, List.map_filterMap]
  refine List.Perm.trans (List.Perm.of_eq (List.filterMap_congr fun l hl => ?_)) hperm
  obtain ⟨p, hp⟩ := param?_isSome_of_mem_reactiveLinks hl
  exact (same.embedding.chain?_walk_eq (holds_of_param? hp)).symm

theorem passedOn_iff (same : SameFunctions g h) (least : Nat) (copy : Link) :
    h.PassedOn least copy ↔ ∃ l, g.PassedOn least l ∧ l.renumber (g.numberIn h) = copy := by
  have hwalk : ∀ w, w ∈ h.chains.map Chain.toWalk ↔ ∃ c ∈ g.chains, c.toWalk.renumber (g.numberIn h) = w := by
    intro w
    rw [← same.walks_perm.mem_iff, List.mem_map]
  constructor
  · intro hcopy
    obtain ⟨c, hc, hq, hl⟩ := (same.target.passedOn_iff least copy).1 hcopy
    obtain ⟨c', hc', heq⟩ := (hwalk c.toWalk).1 (List.mem_map_of_mem hc)
    rw [← congrArg Walk.links heq] at hl
    obtain ⟨l, hl', rfl⟩ := List.mem_map.1 hl
    exact ⟨l, (same.source.passedOn_iff least l).2 ⟨c', hc', Chain.qualifies_of_renumber heq least ▸ hq, hl'⟩, rfl⟩
  · rintro ⟨l, hl, rfl⟩
    obtain ⟨c, hc, hq, hl⟩ := (same.source.passedOn_iff least l).1 hl
    obtain ⟨c', hc', heq⟩ := List.mem_map.1 ((hwalk _).2 ⟨c, hc, rfl⟩)
    refine (same.target.passedOn_iff least _).2 ⟨c', hc', ?_, ?_⟩
    · rw [Chain.qualifies_of_renumber heq.symm least, hq]
    · rw [congrArg Walk.links heq]
      exact List.mem_map_of_mem hl

/-- Lists of the links passed on, each once, are the same up to the numbers. -/
theorem passedOn_perm (same : SameFunctions g h) {least : Nat} {ls copies : List Link} (hls : ls.Nodup)
    (hmem : ∀ l, l ∈ ls ↔ g.PassedOn least l) (hcopies : copies.Nodup) (hmem' : ∀ l, l ∈ copies ↔ h.PassedOn least l) :
    (ls.map (Link.renumber (g.numberIn h))).Perm copies := by
  have hnodup : (ls.map (Link.renumber (g.numberIn h))).Nodup := by
    refine List.Nodup.map_on (fun k hk l hl heq => ?_) hls
    have hhold := fun l hl => same.source.passedOn_holds ((hmem l).1 hl)
    exact (same.embedding.renumber_inj (hhold k hk) (hhold l hl)).1 heq
  refine (List.perm_ext_iff_of_nodup hnodup hcopies).2 fun copy => ?_
  rw [hmem', same.passedOn_iff, List.mem_map]
  exact exists_congr fun l => and_congr_left' (hmem l)

theorem counts_eq (same : SameFunctions g h) : g.nodes.length = h.nodes.length ∧ g.siteCount = h.siteCount ∧
    g.unresolvedCount = h.unresolvedCount ∧ g.chains.length = h.chains.length := by
  refine ⟨?_, ?_, ?_, ?_⟩
  · simpa using same.perm_numbers.length_eq
  · have hlength := same.sites_perm.length_eq
    rwa [List.length_map] at hlength
  · have hcount := same.sites_perm.countP_eq (·.target.isNone)
    rwa [List.countP_map] at hcount
  · simpa using same.walks_perm.length_eq

end SameFunctions

theorem build_eq_of_nodup (v : Vocabulary) (marker : String) {files : List SourceFile}
    (h : ((markedFunctions marker files).map (·.2.id)).Nodup) :
    let built := build v marker files
    built.1.nodes = (markedFunctions marker files).map (fun x => Node.ofDecl v x.1 x.2) ∧
      built.2 = built.1.nodes.flatMap (bindDiagnostics built.1.nodes) := by
  intro built
  have hadd := addNodes_of_nodup v [] (markedFunctions marker files) h (by simp)
  have herrors : built.2 = (addNodes v [] (markedFunctions marker files)).2 ++
      built.1.nodes.flatMap (bindDiagnostics built.1.nodes) := rfl
  have hnodes : built.1.nodes = (addNodes v [] (markedFunctions marker files)).1 := rfl
  rw [hadd] at herrors hnodes
  exact ⟨hnodes, herrors⟩

/-- Programs that declare the same functions, each once, have graphs with the same functions. -/
theorem build_sameFunctions (v : Vocabulary) (marker : String) {A B : List SourceFile}
    (hperm : ((markedFunctions marker A).map Prod.snd).Perm ((markedFunctions marker B).map Prod.snd))
    (hA : ((markedFunctions marker A).map (·.2.id)).Nodup) (hB : ((markedFunctions marker B).map (·.2.id)).Nodup) :
    SameFunctions (build v marker A).1 (build v marker B).1 := by
  refine ⟨build_lawful v marker A, build_lawful v marker B, ?_, ?_⟩
  · rw [(build_eq_of_nodup v marker hA).1, (build_eq_of_nodup v marker hB).1]
    intro node hnode
    obtain ⟨x, hx, rfl⟩ := List.mem_map.1 hnode
    obtain ⟨y, hy, heq⟩ := List.mem_map.1 (hperm.mem_iff.1 (List.mem_map_of_mem hx))
    exact ⟨_, List.mem_map_of_mem hy, heq ▸ Node.ofDecl_alike v x.1 y.1 y.2⟩
  · rw [(build_eq_of_nodup v marker hA).1, (build_eq_of_nodup v marker hB).1]
    intro copy hcopy
    obtain ⟨y, hy, rfl⟩ := List.mem_map.1 hcopy
    obtain ⟨x, hx, heq⟩ := List.mem_map.1 (hperm.mem_iff.2 (List.mem_map_of_mem hy))
    exact ⟨_, List.mem_map_of_mem hx, heq ▸ Node.ofDecl_alike v x.1 y.1 x.2⟩

end Graph

/-- An analysis does not depend on the order in which functions are declared, nor on how they are spread over files: the
findings are about the same pairs, each as often, and what is counted or wrong is the same. -/
theorem analyze_perm_declarations (s : Settings) (A B : List SourceFile)
    (hperm : ((markedFunctions s.detection.uiMarker A).map Prod.snd).Perm
      ((markedFunctions s.detection.uiMarker B).map Prod.snd))
    (hdistinct : ((markedFunctions s.detection.uiMarker A).map (·.2.id)).Nodup) :
    let a := analyze s A
    let b := analyze s B
    (∀ pair, pair ∈ a.findings.map Finding.pair ↔ pair ∈ b.findings.map Finding.pair) ∧
      a.findings.length = b.findings.length ∧ a.suppressed = b.suppressed ∧ a.errors.Perm b.errors ∧
      a.stats.uiFunctions = b.stats.uiFunctions ∧ a.stats.callSites = b.stats.callSites ∧
      a.stats.unresolvedCallSites = b.stats.unresolvedCallSites ∧ a.stats.chains = b.stats.chains := by
  intro a b
  have hdistinctB : ((markedFunctions s.detection.uiMarker B).map (·.2.id)).Nodup := by
    have hids := hperm.map fun f => f.id
    rw [List.map_map, List.map_map] at hids
    exact hids.nodup_iff.1 hdistinct
  have same := Graph.build_sameFunctions s.vocabulary s.detection.uiMarker hperm hdistinct hdistinctB
  obtain ⟨reported, hnodup, hmem, hpairs, hsuppressed⟩ := exists_reported s A
  obtain ⟨reported', hnodup', hmem', hpairs', hsuppressed'⟩ := exists_reported s B
  have hreported := same.passedOn_perm hnodup hmem hnodup' hmem'
  have hhold := fun l hl => same.source.passedOn_holds ((hmem l).1 hl)
  have hfindings : (a.findings.map Finding.pair).Perm (b.findings.map Finding.pair) := by
    have hperm := hreported.filterMap ((Graph.build s.vocabulary s.detection.uiMarker B).1.pair? s.detection.suppressionIds)
    rw [List.filterMap_map, ← hpairs'] at hperm
    rw [hpairs]
    refine List.Perm.trans (List.Perm.of_eq (List.filterMap_congr fun l hl => ?_)) hperm
    exact (same.embedding.pair?_eq (hhold l hl) _).symm
  have hcount : a.suppressed = b.suppressed := by
    rw [hsuppressed, hsuppressed', ← hreported.countP_eq, List.countP_map]
    refine List.countP_congr fun l hl => ?_
    rw [Function.comp_apply, same.embedding.isSilenced_eq (hhold l hl)]
  have herrors : a.errors.Perm b.errors := by
    have ha : a.errors = (Graph.build s.vocabulary s.detection.uiMarker A).2 := congrArg Report.errors (analyze_eq s A)
    have hb : b.errors = (Graph.build s.vocabulary s.detection.uiMarker B).2 := congrArg Report.errors (analyze_eq s B)
    rw [ha, hb, (Graph.build_eq_of_nodup _ _ hdistinct).2, (Graph.build_eq_of_nodup _ _ hdistinctB).2]
    exact same.bindDiagnostics_perm
  obtain ⟨hnodes, hsites, hunresolved, hchains⟩ := same.counts_eq
  refine ⟨fun pair => hfindings.mem_iff, by simpa using hfindings.length_eq, hcount, herrors, ?_⟩
  simp only [a, b, analyze_eq]
  exact ⟨hnodes, hsites, hunresolved, hchains⟩

theorem analyze_perm_declarations_reversed :
    let label := Sample.reader "Label"
    let panel := Sample.relay "Panel" label
    let screen := Sample.relay "Screen" panel
    let a := analyze {} [⟨"a.kt", [screen, panel, label]⟩]
    let b := analyze {} [⟨"b.kt", [label, panel]⟩, ⟨"c.kt", [screen]⟩]
    (∀ pair, pair ∈ a.findings.map Finding.pair ↔ pair ∈ b.findings.map Finding.pair) ∧
      a.findings.length = b.findings.length ∧ a.stats.chains = b.stats.chains := by
  intro label panel screen
  obtain ⟨hpairs, hlength, -, -, -, -, -, hchains⟩ := analyze_perm_declarations {} [⟨"a.kt", [screen, panel, label]⟩]
    [⟨"b.kt", [label, panel]⟩, ⟨"c.kt", [screen]⟩] (List.reverse_perm [label, panel, screen]) (by decide +kernel)
  exact ⟨hpairs, hlength, hchains⟩

end PassThrough

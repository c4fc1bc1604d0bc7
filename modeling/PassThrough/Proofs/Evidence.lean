import PassThrough.Proofs.Analysis
import PassThrough.Proofs.Handover
import PassThrough.Proofs.Representation

/-! What a finding says is true of the program. The function that it names declares the parameter and hands it on to the next
function of the chain, uses it for nothing else, and the chain leads, handover by handover, to where the value is read. -/

namespace PassThrough

private theorem Node.param?_ofDecl (v : Vocabulary) (path : String) (d : FunctionDecl) (name : String) :
    (Node.ofDecl v path d).param? name = (d.param? name).map fun p =>
      { name := p.name, typeName := p.type.map TypeRef.name, kind := v.kindOf p.type,
        location := p.location.inFile path } := by
  rw [Node.param?, Node.ofDecl, List.find?_map]
  rfl

theorem Node.paramNames_ofDecl (v : Vocabulary) (path : String) (d : FunctionDecl) :
    (Node.ofDecl v path d).paramNames = d.params.map Param.name := by
  rw [Node.paramNames, Node.ofDecl, List.map_map]
  rfl

/-- A node of a built graph is a declaration that was kept. -/
theorem Graph.exists_declaration {v : Vocabulary} {marker : String} {files : List SourceFile} {n : NodeId} {node : Node}
    (hn : (build v marker files).1.node? n = some node) :
    ∃ path d, (path, d) ∈ firstDeclarations (markedFunctions marker files) ∧ node = Node.ofDecl v path d := by
  have hnodes : (build v marker files).1.nodes = _ := addNodes_eq_firstDeclarations v (markedFunctions marker files)
  have hmem := List.mem_of_getElem? hn
  rw [hnodes, List.mem_map] at hmem
  obtain ⟨⟨path, d⟩, hd, rfl⟩ := hmem
  exact ⟨path, d, hd, rfl⟩

/-- What the finding says is true of the declaration `d`, which is node `n` of the graph. -/
structure Finding.TrueOf (f : Finding) (s : Settings) (files : List SourceFile) (g : Graph) (n : NodeId) (path : String)
    (d : FunctionDecl) : Prop where
  node_eq : g.node? n = some (Node.ofDecl s.vocabulary path d)
  kept : (path, d) ∈ firstDeclarations (markedFunctions s.detection.uiMarker files)
  function_eq : d.id = f.function
  unsuppressed : d.isSuppressed s.detection.suppressionIds = false
  declared : ∃ p, d.param? f.parameter = some p ∧ s.vocabulary.kindOf p.type = f.parameterKind
  reactive : f.parameterKind.isReactive = true
  forwarded : ∃ path' e param q, (path', e) ∈ firstDeclarations (markedFunctions s.detection.uiMarker files) ∧
    e.name = f.forwardedTo ∧ d.Passes f.parameter e.id (e.params.map Param.name) param ∧ e.param? param = some q ∧
    f.parameterKind.assignableTo (s.vocabulary.kindOf q.type) = true
  onlyArguments : ∀ o ∈ d.visible f.parameter, g.IsArgument n o
  chain : ∃ (links : List Link) (stop : Link) (i : Nat), f.chain = (links ++ [stop]).map (fun l => g.nameOf l.node) ∧
    (links ++ [stop]).IsChain g.HandsOver ∧ links[i]? = some ⟨n, f.parameter⟩ ∧ f.chain[i]? = some f.function.name ∧
    f.chain[i + 1]? = some f.forwardedTo ∧ s.detection.minRelayLinks + 1 ≤ f.chain.length ∧ g.ReadFrom stop

/-- A finding is made for a link of a chain that qualifies. -/
theorem exists_link_of_mem_findings {s : Settings} {files : List SourceFile} {f : Finding}
    (hf : f ∈ (analyze s files).findings) :
    let g := (Graph.build s.vocabulary s.detection.uiMarker files).1
    ∃ c ∈ g.chains, c.qualifies s.detection.minRelayLinks = true ∧ f.chain = c.path g ∧ ∃ i l node p,
      c.links[i]? = some l ∧ f.chain[i + 1]? = some f.forwardedTo ∧ g.node? l.node = some node ∧
      node.param? l.param = some p ∧ node.decl.isSuppressed s.detection.suppressionIds = false ∧
      f.function = node.id ∧ f.parameter = l.param ∧ f.parameterKind = p.kind := by
  intro g
  rw [analyze_eq, reportChains_eq_run] at hf
  rcases Reporter.exists_step_of_mem_findings _ _ hf with hnil | ⟨call, hcall, ⟨l, next⟩, hx, hfound⟩
  · cases hnil
  obtain ⟨c, hc, rfl⟩ := List.mem_map.1 hcall
  obtain ⟨hc, hq⟩ := List.mem_filter.1 hc
  obtain ⟨i, hi⟩ := List.mem_iff_getElem?.1 hx
  obtain ⟨hl, hnext⟩ := List.getElem?_zip_eq_some.1 hi
  obtain ⟨node, hn, hfound⟩ := Option.bind_eq_some_iff.1 hfound
  obtain ⟨p, hp, hfound⟩ := Option.bind_eq_some_iff.1 hfound
  obtain ⟨hs, heq⟩ := Option.ite_none_left_eq_some.1 hfound
  obtain rfl := Option.some.inj heq
  have hname : p.name = l.param := by simpa using List.find?_some hp
  refine ⟨c, hc, hq, rfl, i, l, node, p, hl, ?_, hn, hp, by simpa using hs, rfl, hname, rfl⟩
  rwa [List.getElem?_tail] at hnext

private theorem exists_next_of_isChain {α : Type} {R : α → α → Prop} {xs : List α} {stop x : α} {i : Nat}
    (h : (xs ++ [stop]).IsChain R) (hx : xs[i]? = some x) :
    (xs ++ [stop])[i]? = some x ∧ ∃ y, (xs ++ [stop])[i + 1]? = some y ∧ R x y := by
  obtain ⟨hi, rfl⟩ := List.getElem?_eq_some_iff.1 hx
  have hlen : i + 1 < (xs ++ [stop]).length := by simpa using hi
  have hnext := List.isChain_iff_getElem.1 h i hlen
  rw [List.getElem_append_left hi] at hnext
  exact ⟨by rw [List.getElem?_append_left hi, hx], _, List.getElem?_eq_getElem hlen, hnext⟩

/-- Every finding is true of a declaration that the graph keeps. -/
theorem analyze_findings_true (s : Settings) (files : List SourceFile) (f : Finding)
    (hf : f ∈ (analyze s files).findings) :
    ∃ n path d, f.TrueOf s files (Graph.build s.vocabulary s.detection.uiMarker files).1 n path d := by
  have hg := Graph.build_lawful s.vocabulary s.detection.uiMarker files
  obtain ⟨c, hc, hq, hchain, i, l, node, p, hl, hnext, hn, hp, hs, hid, hparam, hkind⟩ := exists_link_of_mem_findings hf
  obtain ⟨hconsumed, hlength⟩ : c.isConsumed = true ∧ s.detection.minRelayLinks ≤ c.links.length := by
    simpa [Chain.qualifies] using hq
  obtain ⟨⟨start, hrun⟩, hneeded⟩ := hg.chain_run hc
  have hrelay := hrun.relay_of_mem l (List.mem_of_getElem? hl)
  -- the link after this one in the chain is the one that the function hands the value over to
  obtain ⟨hhere, b, hb, caller, callee, p', q, hcaller, hcallee, hp', hq', hassignable, hpasses⟩ :=
    exists_next_of_isChain (hrun.isChain_handsOver hg).1 hl
  have hnames : ∀ {k : Nat} {x : Link} {y : Node}, (c.links ++ [c.terminal.link])[k]? = some x →
      (Graph.build s.vocabulary s.detection.uiMarker files).1.node? x.node = some y → f.chain[k]? = some y.name := by
    intro k x y hx hy
    rw [hchain, Chain.path, List.getElem?_map, hx, Option.map_some, Graph.nameOf, hy]
  obtain rfl : caller = node := Option.some.inj (hcaller.symm.trans hn)
  obtain rfl : p' = p := Option.some.inj (hp'.symm.trans hp)
  obtain ⟨path, d, hkept, rfl⟩ := Graph.exists_declaration hn
  obtain ⟨path', e, hkept', rfl⟩ := Graph.exists_declaration hcallee
  rw [Node.param?_ofDecl, Option.map_eq_some_iff] at hp hq'
  obtain ⟨declared, hdeclared, rfl⟩ := hp
  obtain ⟨accepting, haccepting, rfl⟩ := hq'
  rw [Node.paramNames_ofDecl] at hpasses
  refine ⟨l.node, path, d, {
    node_eq := hn
    kept := hkept
    function_eq := hid.symm
    unsuppressed := hs
    declared := ⟨declared, hparam ▸ hdeclared, hkind.symm⟩
    reactive := hkind ▸ Kind.isReactive_of_assignableTo hassignable
    forwarded := ⟨path', e, b.param, accepting, hkept', ?_, hparam ▸ hpasses, haccepting, hkind ▸ hassignable⟩
    onlyArguments := hparam ▸ hg.isArgument_of_relay hrelay hn hp'
    chain := ⟨c.links, c.terminal.link, i, hchain, (hrun.isChain_handsOver hg).1, hparam ▸ hl, ?_, hnext, ?_,
      hg.readFrom_of_neededAt (hneeded hconsumed)⟩ }⟩
  · exact Option.some.inj ((hnames hb hcallee).symm.trans hnext)
  · rw [hid]
    exact hnames hhere hn
  · rw [hchain, Chain.path, List.length_map, List.length_append, List.length_singleton]
    omega

theorem analyze_findings_true_panel :
    let label := Sample.reader "Label"
    let panel := Sample.relay "Panel" label
    let files : List SourceFile := [⟨"a.kt", [Sample.relay "Screen" panel, panel, label]⟩]
    ∃ f ∈ (analyze {} files).findings, f.pair = (panel.id, "count") ∧ f.chain = ["Screen", "Panel", "Label"] ∧
      ∃ n path d, f.TrueOf {} files (Graph.build {} "Composable" files).1 n path d := by
  intro label panel files
  have hf : ⟨.warning, ⟨"a.kt", 0, 0⟩, "count", .valueHolder, ⟨"Panel", ["State"]⟩, "Label", ["Screen", "Panel", "Label"],
      none⟩ ∈ (analyze {} files).findings := by
    decide +kernel
  exact ⟨_, hf, rfl, rfl, analyze_findings_true {} files _ hf⟩

end PassThrough

import PassThrough.Proofs.Analysis
import PassThrough.Proofs.Bare
import PassThrough.Proofs.Parallel

/-! What goes on inside a callback does not matter to an analysis, except for the parameters that it mentions and for where
values come from. The main statement compares programs that differ in the bodies of callbacks. -/

namespace PassThrough

def Binding.bare (b : Binding) : Binding := { b with value := b.value.bare }

def CallSite.bare (site : CallSite) : CallSite := { site with bindings := site.bindings.map Binding.bare }

def Resolution.bare : Resolution → Resolution
  | .bound target bindings => .bound target (bindings.map Binding.bare)
  | resolution => resolution

def Node.bare (node : Node) : Node := { node with decl := node.decl.bare }

private theorem bindArgsFrom_bare (params : List String) (next : Nat) (bound : List String) (args : List (Argument Expr)) :
    bindArgsFrom params next bound (bareArgs args) =
      (bindArgsFrom params next bound args).map (List.map Binding.bare) := by
  induction args generalizing next bound with
  | nil => rfl
  | cons a rest ih =>
    have haim : ∀ value : Expr, Argument.aim? params next { a with value } = a.aim? params next := fun _ => rfl
    have hmissing : ∀ value : Expr, Argument.missing params { a with value } = a.missing params := fun _ => rfl
    have hplain : ∀ value : Expr, Argument.isPlain { a with value } = a.isPlain := fun _ => rfl
    simp only [bareArgs, bindArgsFrom, haim, hmissing, hplain, ih]
    cases a.aim? params next with
    | none => rfl
    | some p =>
      dsimp only
      split
      · rfl
      · cases bindArgsFrom params (if a.isPlain then next + 1 else next) (p :: bound) rest <;> rfl

theorem CallAt.resolve_bare (nodes : List Node) (call : CallAt) : call.bare.resolve nodes = (call.resolve nodes).bare := by
  rw [resolve, resolve]
  cases ht : call.target with
  | unknown => simp only [CallAt.bare, ht, Resolution.bare]
  | resolved f =>
    simp only [CallAt.bare, ht]
    cases nodes.find? (·.id == f) with
    | none => rfl
    | some node =>
      simp only [bindArgs, bindArgsFrom_bare]
      cases bindArgsFrom node.paramNames 0 [] call.args <;> rfl

private theorem CallSite.of_bare (nodes : List Node) (caller : NodeId) (index : Nat) (call : CallAt) :
    CallSite.of nodes caller index call.bare = (CallSite.of nodes caller index call).bare := by
  simp only [CallSite.of, CallAt.resolve_bare, CallSite.bare]
  cases call.resolve nodes <;> rfl

private theorem siteCalls_bare (nodes : List Node) (node : Node) :
    siteCalls nodes node.bare = (siteCalls nodes node).map CallAt.bare := by
  have hsite : ∀ resolution : Resolution, resolution.bare.isSite = resolution.isSite := fun r => by cases r <;> rfl
  rw [siteCalls, siteCalls, Node.bare, FunctionDecl.renderCalls_bare, List.filter_map]
  congr 1
  exact List.filter_congr fun call _ => by rw [Function.comp_apply, CallAt.resolve_bare, hsite]

private theorem sitesOfNode_bare (nodes : List Node) (caller : NodeId) (node : Node) :
    sitesOfNode nodes caller node.bare = (sitesOfNode nodes caller node).map CallSite.bare := by
  rw [sitesOfNode, sitesOfNode, siteCalls_bare]
  refine List.ext_getElem? fun index => ?_
  simp [CallSite.of_bare, Function.comp_def]

private theorem bindDiagnostics_bare (nodes : List Node) (node : Node) :
    bindDiagnostics nodes node.bare = bindDiagnostics nodes node := by
  rw [bindDiagnostics, bindDiagnostics, siteCalls_bare, List.filterMap_map]
  refine List.filterMap_congr fun call _ => ?_
  rw [Function.comp_apply, CallAt.resolve_bare]
  cases call.resolve nodes <;> rfl

private theorem CallSite.outline_bare (site : CallSite) : site.bare.outline = site.outline := by
  simp [outline, bare, Binding.bare, Function.comp_def, Expr.ident?_bare]

namespace Graph
variable {g h : Graph} {n : NodeId} {node : Node} {l : Link}

/-- The graph with the callbacks of all functions emptied. -/
def bare (g : Graph) : Graph :=
  { g with nodes := g.nodes.map Node.bare, sites := g.sites.map (List.map CallSite.bare) }

theorem faces_bare (g : Graph) : g.bare.nodes.map Node.face = g.nodes.map Node.face := by
  rw [bare, List.map_map]
  rfl

theorem node?_bare (g : Graph) (n : NodeId) : g.bare.node? n = (g.node? n).map Node.bare := List.getElem?_map

private theorem sitesOf_bare (g : Graph) (n : NodeId) : g.bare.sitesOf n = (g.sitesOf n).map CallSite.bare := by
  rw [sitesOf, sitesOf, bare, List.getElem?_map]
  cases g.sites[n]? <;> rfl

theorem outlines_bare (g : Graph) :
    g.bare.sites.map (List.map CallSite.outline) = g.sites.map (List.map CallSite.outline) := by
  simp [bare, Function.comp_def, CallSite.outline_bare]

theorem Lawful.bare (hg : g.Lawful) : g.bare.Lawful where
  distinct := by
    have hids : g.bare.nodes.map Node.id = g.nodes.map Node.id := by
      simp [Graph.bare, Function.comp_def, Node.bare]
    rw [hids]
    exact hg.distinct
  sites_eq := by
    refine List.ext_getElem? fun i => ?_
    have hnode : g.bare.nodes[i]? = g.nodes[i]?.map Node.bare := g.node?_bare i
    rw [List.getElem?_mapIdx, hnode, Graph.bare, List.getElem?_map, hg.sites_eq, List.getElem?_mapIdx, Option.map_map,
      Option.map_map]
    refine congrArg (Option.map · g.nodes[i]?) (funext fun node => ?_)
    rw [Function.comp_apply, Function.comp_apply, ← sitesOfNode_bare]
    exact (sitesOfNode_congr g.faces_bare i node.bare).symm
  incoming_eq := hg.incoming_eq.trans (incoming_congr g.faces_bare g.outlines_bare).symm

private theorem siteAround?_bare (g : Graph) (n : NodeId) (around : List Frame) :
    g.bare.siteAround? n (around.map Frame.bare) = (g.siteAround? n around).map fun (site, index) => (site.bare, index) := by
  cases around with
  | nil => rfl
  | cons frame around =>
    cases frame with
    | argument call index =>
      simp [siteAround?, Frame.bare, sitesOf_bare, List.find?_map, Function.comp_def, CallSite.bare]
    | operand => rfl
    | lambda uiBuilding params => rfl
    | nested header => rfl
    | block earlier => rfl

private theorem useOf_bare (g : Graph) (n : NodeId) (param : String) (kind : Kind) (o : Occurrence) :
    Scan.useOf ⟨g.bare, n, param, kind⟩ o.bare = Scan.useOf ⟨g, n, param, kind⟩ o := by
  have hsite : g.bare.siteAround? n o.bare.around = _ := g.siteAround?_bare n o.around
  rw [Scan.useOf, Scan.useOf, hsite]
  cases g.siteAround? n o.around with
  | none => rfl
  | some found =>
    obtain ⟨site, index⟩ := found
    have hparam : site.bare.paramOf? index = site.paramOf? index := by
      simp [CallSite.paramOf?, CallSite.bare, Binding.bare, Function.comp_def]
    simp only [Option.map_some, Scan.argumentUse, hparam, find?_param?_congr g.faces_bare]
    rfl

/-- In a callback every visible reference is a read. -/
theorem Lawful.useOf_of_not_isRendered (hg : g.Lawful) (hn : g.node? n = some node) {name : String} {o : Occurrence}
    (ho : o ∈ node.decl.occurrences name) (hr : o.isRendered = false) (param : String) (kind : Kind) :
    Scan.useOf ⟨g, n, param, kind⟩ o = .read := by
  cases hs : g.siteAround? n o.around with
  | none => simp [Scan.useOf, hs]
  | some found =>
    have hrendered := (hg.siteAround?_eq_some hn ho hs).1
    rw [← o.isRendered_iff, hr] at hrendered
    cases hrendered

private theorem reached_bare (g : Graph) (forwards : List Forward) : g.bare.reached forwards = g.reached forwards := by
  have htarget : ∀ s, (g.bare.site? s).bind CallSite.target = (g.site? s).bind CallSite.target := by
    intro s
    rw [site?, site?, sitesOf_bare, List.getElem?_map, Option.bind_map]
    rfl
  simp only [reached, htarget]

end Graph

/-- The usage with a read added where there is one. -/
def Usage.consumedIf (read : Bool) (u : Usage) : Usage := if read then { u with classification := .consumed } else u

/-- References of which all but some are reads are classified by the others, and by whether there are any reads besides. -/
theorem Usage.ofUses_filter (g : Graph) {os : List Occurrence} {use : Occurrence → Use} {p : Occurrence → Bool}
    (h : ∀ o ∈ os, p o = false → use o = .read) :
    ofUses g (os.map use) = (ofUses g ((os.filter p).map use)).consumedIf (os.any fun o => !p o) := by
  cases hany : os.any fun o => !p o with
  | false =>
    have hall : os.filter p = os := List.filter_eq_self.2 (by simpa using hany)
    rw [hall, consumedIf, if_neg Bool.false_ne_true]
  | true =>
    obtain ⟨o, ho, hp⟩ := List.any_eq_true.1 hany
    have hread : (os.map use).contains .read = true :=
      List.elem_iff.2 (List.mem_map.2 ⟨o, ho, h o ho (by simpa using hp)⟩)
    have hforwards : (os.map use).filterMap Use.forward? = ((os.filter p).map use).filterMap Use.forward? := by
      rw [List.filterMap_map, List.filterMap_map, List.filterMap_filter]
      refine List.filterMap_congr fun o ho => ?_
      cases hp : p o <;> simp [h o ho, hp, Use.forward?]
    have hdead : (os.map use).count .deadEnd = ((os.filter p).map use).count .deadEnd := by
      rw [List.count_eq_countP, List.count_eq_countP, List.countP_map, List.countP_map, List.countP_filter]
      refine List.countP_congr fun o ho => ?_
      cases hp : p o <;> simp [h o ho, hp]
    simp only [ofUses, hread, hforwards, hdead, consumedIf, if_true]

namespace Graph
variable {g h : Graph} {n : NodeId} {node : Node} {l : Link}

/-- Of a callback only the parameters matter that it mentions: the usage of a parameter is the one that it has with the
callbacks emptied, or it is read if some callback mentions it. -/
theorem Lawful.usageOf_eq_bare (hg : g.Lawful) (hn : g.node? l.node = some node) {p : Parameter}
    (hp : node.param? l.param = some p) :
    g.usageOf l = (g.bare.usageOf l).consumedIf (node.decl.mentionsInCallback l.param) := by
  have hn' : g.bare.node? l.node = some node.bare := by rw [node?_bare, hn, Option.map_some]
  have hp' : node.bare.param? l.param = some p := hp
  have hvisible : node.bare.decl.visible l.param = _ := node.decl.visible_bare l.param
  have huse : Scan.useOf ⟨g.bare, l.node, l.param, p.kind⟩ ∘ Occurrence.bare = Scan.useOf ⟨g, l.node, l.param, p.kind⟩ :=
    funext fun o => g.useOf_bare l.node l.param p.kind o
  have hgraph : ∀ uses, Usage.ofUses g.bare uses = Usage.ofUses g uses := by
    intro uses
    simp only [Usage.ofUses, reached_bare]
  rw [hg.usageOf_eq hn hp, hg.uses_eq hn, hg.bare.usageOf_eq hn' hp', hg.bare.uses_eq hn', hvisible, List.map_map, huse, hgraph]
  exact Usage.ofUses_filter g fun o ho hr => hg.useOf_of_not_isRendered hn (List.mem_of_mem_filter ho) hr _ _

end Graph

/-- The functions are the same but for the bodies of their callbacks, and the callbacks of both mention the same
parameters if the functions carry the marker. -/
structure FunctionDecl.SameOutsideCallbacks (marker : String) (f f' : FunctionDecl) : Prop where
  bare : f'.bare = f.bare
  mentions : f.isMarked marker = true → ∀ p ∈ f.params, f'.mentionsInCallback p.name = f.mentionsInCallback p.name

theorem FunctionDecl.SameOutsideCallbacks.header {marker : String} {f f' : FunctionDecl}
    (h : f.SameOutsideCallbacks marker f') : f'.toFunctionHeader = f.toFunctionHeader := by
  have hheader : f'.bare.toFunctionHeader = f.bare.toFunctionHeader := by rw [h.bare]
  exact hheader

/-- Files of the same path with functions that are the same, one by one, but for the bodies of callbacks. -/
structure SourceFile.SameOutsideCallbacks (marker : String) (file file' : SourceFile) : Prop where
  path : file'.path = file.path
  functions : List.Forall₂ (FunctionDecl.SameOutsideCallbacks marker) file.functions file'.functions

structure Node.SameOutsideCallbacks (a b : Node) : Prop where
  bare : b.bare = a.bare
  mentions : ∀ p ∈ a.params, b.decl.mentionsInCallback p.name = a.decl.mentionsInCallback p.name

theorem FunctionDecl.SameOutsideCallbacks.ofDecl {marker : String} {f f' : FunctionDecl}
    (h : f.SameOutsideCallbacks marker f') (hf : f.isMarked marker = true) (v : Vocabulary) (path : String) :
    (Node.ofDecl v path f).SameOutsideCallbacks (.ofDecl v path f') where
  bare := congrArg (Node.ofDecl v path) h.bare
  mentions := by
    intro p hp
    obtain ⟨q, hq, rfl⟩ := List.mem_map.1 hp
    exact h.mentions hf q hq

private theorem filter_isMarked_forall₂ {marker : String} {fs fs' : List FunctionDecl}
    (h : List.Forall₂ (FunctionDecl.SameOutsideCallbacks marker) fs fs') :
    List.Forall₂ (fun f f' => f.isMarked marker = true ∧ f.SameOutsideCallbacks marker f')
      (fs.filter (·.isMarked marker)) (fs'.filter (·.isMarked marker)) := by
  induction h with
  | nil => exact .nil
  | @cons f f' rest rest' hf _ ih =>
    have hmarked : f'.isMarked marker = f.isMarked marker := congrArg (FunctionHeader.isMarked · marker) hf.header
    cases hm : f.isMarked marker with
    | true =>
      simp only [List.filter_cons, hmarked, hm, if_true]
      exact .cons ⟨hm, hf⟩ ih
    | false =>
      simp only [List.filter_cons, hmarked, hm, Bool.false_eq_true, if_false]
      exact ih

namespace Graph
variable {g h : Graph}

private theorem markedFunctions_corresponds (v : Vocabulary) {marker : String} {files files' : List SourceFile}
    (h : List.Forall₂ (SourceFile.SameOutsideCallbacks marker) files files') :
    List.Forall₂ (Corresponds v Node.SameOutsideCallbacks []) (markedFunctions marker files)
      (markedFunctions marker files') := by
  induction h with
  | nil => exact .nil
  | @cons file file' rest rest' hfile _ ih =>
    refine List.rel_append ?_ ih
    rw [List.forall₂_map_left_iff, List.forall₂_map_right_iff]
    refine (filter_isMarked_forall₂ hfile.functions).imp ?_
    rintro f f' ⟨hmarked, hf⟩
    have hid : f'.id = f.id := congrArg FunctionHeader.id hf.header
    have hlocation : f'.location = f.location := congrArg FunctionHeader.location hf.header
    refine ⟨hid, ?_, fun _ => ?_⟩
    · simp only [duplicateDiagnostic, hid, hlocation, hfile.path]
    · rw [hfile.path]
      exact hf.ofDecl hmarked v file.path

/-- Graphs whose nodes differ in callbacks only have the same graph when the callbacks are emptied. -/
theorem bare_eq (hg : g.Lawful) (hh : h.Lawful) (hnodes : List.Forall₂ Node.SameOutsideCallbacks g.nodes h.nodes) :
    h.bare = g.bare :=
  hg.bare.eq_of_nodes hh.bare (map_eq_of_forall₂ hnodes fun _ _ hab => hab.bare)

private theorem parallel_of_sameOutsideCallbacks (hg : g.Lawful) (hh : h.Lawful)
    (hnodes : List.Forall₂ Node.SameOutsideCallbacks g.nodes h.nodes) : Parallel g h := by
  have hbare := bare_eq hg hh hnodes
  have hfaces : h.nodes.map Node.face = g.nodes.map Node.face := by rw [← h.faces_bare, hbare, g.faces_bare]
  refine ⟨hg, hh, hfaces, by rw [← h.outlines_bare, hbare, g.outlines_bare], fun l => ?_⟩
  have hparam := param?_congr hfaces l
  cases hp : g.param? l with
  | none => rw [usageOf_eq_unused hp, usageOf_eq_unused (hparam.trans hp)]
  | some p =>
    obtain ⟨a, ha, hpa⟩ := param?_eq_some_iff.1 hp
    obtain ⟨b, hb, hpb⟩ := param?_eq_some_iff.1 (hparam.trans hp)
    have hab : a.SameOutsideCallbacks b := by
      obtain ⟨hi, rfl⟩ := List.getElem?_eq_some_iff.1 ha
      obtain ⟨hi', rfl⟩ := List.getElem?_eq_some_iff.1 hb
      exact hnodes.get hi hi'
    have hname : p.name = l.param := by simpa using List.find?_some hpa
    have hmentions := hab.mentions p (List.mem_of_find?_eq_some hpa)
    rw [hname] at hmentions
    rw [hg.usageOf_eq_bare ha hpa, hh.usageOf_eq_bare hb hpb, hbare, hmentions]

private theorem bindDiagnostics_eq_bare (g : Graph) :
    g.nodes.flatMap (bindDiagnostics g.nodes) = g.bare.nodes.flatMap (bindDiagnostics g.bare.nodes) := by
  conv_rhs => rw [bare, List.flatMap_map]
  refine List.flatMap_congr fun node _ => ?_
  exact ((bindDiagnostics_congr g.faces_bare _).trans (bindDiagnostics_bare g.nodes node)).symm

/-- Files that differ in callbacks only give graphs that do, with the same diagnostics. -/
theorem build_sameOutsideCallbacks (v : Vocabulary) (marker : String) {files files' : List SourceFile}
    (hfiles : List.Forall₂ (SourceFile.SameOutsideCallbacks marker) files files') :
    List.Forall₂ Node.SameOutsideCallbacks (build v marker files).1.nodes (build v marker files').1.nodes ∧
      (build v marker files').2 = (build v marker files).2 := by
  have hid : ∀ a b : Node, a.SameOutsideCallbacks b → b.id = a.id := by
    intro a b hab
    have hbare : b.bare.id = a.bare.id := by rw [hab.bare]
    exact hbare
  obtain ⟨hnodes, hduplicates⟩ := addNodes_forall₂ hid .nil (markedFunctions_corresponds v hfiles)
  have hbare := bare_eq (build_lawful v marker files) (build_lawful v marker files') hnodes
  refine ⟨hnodes, ?_⟩
  rw [build_errors v marker files, build_errors v marker files', bindDiagnostics_eq_bare (build v marker files).1,
    bindDiagnostics_eq_bare (build v marker files').1, hbare, hduplicates]

end Graph

/-- What a finding says, apart from where the value comes from. -/
def Finding.withoutOrigin (f : Finding) : Finding := { f with origin := none }

namespace Reporter
variable {g h : Graph} {d : Detection} {r r' : Reporter}

private theorem findingAt?_bare (g : Graph) (d : Detection) (path : List String) (origin : Option Origin)
    (x : Link × String) : findingAt? g.bare d path origin x = findingAt? g d path origin x := by
  rw [findingAt?, findingAt?, g.node?_bare, Option.bind_map]
  rfl

private theorem isSilenced_bare (g : Graph) (ids : List String) (l : Link) :
    g.bare.isSilenced ids l = g.isSilenced ids l := by
  rw [Graph.isSilenced, Graph.isSilenced, g.node?_bare, Option.any_map]
  rfl

private theorem map_withoutOrigin_findingAt? (g : Graph) (d : Detection) (path : List String) (origin : Option Origin)
    (x : Link × String) : (findingAt? g d path origin x).map Finding.withoutOrigin = findingAt? g d path none x := by
  cases hn : g.node? x.1.node with
  | none => simp [findingAt?, hn]
  | some node =>
    cases hp : node.param? x.1.param with
    | none => simp [findingAt?, hn, hp]
    | some p =>
      simp only [findingAt?, hn, hp, Option.bind_some]
      cases node.decl.isSuppressed d.suppressionIds <;> rfl

/-- The reporters have found the same, apart from where the values come from. -/
structure SameButOrigins (g h : Graph) (r r' : Reporter) : Prop where
  graph : r.graph = g
  graph' : r'.graph = h
  detection : r'.detection = r.detection
  reported : r'.reported = r.reported
  findings : r'.findings.map Finding.withoutOrigin = r.findings.map Finding.withoutOrigin
  suppressed : r'.suppressed = r.suppressed
  reportedChains : r'.reportedChains = r.reportedChains

theorem SameButOrigins.report (hr : SameButOrigins g h r r') (p : Graph.Parallel g h) (hbare : h.bare = g.bare) (c : Chain)
    (origin origin' : Option Origin) : SameButOrigins g h (r.report c origin).1 (r'.report c origin').1 := by
  obtain ⟨rfl, rfl, hdetection, hreported, hfindings, hsuppressed, hchains⟩ := hr
  have hadded : (r'.added c origin').map Finding.withoutOrigin = (r.added c origin).map Finding.withoutOrigin := by
    rw [added, added, hdetection, hreported, p.stepsOf_eq, p.path_eq, List.map_filterMap, List.map_filterMap]
    refine List.filterMap_congr fun x _ => ?_
    rw [map_withoutOrigin_findingAt?, map_withoutOrigin_findingAt?, ← findingAt?_bare, hbare, findingAt?_bare]
  have hsilenced : r'.graph.isSilenced r.detection.suppressionIds = r.graph.isSilenced r.detection.suppressionIds := by
    funext l
    rw [← isSilenced_bare, hbare, isSilenced_bare]
  have hempty : (r'.added c origin').isEmpty = (r.added c origin).isEmpty := by
    simpa using congrArg List.isEmpty hadded
  rw [report_eq, report_eq]
  refine ⟨rfl, rfl, hdetection, ?_, ?_, ?_, ?_⟩
  · simp only [hreported, p.stepsOf_eq]
  · simp only [List.map_append, hfindings, hadded]
  · simp only [hsuppressed, hreported, hdetection, hsilenced, p.stepsOf_eq]
  · simp only [hchains, hempty]

theorem SameButOrigins.foldl (hr : SameButOrigins g h r r') (p : Graph.Parallel g h) (hbare : h.bare = g.bare)
    (origin origin' : Chain → Option Origin) (cs : List Chain) :
    SameButOrigins g h (cs.foldl (fun r c => (r.report c (origin c)).1) r)
      (cs.foldl (fun r c => (r.report c (origin' c)).1) r') := by
  induction cs generalizing r r' with
  | nil => exact hr
  | cons c rest ih => exact ih (hr.report p hbare c (origin c) (origin' c))

end Reporter

/-- Callbacks are closed books. Let two programs be the same but for the bodies of callbacks, where for each parameter of a
marked function some callback of the function mentions it in both programs or in none; that is so if each callback mentions
the parameters that its counterpart mentions. Then the analyses agree in findings, in their order and in all that they say
but for origins, and in the suppressed ones, the diagnostics and the statistics. -/
theorem analyze_sameOutsideCallbacks (s : Settings) {files files' : List SourceFile}
    (hfiles : List.Forall₂ (SourceFile.SameOutsideCallbacks s.detection.uiMarker) files files') :
    let report := analyze s files
    let report' := analyze s files'
    report'.findings.map Finding.withoutOrigin = report.findings.map Finding.withoutOrigin ∧
      report'.suppressed = report.suppressed ∧ report'.errors = report.errors ∧ report'.stats = report.stats := by
  intro report report'
  let g := (Graph.build s.vocabulary s.detection.uiMarker files).1
  let h := (Graph.build s.vocabulary s.detection.uiMarker files').1
  have hg : g.Lawful := Graph.build_lawful _ _ _
  have hh : h.Lawful := Graph.build_lawful _ _ _
  obtain ⟨hnodes, herrors⟩ := Graph.build_sameOutsideCallbacks s.vocabulary s.detection.uiMarker hfiles
  have hbare : h.bare = g.bare := Graph.bare_eq hg hh hnodes
  have p : Graph.Parallel g h := Graph.parallel_of_sameOutsideCallbacks hg hh hnodes
  have hstart : Reporter.SameButOrigins g h { graph := g, detection := s.detection } { graph := h, detection := s.detection } :=
    ⟨rfl, rfl, rfl, rfl, rfl, rfl, rfl⟩
  obtain ⟨-, -, -, -, hfindings, hsuppressed, hchains⟩ : Reporter.SameButOrigins g h (reportChains s g g.chains)
      (reportChains s h h.chains) := by
    rw [p.chains_eq]
    exact hstart.foldl p hbare (g.originOf s.vocabulary) (h.originOf s.vocabulary) _
  simp only [report, report', analyze_eq]
  refine ⟨hfindings, hsuppressed, herrors, ?_⟩
  have hlength : h.nodes.length = g.nodes.length := hnodes.length_eq.symm
  exact (Stats.mk.injEq ..).mpr
    ⟨hfiles.length_eq.symm, hlength, p.siteCount_eq, p.unresolvedCount_eq, congrArg List.length p.chains_eq, hchains⟩

/-- Hands `count` on to `next` and sets up a callback. -/
def Sample.clickable (name : String) (next : FunctionDecl) (callback : List Stmt) : FunctionDecl :=
  declare name [.expr (.callTo next.toFunctionHeader [.positional (.name "count")]),
    .expr (.libraryCall "Button" [.trailingLambda (.block false callback)])]

/-- In a callback that does not mention `count`, calls of functions inside and outside the program go by unseen. -/
theorem analyze_sameOutsideCallbacks_clickable :
    let label := Sample.reader "Label"
    let busy : List Stmt := [.bind "count" (.unresolvedCall "load" []),
      .expr (.callTo label.toFunctionHeader [.positional (.name "count"), .positional (.name "count")])]
    let s : Settings := { detection := { minRelayLinks := 1 } }
    let idleReport := analyze s [⟨"a.kt", [Sample.clickable "Panel" label [], label]⟩]
    let busyReport := analyze s [⟨"a.kt", [Sample.clickable "Panel" label busy, label]⟩]
    idleReport.findings.length = 1 ∧
      busyReport.findings.map Finding.withoutOrigin = idleReport.findings.map Finding.withoutOrigin ∧
      busyReport.errors = idleReport.errors ∧ busyReport.stats = idleReport.stats := by
  intro label busy s idleReport busyReport
  have hpanel : (Sample.clickable "Panel" label []).SameOutsideCallbacks "Composable" (Sample.clickable "Panel" label busy) :=
    ⟨rfl, fun _ => by decide +kernel⟩
  have hlabel : label.SameOutsideCallbacks "Composable" label := ⟨rfl, fun _ _ _ => rfl⟩
  have hfile : SourceFile.SameOutsideCallbacks "Composable" ⟨"a.kt", [Sample.clickable "Panel" label [], label]⟩
      ⟨"a.kt", [Sample.clickable "Panel" label busy, label]⟩ := ⟨rfl, .cons hpanel (.cons hlabel .nil)⟩
  obtain ⟨hfindings, -, herrors, hstats⟩ := analyze_sameOutsideCallbacks s (.cons hfile .nil)
  exact ⟨by decide +kernel, hfindings, herrors, hstats⟩

end PassThrough

import PassThrough.Proofs.Analysis
import PassThrough.Proofs.Inclusion
import PassThrough.Proofs.Parallel

/-! Suppression hides findings and does nothing else. The main statement compares an analysis with that of the same program
in which one function carries a suppressing annotation more: the findings of that function are counted instead of listed,
and all others stay as they are. -/

namespace PassThrough

def FunctionDecl.annotate (f : FunctionDecl) (a : Annotation) : FunctionDecl :=
  { f with annotations := f.annotations ++ [a] }

/-- A suppression annotation that lists one of the ids, up to blanks, quotes and case. -/
def Annotation.Suppresses (a : Annotation) (ids : List String) : Prop :=
  a.simpleName ∈ suppressionAnnotations ∧
    ∃ argument ∈ a.arguments, ∃ id ∈ ids, Text.equalIgnoringCase id (unquoted argument) = true

private theorem FunctionDecl.isSuppressed_annotate (f : FunctionDecl) {a : Annotation} {ids : List String}
    (h : a.Suppresses ids) : (f.annotate a).isSuppressed ids = true := by
  obtain ⟨ha, argument, hargument, id, hid, hequal⟩ := h
  refine List.any_eq_true.2 ⟨unquoted argument, ?_, List.any_eq_true.2 ⟨id, hid, hequal⟩⟩
  refine List.mem_flatMap.2 ⟨a, List.mem_filter.2 ⟨?_, by simpa using ha⟩, List.mem_map_of_mem hargument⟩
  exact List.mem_append_right _ List.mem_cons_self

/-- The node with the annotation added if it is the function `f`. -/
def Node.annotate (f : FunctionId) (a : Annotation) (node : Node) : Node :=
  if node.id = f then { node with decl := node.decl.annotate a } else node

section Node
variable (f : FunctionId) (a : Annotation) (node : Node)

@[simp] theorem Node.annotate_id : (node.annotate f a).id = node.id := by
  rw [Node.annotate]
  split <;> rfl

@[simp] theorem Node.annotate_params : (node.annotate f a).params = node.params := by
  rw [Node.annotate]
  split <;> rfl

theorem Node.param?_annotate (name : String) : (node.annotate f a).param? name = node.param? name := by
  simp [Node.param?]

@[simp] theorem Node.annotate_body : (node.annotate f a).decl.body = node.decl.body := by
  rw [Node.annotate]
  split <;> rfl

end Node

namespace Graph
variable (g : Graph) (f : FunctionId) (a : Annotation)

def annotate : Graph := { g with nodes := g.nodes.map (Node.annotate f a) }

theorem faces_annotate : (g.annotate f a).nodes.map Node.face = g.nodes.map Node.face := by
  rw [annotate, List.map_map]
  exact List.map_congr_left fun node _ => by simp [Node.face]

theorem node?_annotate (n : NodeId) : (g.annotate f a).node? n = (g.node? n).map (Node.annotate f a) :=
  List.getElem?_map

private theorem siteCalls_annotate (nodes : List Node) (node : Node) :
    siteCalls nodes (node.annotate f a) = siteCalls nodes node := by
  rw [siteCalls, siteCalls, FunctionDecl.renderCalls, FunctionDecl.renderCalls, Node.annotate_body]

private theorem sitesOfNode_annotate (caller : NodeId) (node : Node) :
    sitesOfNode (g.annotate f a).nodes caller (node.annotate f a) = sitesOfNode g.nodes caller node := by
  rw [sitesOfNode_congr (faces_annotate g f a), sitesOfNode, sitesOfNode, siteCalls_annotate]

private theorem bindDiagnostics_annotate :
    (g.annotate f a).nodes.flatMap (bindDiagnostics (g.annotate f a).nodes) = g.nodes.flatMap (bindDiagnostics g.nodes) := by
  conv_lhs => rw [annotate, List.flatMap_map]
  refine List.flatMap_congr fun node _ => ?_
  refine (bindDiagnostics_congr (faces_annotate g f a) _).trans ?_
  rw [bindDiagnostics, bindDiagnostics, siteCalls_annotate, Node.annotate_id]

variable {g} {f} {a}

theorem Lawful.annotate (h : g.Lawful) : (g.annotate f a).Lawful where
  distinct := by
    have hids : (g.annotate f a).nodes.map Node.id = g.nodes.map Node.id := by simp [Graph.annotate, Function.comp_def]
    rw [hids]
    exact h.distinct
  sites_eq := by
    have hsites : (g.annotate f a).nodes.mapIdx (fun i node => sitesOfNode (g.annotate f a).nodes i node) =
        g.nodes.mapIdx fun i node => sitesOfNode g.nodes i node := by
      refine List.ext_getElem? fun i => ?_
      have hnode : (g.annotate f a).nodes[i]? = g.nodes[i]?.map (Node.annotate f a) := g.node?_annotate f a i
      rw [List.getElem?_mapIdx, List.getElem?_mapIdx, hnode, Option.map_map]
      exact congrArg (Option.map · g.nodes[i]?) (funext fun node => sitesOfNode_annotate g f a i node)
    exact h.sites_eq.trans hsites.symm
  incoming_eq := h.incoming_eq.trans (incoming_congr (faces_annotate g f a) rfl).symm

private theorem useOf_annotate (n : NodeId) (param : String) (kind : Kind) :
    Scan.useOf ⟨g.annotate f a, n, param, kind⟩ = Scan.useOf ⟨g, n, param, kind⟩ := by
  funext o
  have hsite : (g.annotate f a).siteAround? n o.around = g.siteAround? n o.around := rfl
  simp only [Scan.useOf, hsite, Scan.argumentUse, find?_param?_congr (faces_annotate g f a)]

private theorem Lawful.usageOf_annotate (h : g.Lawful) (l : Link) : (g.annotate f a).usageOf l = g.usageOf l := by
  cases hn : g.node? l.node with
  | none => simp [usageOf, classify, node?_annotate, hn]
  | some node =>
    have hn' : (g.annotate f a).node? l.node = some (node.annotate f a) := by rw [node?_annotate, hn, Option.map_some]
    have hparam := node.param?_annotate f a l.param
    cases hp : node.param? l.param with
    | none => simp [usageOf, classify, hn, hn', hparam, hp]
    | some p =>
      rw [h.usageOf_eq hn hp, h.annotate.usageOf_eq hn' (hparam.trans hp), h.annotate.uses_eq hn', h.uses_eq hn]
      have hvisible : (node.annotate f a).decl.visible l.param = node.decl.visible l.param := by
        simp [FunctionDecl.visible, FunctionDecl.occurrences]
      rw [hvisible, useOf_annotate]
      rfl

theorem Lawful.parallel_annotate (h : g.Lawful) (f : FunctionId) (a : Annotation) : Parallel g (g.annotate f a) where
  source := h
  target := h.annotate
  faces := faces_annotate g f a
  outlines := rfl
  usage := h.usageOf_annotate

private theorem nameStep_annotate (v : Vocabulary) (caller : Node) (site : CallSite) (name : String) :
    nameStep v (caller.annotate f a) site name = nameStep v caller site name := by
  have hbinder : (caller.annotate f a).decl.binderAt site.position name = caller.decl.binderAt site.position name := by
    simp [FunctionDecl.binderAt]
  have houter : outerParam (caller.annotate f a) = outerParam caller := by
    funext x
    rw [outerParam, outerParam, Node.param?_annotate]
  simp only [nameStep, hbinder, houter, Node.annotate_id]

theorem originStep_annotate (v : Vocabulary) (s : SiteId) (param : String) :
    (g.annotate f a).originStep v s param = g.originStep v s param := by
  have hsite : (g.annotate f a).site? s = g.site? s := rfl
  rw [originStep, originStep, hsite, node?_annotate]
  cases g.site? s with
  | none => rfl
  | some site =>
    cases g.node? s.caller with
    | none => rfl
    | some caller => simp only [Option.map_some, nameStep_annotate, Node.annotate_id]

theorem originFrom_annotate (v : Vocabulary) (pool : List Link) (s : SiteId) (param : String) :
    (g.annotate f a).originFrom v pool s param = g.originFrom v pool s param := by
  induction pool, s, param using originFrom.induct g v with
  | case1 pool s param origin hstep => rw [originFrom, originFrom, originStep_annotate, hstep]
  | case2 pool s param hstep => rw [originFrom, originFrom, originStep_annotate, hstep]
  | case3 pool s param outer hstep hpool supplier hsupplier ih =>
    have hsupplier' : (g.annotate f a).supplier? ⟨s.caller, outer⟩ = some supplier := hsupplier
    rw [originFrom_outer ((originStep_annotate v s param).trans hstep), originFrom_outer hstep, if_pos hpool, if_pos hpool,
      hsupplier, hsupplier']
    exact ih
  | case4 pool s param outer hstep hpool hsupplier =>
    have hsupplier' : (g.annotate f a).supplier? ⟨s.caller, outer⟩ = none := hsupplier
    rw [originFrom_outer ((originStep_annotate v s param).trans hstep), originFrom_outer hstep, hsupplier, hsupplier']
    rfl
  | case5 pool s param outer hstep hpool =>
    rw [originFrom_outer ((originStep_annotate v s param).trans hstep), originFrom_outer hstep, if_neg hpool, if_neg hpool]

private theorem Lawful.originOf_annotate (h : g.Lawful) (v : Vocabulary) (c : Chain) :
    (g.annotate f a).originOf v c = g.originOf v c := by
  obtain ⟨⟨links, terminal⟩, entry⟩ := c
  cases entry with
  | root => rfl
  | site s =>
    cases links with
    | nil => rfl
    | cons head rest =>
      simp only [originOf, originAt]
      rw [originFrom_annotate, (h.parallel_annotate f a).links_eq]

end Graph

namespace Reporter
variable {f : FunctionId} {a : Annotation} {g : Graph} {d : Detection} {r copy : Reporter}

/-- Links of the annotated function give no finding now; all others give what they gave. -/
theorem findingAt?_annotate (h : a.Suppresses d.suppressionIds) (path : List String) (origin : Option Origin)
    (x : Link × String) : findingAt? (g.annotate f a) d path origin x =
      (findingAt? g d path origin x).filter fun finding => finding.function ≠ f := by
  rw [findingAt?, findingAt?, g.node?_annotate]
  cases g.node? x.1.node with
  | none => rfl
  | some node =>
    have hs := node.decl.isSuppressed_annotate h
    rw [Option.map_some, Option.bind_some, Option.bind_some, Node.param?_annotate]
    cases node.param? x.1.param with
    | none => rfl
    | some p =>
      by_cases hf : node.id = f <;> cases hold : node.decl.isSuppressed d.suppressionIds <;>
        simp [Node.annotate, hf, hs, hold, Option.filter_some]

/-- A link of the annotated function is silenced now; before, it was silenced or gave a finding. -/
theorem isSilenced_annotate (h : a.Suppresses d.suppressionIds) (path : List String) (origin : Option Origin)
    (x : Link × String) : (if (g.annotate f a).isSilenced d.suppressionIds x.1 then 1 else 0) =
      (if g.isSilenced d.suppressionIds x.1 then 1 else 0) +
        (findingAt? g d path origin x).toList.countP (·.function = f) := by
  rw [findingAt?, Graph.isSilenced, Graph.isSilenced, g.node?_annotate]
  cases g.node? x.1.node with
  | none => rfl
  | some node =>
    have hs := node.decl.isSuppressed_annotate h
    rw [Option.map_some, Option.any_some, Option.any_some, Option.bind_some, Node.param?_annotate]
    cases node.param? x.1.param with
    | none => rfl
    | some p =>
      by_cases hf : node.id = f <;> cases hold : node.decl.isSuppressed d.suppressionIds <;>
        simp [Node.annotate, hf, hs, hold]

private theorem countP_isSilenced_annotate (h : a.Suppresses d.suppressionIds) (path : List String) (origin : Option Origin)
    (xs : List (Link × String)) :
    xs.countP (fun x => (g.annotate f a).isSilenced d.suppressionIds x.1) =
      xs.countP (fun x => g.isSilenced d.suppressionIds x.1) +
        (xs.filterMap (findingAt? g d path origin)).countP (·.function = f) := by
  induction xs with
  | nil => rfl
  | cons x rest ih =>
    have hx := isSilenced_annotate (g := g) (f := f) h path origin x
    have hfindings : (x :: rest).filterMap (findingAt? g d path origin) =
        (findingAt? g d path origin x).toList ++ rest.filterMap (findingAt? g d path origin) := by
      cases hf : findingAt? g d path origin x <;> simp [hf]
    rw [hfindings, List.countP_append, List.countP_cons, List.countP_cons, ih, hx]
    omega

/-- The second reporter has listed what the first one has, but for the findings of `f`, which it has counted. -/
structure Hides (g : Graph) (f : FunctionId) (a : Annotation) (r copy : Reporter) : Prop where
  graph : r.graph = g
  copyGraph : copy.graph = g.annotate f a
  detection : copy.detection = r.detection
  reported : copy.reported = r.reported
  findings : copy.findings = r.findings.filter (·.function ≠ f)
  suppressed : copy.suppressed = r.suppressed + r.findings.countP (·.function = f)
  reportedChains : copy.reportedChains ≤ r.reportedChains

theorem Hides.report (hr : Hides g f a r copy) (hg : g.Lawful) (h : a.Suppresses r.detection.suppressionIds) (c : Chain)
    (origin : Option Origin) : Hides g f a (r.report c origin).1 (copy.report c origin).1 := by
  obtain ⟨rfl, hgraph, hdetection, hreported, hfindings, hsuppressed, hchains⟩ := hr
  have hparallel := hg.parallel_annotate f a
  have hadded : copy.added c origin = (r.added c origin).filter (·.function ≠ f) := by
    rw [added, added, hgraph, hdetection, hreported, hparallel.stepsOf_eq, hparallel.path_eq, List.filter_filterMap]
    exact List.filterMap_congr fun x _ => findingAt?_annotate h _ _ x
  rw [report_eq, report_eq]
  refine ⟨rfl, hgraph, hdetection, ?_, ?_, ?_, ?_⟩
  · simp only [hgraph, hreported, hparallel.stepsOf_eq]
  · simp only [hfindings, hadded, List.filter_append]
  · simp only [hgraph, hdetection, hreported, hparallel.stepsOf_eq, hsuppressed, List.countP_append]
    rw [countP_isSilenced_annotate h (c.path r.graph) origin, added]
    omega
  · dsimp only
    rw [hadded]
    cases hempty : r.added c origin with
    | nil => simpa using hchains
    | cons finding rest =>
      simp only [List.isEmpty_cons, Bool.false_eq_true, if_false]
      split <;> omega

theorem Hides.foldl (hr : Hides g f a r copy) (hg : g.Lawful) (h : a.Suppresses r.detection.suppressionIds)
    (v : Vocabulary) (cs : List Chain) :
    Hides g f a (cs.foldl (fun r c => (r.report c (g.originOf v c)).1) r)
      (cs.foldl (fun r c => (r.report c ((g.annotate f a).originOf v c)).1) copy) := by
  induction cs generalizing r copy with
  | nil => exact hr
  | cons c rest ih =>
    rw [List.foldl_cons, List.foldl_cons, hg.originOf_annotate]
    refine ih (hr.report hg h c _) ?_
    rwa [report_eq]

end Reporter

private theorem reportChains_annotate (s : Settings) {g : Graph} (hg : g.Lawful) (f : FunctionId) {a : Annotation}
    (h : a.Suppresses s.detection.suppressionIds) :
    Reporter.Hides g f a (reportChains s g g.chains) (reportChains s (g.annotate f a) (g.annotate f a).chains) := by
  rw [(hg.parallel_annotate f a).chains_eq]
  have hstart : Reporter.Hides g f a { graph := g, detection := s.detection }
      { graph := g.annotate f a, detection := s.detection } := ⟨rfl, rfl, rfl, rfl, rfl, rfl, Nat.le_refl _⟩
  exact hstart.foldl hg h s.vocabulary _

/-- Annotating the first function with its id annotates its node; later functions with the id are dropped as before. -/
theorem addNodes_annotate (v : Vocabulary) {xs : List (String × FunctionDecl)} {f : FunctionDecl}
    (hfirst : ∀ x ∈ xs, x.2.id ≠ f.id) (path : String) (a : Annotation) (ys : List (String × FunctionDecl)) :
    (addNodes v [] (xs ++ (path, f.annotate a) :: ys)).1 =
        (addNodes v [] (xs ++ (path, f) :: ys)).1.map (Node.annotate f.id a) ∧
      (addNodes v [] (xs ++ (path, f.annotate a) :: ys)).2 = (addNodes v [] (xs ++ (path, f) :: ys)).2 := by
  let nodes := (addNodes v [] xs).1
  let Annotated : Node → Node → Prop := fun node copy => copy = node.annotate f.id a
  have hother : ∀ node : Node, node.id ≠ f.id → Annotated node node := fun node hnode => (if_neg hnode).symm
  have hbefore : ∀ node ∈ nodes, node.id ≠ f.id := by
    intro node hnode
    rcases mem_addNodes v [] xs hnode with hnil | ⟨x, hx, rfl⟩
    · cases hnil
    · exact hfirst x hx
  have hadd : ∀ f' : FunctionDecl, f'.id = f.id →
      addNodes v nodes ((path, f') :: ys) = addNodes v (nodes ++ [.ofDecl v path f']) ys := by
    intro f' hid
    have hnew : nodes.any (·.id == f.id) = false := by simpa using hbefore
    rw [addNodes, hid, hnew, if_neg Bool.false_ne_true]
  have hstart : List.Forall₂ Annotated (nodes ++ [.ofDecl v path f]) (nodes ++ [.ofDecl v path (f.annotate a)]) :=
    List.rel_append (List.forall₂_same.2 fun node hnode => hother node (hbefore node hnode))
      (.cons (if_pos rfl).symm .nil)
  have hrest : List.Forall₂ (Graph.Corresponds v Annotated (nodes ++ [.ofDecl v path f])) ys ys := by
    refine List.forall₂_same.2 fun y _ => ⟨rfl, rfl, fun hnew => hother _ ?_⟩
    exact (hnew (.ofDecl v path f) (List.mem_append_right _ List.mem_cons_self)).symm
  have hid : ∀ node copy, Annotated node copy → copy.id = node.id := by
    rintro node _ rfl
    exact node.annotate_id f.id a
  obtain ⟨hnodes, herrors⟩ := Graph.addNodes_forall₂ hid hstart hrest
  have hmap := Graph.map_eq_of_forall₂ (q := id) hnodes fun _ _ h => h
  rw [List.map_id] at hmap
  rw [addNodes_append, addNodes_append, hadd f rfl, hadd (f.annotate a) rfl]
  exact ⟨hmap, by rw [herrors]⟩

private theorem Graph.build_annotate (v : Vocabulary) (marker : String) (before after : List SourceFile) (path : String)
    (earlier later : List FunctionDecl) (f : FunctionDecl) (a : Annotation) (hmarked : f.isMarked marker = true)
    (hfirst : ∀ x ∈ markedFunctions marker (before ++ [⟨path, earlier⟩]), x.2.id ≠ f.id) :
    let built := build v marker (before ++ ⟨path, earlier ++ f :: later⟩ :: after)
    build v marker (before ++ ⟨path, earlier ++ f.annotate a :: later⟩ :: after) = (built.1.annotate f.id a, built.2) := by
  intro built
  have hsplit : ∀ f : FunctionDecl, f.isMarked marker = true →
      markedFunctions marker (before ++ ⟨path, earlier ++ f :: later⟩ :: after) =
        markedFunctions marker (before ++ [⟨path, earlier⟩]) ++ (path, f) :: markedFunctions marker (⟨path, later⟩ :: after) := by
    intro f hf
    simp [markedFunctions, hf]
  have hmarked' : (f.annotate a).isMarked marker = true := by
    rw [FunctionHeader.isMarked, FunctionDecl.annotate, List.any_append]
    exact Bool.or_eq_true_iff.2 (.inl hmarked)
  obtain ⟨hnodes, hduplicates⟩ := addNodes_annotate v hfirst path a (markedFunctions marker (⟨path, later⟩ :: after))
  rw [← hsplit f hmarked, ← hsplit _ hmarked'] at hnodes hduplicates
  have hgraph := (build_lawful v marker _).annotate.eq_of_nodes (build_lawful v marker _) hnodes
  refine Prod.ext hgraph ?_
  rw [build_errors, build_errors, hgraph, bindDiagnostics_annotate, hduplicates]

/-- Suppression only hides. Let a marked function, the first with its id, get a suppression annotation that lists one of the
ids. The analysis then lists the findings that it listed before, in the same order and with all that they say, except those
of the function, and it counts these as suppressed. Diagnostics and statistics stay as they are, but for the number of
chains with a finding, which may drop. -/
theorem analyze_annotate (s : Settings) (before after : List SourceFile) (path : String) (earlier later : List FunctionDecl)
    (f : FunctionDecl) (a : Annotation) (hmarked : f.isMarked s.detection.uiMarker = true)
    (hfirst : ∀ x ∈ markedFunctions s.detection.uiMarker (before ++ [⟨path, earlier⟩]), x.2.id ≠ f.id)
    (hsuppresses : a.Suppresses s.detection.suppressionIds) :
    let old := analyze s (before ++ ⟨path, earlier ++ f :: later⟩ :: after)
    let new := analyze s (before ++ ⟨path, earlier ++ f.annotate a :: later⟩ :: after)
    new.findings = old.findings.filter (·.function ≠ f.id) ∧
      new.suppressed = old.suppressed + old.findings.countP (·.function = f.id) ∧
      new.errors = old.errors ∧
      new.stats = { old.stats with reportedChains := new.stats.reportedChains } ∧
      new.stats.reportedChains ≤ old.stats.reportedChains := by
  intro old new
  have hbuild := Graph.build_annotate s.vocabulary s.detection.uiMarker before after path earlier later f a hmarked hfirst
  have hg := Graph.build_lawful s.vocabulary s.detection.uiMarker (before ++ ⟨path, earlier ++ f :: later⟩ :: after)
  have hparallel := hg.parallel_annotate f.id a
  obtain ⟨-, -, -, -, hfindings, hsuppressed, hchains⟩ := reportChains_annotate s hg f.id hsuppresses
  simp only [old, new, analyze_eq, hbuild]
  refine ⟨hfindings, hsuppressed, trivial, ?_, hchains⟩
  simp only [hparallel.siteCount_eq, hparallel.unresolvedCount_eq, hparallel.chains_eq]
  simp [Graph.annotate]

theorem analyze_annotate_panel :
    let label := Sample.reader "Label"
    let panel := Sample.relay "Panel" label
    let screen := Sample.relay "Screen" panel
    let a : Annotation := { name := "kotlin.Suppress", arguments := [" \"statepassthrough\" "] }
    let old := analyze {} [⟨"a.kt", [screen, panel, label]⟩]
    let new := analyze {} [⟨"a.kt", [screen, panel.annotate a, label]⟩]
    old.findings.map Finding.pair = [(screen.id, "count"), (panel.id, "count")] ∧
      new.findings = old.findings.filter (·.function ≠ panel.id) ∧
      new.suppressed = old.suppressed + old.findings.countP (·.function = panel.id) := by
  intro label panel screen a old new
  have hsuppresses : a.Suppresses ["ReactivePassThrough", "StatePassThrough"] :=
    ⟨by decide +kernel, _, List.mem_cons_self, "StatePassThrough", by decide, by decide +kernel⟩
  have hreport := analyze_annotate {} [] [] "a.kt" [screen] [label] panel a (by decide +kernel) (by decide +kernel) hsuppresses
  simp only [List.nil_append, List.singleton_append] at hreport
  obtain ⟨hfindings, hsuppressed, -⟩ := hreport
  exact ⟨by decide +kernel, hfindings, hsuppressed⟩

end PassThrough

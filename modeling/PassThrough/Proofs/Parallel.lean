import PassThrough.Proofs.Relay
import PassThrough.Proofs.Reporter

/-! Graphs that chains cannot tell apart. A chain depends on the parameters of the functions, on the targets of the call
sites and the bare names passed there, and on usages; in graphs that agree in these, the same chains are found. -/

namespace PassThrough

/-- What the other functions of a graph depend on. -/
def Node.face (node : Node) : FunctionId × List Parameter := (node.id, node.params)

/-- What chains depend on of a call site. Of an argument, only the name counts that it may be. -/
structure SiteOutline where
  id : SiteId
  target : Option FunctionId
  arguments : List (String × Option String)

def CallSite.outline (site : CallSite) : SiteOutline where
  id := site.id
  target := site.target
  arguments := site.bindings.map fun b => (b.param, b.value.ident?)

namespace Graph

/-- The graphs agree in all that chains depend on. -/
structure Parallel (g h : Graph) : Prop where
  source : g.Lawful
  target : h.Lawful
  faces : h.nodes.map Node.face = g.nodes.map Node.face
  outlines : h.sites.map (List.map CallSite.outline) = g.sites.map (List.map CallSite.outline)
  usage : ∀ l, h.usageOf l = g.usageOf l

section Faces
variable {nodes nodes' : List Node}

private theorem find?_face_congr (h : nodes'.map Node.face = nodes.map Node.face) (f : FunctionId) :
    (nodes'.find? (·.id == f)).map Node.face = (nodes.find? (·.id == f)).map Node.face := by
  have hfind : ∀ ns : List Node, (ns.find? (·.id == f)).map Node.face = (ns.map Node.face).find? (·.1 == f) := by
    intro ns
    rw [List.find?_map]
    rfl
  rw [hfind, hfind, h]

private theorem node?_face_congr {g h : Graph} (hfaces : h.nodes.map Node.face = g.nodes.map Node.face) (n : NodeId) :
    (h.node? n).map Node.face = (g.node? n).map Node.face := by
  rw [node?, node?, ← List.getElem?_map, ← List.getElem?_map, hfaces]

theorem param?_congr {g h : Graph} (hfaces : h.nodes.map Node.face = g.nodes.map Node.face) (l : Link) :
    h.param? l = g.param? l := by
  have hface : ∀ k : Graph, k.param? l = ((k.node? l.node).map Node.face).bind fun x => x.2.find? (·.name == l.param) := by
    intro k
    rw [Option.bind_map]
    rfl
  rw [hface, hface, node?_face_congr hfaces]

theorem find?_param?_congr {g h : Graph} (hfaces : h.nodes.map Node.face = g.nodes.map Node.face) (f : FunctionId)
    (param : String) : (h.find? f).bind (·.param? param) = (g.find? f).bind (·.param? param) := by
  have hface : ∀ k : Graph, (k.find? f).bind (·.param? param) =
      ((k.nodes.find? (·.id == f)).map Node.face).bind fun x => x.2.find? (·.name == param) := by
    intro k
    rw [Option.bind_map]
    rfl
  rw [hface, hface, find?_face_congr hfaces]

/-- Nothing but faces matters to what a call comes to. -/
theorem resolve_congr (h : nodes'.map Node.face = nodes.map Node.face) (call : CallAt) :
    call.resolve nodes' = call.resolve nodes := by
  cases ht : call.target with
  | unknown => simp only [CallAt.resolve, ht]
  | resolved f =>
    have hface := find?_face_congr h f
    simp only [CallAt.resolve, ht]
    cases hn : nodes.find? (·.id == f) with
    | none =>
      have hn' : nodes'.find? (·.id == f) = none := by simpa only [hn, Option.map_none, Option.map_eq_none_iff] using hface
      rw [hn']
    | some node =>
      obtain ⟨node', hn', heq⟩ : ∃ node', nodes'.find? (·.id == f) = some node' ∧ node'.face = node.face := by
        simpa only [hn, Option.map_some, Option.map_eq_some_iff] using hface
      obtain ⟨hid, hparams⟩ := Prod.mk.inj heq
      simp only [hn', Node.paramNames, Node.name, hid, hparams]

private theorem siteCalls_congr (h : nodes'.map Node.face = nodes.map Node.face) (node : Node) :
    siteCalls nodes' node = siteCalls nodes node := by
  rw [siteCalls, siteCalls]
  exact List.filter_congr fun call _ => by rw [resolve_congr h]

theorem sitesOfNode_congr (h : nodes'.map Node.face = nodes.map Node.face) (caller : NodeId) (node : Node) :
    sitesOfNode nodes' caller node = sitesOfNode nodes caller node := by
  rw [sitesOfNode, sitesOfNode, siteCalls_congr h]
  simp only [CallSite.of, resolve_congr h]

theorem bindDiagnostics_congr (h : nodes'.map Node.face = nodes.map Node.face) (node : Node) :
    bindDiagnostics nodes' node = bindDiagnostics nodes node := by
  rw [bindDiagnostics, bindDiagnostics, siteCalls_congr h]
  simp only [resolve_congr h]

/-- Which sites reach which functions is told by outlines and faces. -/
theorem incoming_congr {sites sites' : List (List CallSite)} (hnodes : nodes'.map Node.face = nodes.map Node.face)
    (hsites : sites'.map (List.map CallSite.outline) = sites.map (List.map CallSite.outline)) :
    (nodes'.map fun node => (sites'.flatten.filter (·.target == some node.id)).map CallSite.id) =
      nodes.map fun node => (sites.flatten.filter (·.target == some node.id)).map CallSite.id := by
  have hface : ∀ (ns : List Node) (ss : List (List CallSite)),
      (ns.map fun node => (ss.flatten.filter (·.target == some node.id)).map CallSite.id) =
        (ns.map Node.face).map fun x =>
          ((ss.map (List.map CallSite.outline)).flatten.filter (·.target == some x.1)).map SiteOutline.id := by
    intro ns ss
    rw [List.map_map, ← List.map_flatten]
    refine List.map_congr_left fun node _ => ?_
    rw [Function.comp_apply, List.filter_map, List.map_map]
    rfl
  rw [hface, hface, hnodes, hsites]

theorem map_eq_of_forall₂ {α β γ : Type} {R : α → β → Prop} {p : α → γ} {q : β → γ} {as : List α} {bs : List β}
    (h : List.Forall₂ R as bs) (heq : ∀ a b, R a b → q b = p a) : bs.map q = as.map p := by
  induction h with
  | nil => rfl
  | cons hab _ ih => rw [List.map_cons, List.map_cons, heq _ _ hab, ih]

/-- The functions have one id, and unless the nodes hold it already, they become nodes that are related. -/
structure Corresponds (v : Vocabulary) (R : Node → Node → Prop) (nodes : List Node) (x y : String × FunctionDecl) :
    Prop where
  id : y.2.id = x.2.id
  diagnostic : duplicateDiagnostic y.1 y.2 = duplicateDiagnostic x.1 x.2
  related : (∀ node ∈ nodes, node.id ≠ x.2.id) → R (.ofDecl v x.1 x.2) (.ofDecl v y.1 y.2)

/-- Lists of functions that correspond one to one give nodes that correspond one to one. -/
theorem addNodes_forall₂ {v : Vocabulary} {R : Node → Node → Prop} (hid : ∀ a b, R a b → b.id = a.id)
    (hnodes : List.Forall₂ R nodes nodes') {fs fs' : List (String × FunctionDecl)}
    (hfs : List.Forall₂ (Corresponds v R nodes) fs fs') :
    List.Forall₂ R (addNodes v nodes fs).1 (addNodes v nodes' fs').1 ∧
      (addNodes v nodes' fs').2 = (addNodes v nodes fs).2 := by
  induction fs generalizing nodes nodes' fs' with
  | nil =>
    cases hfs
    exact ⟨hnodes, rfl⟩
  | cons x rest ih =>
    obtain ⟨path, f⟩ := x
    obtain ⟨⟨path', f'⟩, rest', hf, hrest, rfl⟩ := List.forall₂_cons_left_iff.1 hfs
    have hany : nodes'.any (·.id == f'.id) = nodes.any (·.id == f.id) := by
      have hids : nodes'.map Node.id = nodes.map Node.id := map_eq_of_forall₂ hnodes hid
      have hf' : f'.id = f.id := hf.id
      simpa [hf', Function.comp_def] using congrArg (List.any · (· == f.id)) hids
    simp only [addNodes, hany]
    split
    · obtain ⟨hadded, herrors⟩ := ih hnodes hrest
      exact ⟨hadded, by rw [herrors, hf.diagnostic]⟩
    · rename_i hnew
      refine ih (List.rel_append hnodes (.cons (hf.related (by simpa using hnew)) .nil)) (hrest.imp fun y y' hy => ?_)
      exact ⟨hy.id, hy.diagnostic, fun hfresh => hy.related fun node hnode => hfresh node (List.mem_append_left _ hnode)⟩

end Faces

namespace Parallel
variable {g h : Graph} {n : NodeId} {s : SiteId} {l : Link}

private theorem node?_face (p : Parallel g h) (n : NodeId) : (h.node? n).map Node.face = (g.node? n).map Node.face :=
  node?_face_congr p.faces n

theorem param?_eq (p : Parallel g h) (l : Link) : h.param? l = g.param? l := param?_congr p.faces l

theorem nameOf_eq (p : Parallel g h) (n : NodeId) : h.nameOf n = g.nameOf n := by
  have hface : ∀ k : Graph, k.nameOf n = (((k.node? n).map Node.face).map fun x => x.1.name).getD "" := by
    intro k
    rw [nameOf]
    cases k.node? n <;> rfl
  rw [hface, hface, p.node?_face]

theorem links_eq (p : Parallel g h) : h.links = g.links := by
  have hface : ∀ k : Graph, k.links =
      (k.nodes.map Node.face).zipIdx.flatMap fun x => x.1.2.map fun q => ⟨x.2, q.name⟩ := by
    intro k
    rw [List.zipIdx_map, List.flatMap_map]
    rfl
  rw [hface, hface, p.faces]

theorem reactiveLinks_eq (p : Parallel g h) : h.reactiveLinks = g.reactiveLinks := by
  have hface : ∀ k : Graph, k.reactiveLinks = (k.nodes.map Node.face).zipIdx.flatMap fun x =>
      (x.1.2.filter (·.kind.isReactive)).map fun q => ⟨x.2, q.name⟩ := by
    intro k
    rw [List.zipIdx_map, List.flatMap_map]
    rfl
  rw [hface, hface, p.faces]

theorem idOf?_eq (p : Parallel g h) (f : FunctionId) : h.idOf? f = g.idOf? f := by
  have hface : ∀ k : Graph, k.idOf? f = (k.nodes.map Node.face).findIdx? (·.1 == f) := by
    intro k
    rw [List.findIdx?_map]
    rfl
  rw [hface, hface, p.faces]

private theorem site?_outline (p : Parallel g h) (s : SiteId) :
    (h.site? s).map CallSite.outline = (g.site? s).map CallSite.outline := by
  have hsites : ∀ k : Graph, (k.site? s).map CallSite.outline =
      ((k.sites.map (List.map CallSite.outline))[s.caller]?.getD [])[s.index]? := by
    intro k
    rw [List.getElem?_map, site?, sitesOf, ← List.getElem?_map]
    cases k.sites[s.caller]? <;> rfl
  rw [hsites, hsites, p.outlines]

private theorem flatten_outlines (p : Parallel g h) :
    h.sites.flatten.map CallSite.outline = g.sites.flatten.map CallSite.outline := by
  rw [List.map_flatten, List.map_flatten, p.outlines]

theorem siteCount_eq (p : Parallel g h) : h.siteCount = g.siteCount := by
  simpa only [siteCount, List.length_map] using congrArg List.length p.flatten_outlines

theorem unresolvedCount_eq (p : Parallel g h) : h.unresolvedCount = g.unresolvedCount := by
  simpa [unresolvedCount, List.countP_map, Function.comp_def, CallSite.outline]
    using congrArg (List.countP (·.target.isNone)) p.flatten_outlines

theorem callee?_eq (p : Parallel g h) (s : SiteId) : h.callee? s = g.callee? s := by
  have hsite : ∀ k : Graph, k.callee? s = ((k.site? s).map CallSite.outline).bind fun o => o.target.bind k.idOf? := by
    intro k
    rw [Option.bind_map]
    rfl
  rw [hsite, hsite, p.site?_outline, funext p.idOf?_eq]

theorem next?_eq (p : Parallel g h) : h.next? = g.next? := by
  funext f
  rw [next?, next?, p.callee?_eq]

private theorem argument?_ident (p : Parallel g h) (s : SiteId) (param : String) :
    (h.argument? s param).map Expr.ident? = (g.argument? s param).map Expr.ident? := by
  have hsite : ∀ k : Graph, (k.argument? s param).map Expr.ident? =
      ((k.site? s).map CallSite.outline).bind fun o => (o.arguments.find? (·.1 == param)).map Prod.snd := by
    intro k
    rw [argument?, Option.bind_map]
    cases k.site? s with
    | none => rfl
    | some site => simp [CallSite.argument?, CallSite.outline, List.find?_map, Function.comp_def]
  rw [hsite, hsite, p.site?_outline]

theorem incomingOf_eq (p : Parallel g h) (n : NodeId) : h.incomingOf n = g.incomingOf n := by
  rw [incomingOf, incomingOf, p.target.incoming_eq, p.source.incoming_eq, incoming_congr p.faces p.outlines]

theorem readerBelow_eq (p : Parallel g h) (pool pending : List Link) :
    h.readerBelow (m := Id) h.usageOf pool pending = g.readerBelow (m := Id) g.usageOf pool pending := by
  induction pool, pending using readerBelow.induct g with
  | case1 pool => rw [readerBelow, readerBelow]
  | case2 pool l pending hl ih =>
    rw [readerBelow_cons, readerBelow_cons, if_pos hl, if_pos hl, p.usage, p.next?_eq, ih]
  | case3 pool l pending hl ih =>
    rw [readerBelow_cons, readerBelow_cons, if_neg hl, if_neg hl, ih]

theorem isReadBelow_eq (p : Parallel g h) (l : Link) : h.isReadBelow l = g.isReadBelow l := by
  rw [isReadBelow, isReadBelow, reachesReader, reachesReader, p.links_eq, p.readerBelow_eq]

theorem walkFrom_eq (p : Parallel g h) (pool : List Link) (l : Link) : h.walkFrom pool l = g.walkFrom pool l := by
  induction pool, l using followFrom.induct with
  | case1 pool l hl ih =>
    rw [Graph.walkFrom_eq, Graph.walkFrom_eq, if_pos hl, if_pos hl, p.usage, p.isReadBelow_eq, p.next?_eq]
    cases (g.usageOf l).forward? with
    | none => rfl
    | some f => cases hn : g.next? f <;> simp only [ih]
  | case2 pool l hl => rw [Graph.walkFrom_eq, Graph.walkFrom_eq, if_neg hl, if_neg hl]

theorem walk_eq (p : Parallel g h) (l : Link) : h.walk l = g.walk l := by
  rw [walk, walk, p.links_eq, p.walkFrom_eq]

theorem suppliesAfresh_eq (p : Parallel g h) (param : String) : h.suppliesAfresh param = g.suppliesAfresh param := by
  funext s
  have hident : ∀ k : Graph, k.suppliesAfresh param s = ((k.argument? s param).map Expr.ident?).any fun source =>
      !source.any fun name => ((k.param? ⟨s.caller, name⟩).map Parameter.kind).any fun kind => kind.isReactive &&
        (!(k.usageOf ⟨s.caller, name⟩).isDistribution && (k.usageOf ⟨s.caller, name⟩).forward? == some ⟨s, param⟩) := by
    intro k
    rw [suppliesAfresh, Option.any_map]
    simp only [isRelayedAt_eq]
  rw [hident, hident, p.argument?_ident]
  simp only [p.param?_eq, p.usage]

theorem isSome_argument?_eq (p : Parallel g h) (s : SiteId) (param : String) :
    (h.argument? s param).isSome = (g.argument? s param).isSome := by
  simpa using congrArg Option.isSome (p.argument?_ident s param)

theorem entryPoint?_eq (p : Parallel g h) (l : Link) : h.entryPoint? l = g.entryPoint? l := by
  rw [entryPoint?, entryPoint?, entryOf, entryOf, entryFrom_eq, entryFrom_eq, p.incomingOf_eq, p.suppliesAfresh_eq]
  simp only [p.isSome_argument?_eq]

theorem chains_eq (p : Parallel g h) : h.chains = g.chains := by
  rw [chains, chains, p.reactiveLinks_eq]
  refine List.filterMap_congr fun l _ => ?_
  rw [chain?, chain?, p.usage, p.entryPoint?_eq, p.walk_eq]

theorem path_eq (p : Parallel g h) (c : Chain) : c.path h = c.path g :=
  List.map_congr_left fun l _ => p.nameOf_eq l.node

theorem stepsOf_eq (p : Parallel g h) (c : Chain) : Reporter.stepsOf h c = Reporter.stepsOf g c := by
  rw [Reporter.stepsOf, Reporter.stepsOf, p.path_eq]

end Parallel
end Graph
end PassThrough

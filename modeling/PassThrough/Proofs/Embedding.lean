import PassThrough.Proofs.Memo

/-! Graphs that hold a copy of another graph. An embedding renumbers functions, and sites, forwards and usages with them;
the usage of a parameter is found again at its copy. -/

namespace PassThrough

/-- The nodes stand for one function, whose parameters may be located elsewhere. -/
structure Node.Alike (a b : Node) : Prop where
  id : b.id = a.id
  decl : b.decl = a.decl
  params : b.params.map (fun p => (p.name, p.kind)) = a.params.map fun p => (p.name, p.kind)

namespace Node.Alike
variable {a b : Node}

theorem paramNames (h : a.Alike b) : b.paramNames = a.paramNames := by
  simpa [Node.paramNames, Function.comp_def] using congrArg (List.map Prod.fst) h.params

theorem kind? (h : a.Alike b) (name : String) :
    (b.param? name).map Parameter.kind = (a.param? name).map Parameter.kind := by
  have hfind : ∀ node : Node, (node.param? name).map Parameter.kind =
      ((node.params.map fun p => (p.name, p.kind)).find? (·.1 == name)).map Prod.snd := by
    intro node
    simp [Node.param?, List.find?_map, Function.comp_def]
  rw [hfind, hfind, h.params]

private theorem param?_bind {α : Type} (h : a.Alike b) (name : String) (use : Kind → Option α) :
    ((b.param? name).bind fun p => use p.kind) = (a.param? name).bind fun p => use p.kind := by
  simpa [Option.bind_map, Function.comp_def] using congrArg (Option.bind · use) (h.kind? name)

theorem param?_isSome (h : a.Alike b) (name : String) : (b.param? name).isSome = (a.param? name).isSome := by
  simpa using congrArg Option.isSome (h.kind? name)

theorem reactiveNames (h : a.Alike b) : b.reactiveParams.map Parameter.name = a.reactiveParams.map Parameter.name := by
  have hfilter : ∀ node : Node, node.reactiveParams.map Parameter.name =
      ((node.params.map fun p => (p.name, p.kind)).filter (·.2.isReactive)).map Prod.fst := by
    intro node
    simp [Node.reactiveParams, List.filter_map, Function.comp_def]
  rw [hfilter, hfilter, h.params]

end Node.Alike

section Renumber
variable (σ : NodeId → NodeId)

def SiteId.renumber (s : SiteId) : SiteId := ⟨σ s.caller, s.index⟩

def CallSite.renumber (s : CallSite) : CallSite := { s with id := s.id.renumber σ }

def Link.renumber (l : Link) : Link := ⟨σ l.node, l.param⟩

def Forward.renumber (f : Forward) : Forward := ⟨f.site.renumber σ, f.param⟩

def Use.renumber : Use → Use
  | .forward f => .forward (f.renumber σ)
  | .read => .read
  | .deadEnd => .deadEnd
  | .unbound callee => .unbound callee

def UsageClass.renumber : UsageClass → UsageClass
  | .forwarded f => .forwarded (f.renumber σ)
  | .consumed => .consumed
  | .unused => .unused

def Usage.renumber (u : Usage) : Usage :=
  { u with classification := u.classification.renumber σ, forwards := u.forwards.map (Forward.renumber σ) }

end Renumber

namespace Usage
variable {σ : NodeId → NodeId} {u : Usage}

@[simp] theorem isConsumed_renumber : (u.renumber σ).isConsumed = u.isConsumed := by
  cases hc : u.classification <;> simp [isConsumed, renumber, hc, UsageClass.renumber]

@[simp] theorem forward?_renumber : (u.renumber σ).forward? = u.forward?.map (Forward.renumber σ) := by
  cases hc : u.classification <;> simp [forward?, renumber, hc, UsageClass.renumber]

@[simp] theorem isForwarded_renumber : (u.renumber σ).isForwarded = u.isForwarded := by
  simp [isForwarded]

@[simp] theorem isDistribution_renumber : (u.renumber σ).isDistribution = u.isDistribution := by
  rw [isDistribution, isForwarded_renumber]
  rfl

private theorem ofUses_renumber {g h : Graph} {uses : List Use}
    (hreached : h.reached ((uses.filterMap Use.forward?).map (Forward.renumber σ)) = g.reached (uses.filterMap Use.forward?)) :
    ofUses h (uses.map (Use.renumber σ)) = (ofUses g uses).renumber σ := by
  have hforwards : (uses.map (Use.renumber σ)).filterMap Use.forward? =
      (uses.filterMap Use.forward?).map (Forward.renumber σ) := by
    rw [List.filterMap_map, List.map_filterMap]
    exact List.filterMap_congr fun u _ => by cases u <;> rfl
  have hread : (uses.map (Use.renumber σ)).contains .read = uses.contains .read := by
    simp only [List.contains_eq_any_beq, List.any_map]
    congr 1
    funext u
    cases u <;> rfl
  have hdead : (uses.map (Use.renumber σ)).count .deadEnd = uses.count .deadEnd := by
    rw [List.count, List.countP_map]
    refine List.countP_congr fun u _ => ?_
    cases u <;> simp [Use.renumber]
  simp only [ofUses, hforwards, hread, hdead, hreached, renumber]
  congr 1
  split
  · rfl
  · cases uses.filterMap Use.forward? <;> rfl

end Usage

namespace Graph

/-- The number is that of a function. -/
def Holds (g : Graph) (n : NodeId) : Prop := ∃ node, g.node? n = some node

theorem holds_iff {g : Graph} {n : Nat} : g.Holds n ↔ n < g.nodes.length := by
  simp [Holds, node?, ← Option.isSome_iff_exists]

theorem holds_of_param? {g : Graph} {l : Link} {p : Parameter} (h : g.param? l = some p) : g.Holds l.node := by
  obtain ⟨node, hn, -⟩ := param?_eq_some_iff.1 h
  exact ⟨node, hn⟩

theorem holds_of_mem_links {g : Graph} {l : Link} (h : l ∈ g.links) : g.Holds l.node := by
  obtain ⟨⟨node, i⟩, hn, hl⟩ := List.mem_flatMap.1 h
  obtain ⟨p, -, rfl⟩ := List.mem_map.1 hl
  exact ⟨node, List.mk_mem_zipIdx_iff_getElem?.1 hn⟩

theorem Lawful.caller_holds {g : Graph} (h : g.Lawful) {s : SiteId} {n : NodeId} (hs : g.callee? s = some n) :
    g.Holds s.caller := by
  obtain ⟨site, -, hsite, -, -⟩ := h.callee?_eq_some_iff.1 hs
  obtain ⟨node, -, hn, -, -⟩ := h.site?_eq_some_iff.1 hsite
  exact ⟨node, hn⟩

theorem Lawful.callee_holds {g : Graph} (h : g.Lawful) {s : SiteId} {n : NodeId} (hs : g.callee? s = some n) :
    g.Holds n := by
  obtain ⟨-, node, -, hn, -⟩ := h.callee?_eq_some_iff.1 hs
  exact ⟨node, hn⟩

/-- Each function of `g` has a copy in `h`, and the copies neither call other functions of `h` nor are called by them. -/
structure Embedding (g h : Graph) (σ : NodeId → NodeId) : Prop where
  source : g.Lawful
  target : h.Lawful
  node : ∀ {i node}, g.node? i = some node → ∃ copy, h.node? (σ i) = some copy ∧ node.Alike copy
  callee : ∀ {i node call f}, g.node? i = some node → call ∈ node.decl.renderCalls → call.target = .resolved f →
    (h.find? f).isSome → (g.find? f).isSome
  caller : ∀ {s n}, g.Holds n → h.callee? s = some (σ n) → ∃ i, g.Holds i ∧ σ i = s.caller

namespace Embedding
variable {g h : Graph} {σ : NodeId → NodeId} {i n : NodeId} {node copy : Node} {s : SiteId} {l : Link} {f : Forward}

theorem injective (e : Embedding g h σ) {j : NodeId} (hi : g.Holds i) (hj : g.Holds j) (heq : σ i = σ j) : i = j := by
  obtain ⟨a, ha⟩ := hi
  obtain ⟨b, hb⟩ := hj
  obtain ⟨a', ha', halike⟩ := e.node ha
  obtain ⟨b', hb', hblike⟩ := e.node hb
  rw [heq, hb'] at ha'
  obtain rfl := Option.some.inj ha'
  exact e.source.node_unique ha hb (halike.id.symm.trans hblike.id)

theorem find? (e : Embedding g h σ) {id : FunctionId} (hf : g.find? id = some node) :
    ∃ copy, h.find? id = some copy ∧ node.Alike copy := by
  obtain ⟨i, hi, rfl⟩ := e.source.find?_eq_some_iff.1 hf
  obtain ⟨copy, hcopy, halike⟩ := e.node hi
  exact ⟨copy, e.target.find?_eq_some_iff.2 ⟨σ i, hcopy, halike.id⟩, halike⟩

/-- A call comes to the same in both graphs. -/
theorem resolve_eq (e : Embedding g h σ) (hn : g.node? i = some node) {call : CallAt}
    (hc : call ∈ node.decl.renderCalls) : call.resolve h.nodes = call.resolve g.nodes := by
  cases ht : call.target with
  | unknown => simp only [CallAt.resolve, ht]
  | resolved id =>
    have hg : g.nodes.find? (·.id == id) = g.find? id := rfl
    have hh : h.nodes.find? (·.id == id) = h.find? id := rfl
    simp only [CallAt.resolve, ht, hg, hh]
    cases hf : g.find? id with
    | none =>
      have hnone : h.find? id = none := by
        cases hfh : h.find? id with
        | none => rfl
        | some other => simpa [hf] using e.callee hn hc ht (by simp [hfh])
      simp only [hnone]
    | some callee =>
      obtain ⟨copy, hcopy, halike⟩ := e.find? hf
      simp only [hcopy, halike.paramNames, Node.name, halike.id]

theorem siteCalls_eq (e : Embedding g h σ) (hn : g.node? i = some node) (halike : node.Alike copy) :
    siteCalls h.nodes copy = siteCalls g.nodes node := by
  rw [siteCalls, siteCalls, halike.decl]
  exact List.filter_congr fun call hc => by rw [e.resolve_eq hn hc]

theorem bindDiagnostics_eq (e : Embedding g h σ) (hn : g.node? i = some node) (halike : node.Alike copy) :
    bindDiagnostics h.nodes copy = bindDiagnostics g.nodes node := by
  rw [bindDiagnostics, bindDiagnostics, e.siteCalls_eq hn halike, halike.id]
  exact List.filterMap_congr fun call hc => by rw [e.resolve_eq hn (List.mem_of_mem_filter hc)]

theorem sitesOf_eq (e : Embedding g h σ) (hi : g.Holds i) : h.sitesOf (σ i) = (g.sitesOf i).map (CallSite.renumber σ) := by
  obtain ⟨node, hn⟩ := hi
  obtain ⟨copy, hcopy, halike⟩ := e.node hn
  rw [e.source.sitesOf_eq hn, e.target.sitesOf_eq hcopy, sitesOfNode, sitesOfNode, e.siteCalls_eq hn halike]
  refine List.ext_getElem? fun index => ?_
  simp only [List.getElem?_map, List.getElem?_mapIdx]
  cases hcall : (siteCalls g.nodes node)[index]? with
  | none => rfl
  | some call =>
    have hc := List.mem_of_mem_filter (List.mem_of_getElem? hcall)
    simp [CallSite.of, CallSite.renumber, SiteId.renumber, e.resolve_eq hn hc]

theorem site?_eq (e : Embedding g h σ) (hs : g.Holds s.caller) :
    h.site? (s.renumber σ) = (g.site? s).map (CallSite.renumber σ) := by
  simp [site?, SiteId.renumber, e.sitesOf_eq hs]

theorem argument?_eq (e : Embedding g h σ) (hs : g.Holds s.caller) (param : String) :
    h.argument? (s.renumber σ) param = g.argument? s param := by
  rw [argument?, argument?, e.site?_eq hs, Option.bind_map]
  rfl

theorem callee?_eq (e : Embedding g h σ) (hs : g.Holds s.caller) : h.callee? (s.renumber σ) = (g.callee? s).map σ := by
  rw [callee?, callee?, e.site?_eq hs]
  cases hsite : g.site? s with
  | none => rfl
  | some site =>
    obtain ⟨node, call, -, -, rfl⟩ := e.source.site?_eq_some_iff.1 hsite
    simp only [Option.map_some, Option.bind_some, CallSite.renumber]
    cases ht : (CallSite.of g.nodes s.caller s.index call).target with
    | none => rfl
    | some id =>
      obtain ⟨n, callee, hn, hid, -⟩ := e.source.target_eq_some ht
      obtain ⟨copy, hcopy, halike⟩ := e.node hn
      rw [Option.bind_some, Option.bind_some, e.source.idOf?_eq_some_iff.2 ⟨callee, hn, hid⟩]
      exact e.target.idOf?_eq_some_iff.2 ⟨copy, hcopy, halike.id.trans hid⟩

theorem next?_eq (e : Embedding g h σ) (hf : g.Holds f.site.caller) :
    h.next? (f.renumber σ) = (g.next? f).map (Link.renumber σ) := by
  simp [next?, Forward.renumber, Link.renumber, e.callee?_eq hf, Function.comp_def]

theorem kind?_eq (e : Embedding g h σ) (hl : g.Holds l.node) :
    (h.param? (l.renumber σ)).map Parameter.kind = (g.param? l).map Parameter.kind := by
  obtain ⟨node, hn⟩ := hl
  obtain ⟨copy, hcopy, halike⟩ := e.node hn
  simp [param?, Link.renumber, hn, hcopy, halike.kind? l.param]

theorem siteAround?_eq (e : Embedding g h σ) (hn : g.Holds n) (around : List Frame) :
    h.siteAround? (σ n) around = (g.siteAround? n around).map fun (site, index) => (site.renumber σ, index) := by
  cases around with
  | nil => rfl
  | cons frame around =>
    cases frame with
    | argument call index =>
      simp [siteAround?, e.sitesOf_eq hn, List.find?_map, Function.comp_def, CallSite.renumber]
    | operand => rfl
    | lambda uiBuilding params => rfl
    | nested header => rfl
    | block earlier => rfl

theorem forwardAt?_eq (e : Embedding g h σ) (hn : g.node? n = some node) {name : String} {o : Occurrence}
    (ho : o ∈ node.decl.occurrences name) (kind : Kind) :
    h.forwardAt? (σ n) kind o = (g.forwardAt? n kind o).map (Forward.renumber σ) := by
  rw [forwardAt?, forwardAt?, e.siteAround?_eq ⟨node, hn⟩]
  cases hs : g.siteAround? n o.around with
  | none => rfl
  | some found =>
    obtain ⟨site, index⟩ := found
    obtain ⟨-, hsite, -, -⟩ := e.source.siteAround?_eq_some hn ho hs
    obtain ⟨_, call, -, -, hof⟩ := e.source.site?_eq_some_iff.1 hsite
    simp only [Option.map_some, Option.bind_some]
    cases ht : site.target with
    | none => simp [CallSite.renumber, ht]
    | some id =>
      obtain ⟨m, callee, hm, hid, -⟩ := e.source.target_eq_some (hof ▸ ht)
      have hfind := e.source.find?_eq_some_iff.2 ⟨m, hm, hid⟩
      obtain ⟨copy, hcopy, halike⟩ := e.find? hfind
      have hparam : (site.renumber σ).paramOf? index = site.paramOf? index := rfl
      have htarget : (site.renumber σ).target = some id := ht
      simp only [htarget, hparam, Option.bind_some, hfind, hcopy]
      cases site.paramOf? index with
      | none => rfl
      | some param =>
        simp only [Option.bind_some]
        rw [halike.param?_bind param fun q =>
          if kind.assignableTo q then some (Forward.mk (site.renumber σ).id param) else none]
        cases callee.param? param with
        | none => rfl
        | some q => cases hk : kind.assignableTo q.kind <;> simp [hk, Forward.renumber, CallSite.renumber]

theorem useOf_eq (e : Embedding g h σ) (hn : g.node? n = some node) {name : String} {o : Occurrence}
    (ho : o ∈ node.decl.occurrences name) (param : String) (kind : Kind) :
    Scan.useOf ⟨h, σ n, param, kind⟩ o = (Scan.useOf ⟨g, n, param, kind⟩ o).renumber σ := by
  obtain ⟨copy, hcopy, halike⟩ := e.node hn
  have ho' : o ∈ copy.decl.occurrences name := by rwa [halike.decl]
  rw [e.target.useOf_eq hcopy ho', e.source.useOf_eq hn ho, e.siteAround?_eq ⟨node, hn⟩, e.forwardAt?_eq hn ho]
  cases g.siteAround? n o.around with
  | none => rfl
  | some found => cases g.forwardAt? n kind o <;> rfl

theorem uses_eq (e : Embedding g h σ) (hn : g.node? l.node = some node) (halike : node.Alike copy)
    (hcopy : h.node? (σ l.node) = some copy) (kind : Kind) :
    h.uses (l.renumber σ) copy kind = (g.uses l node kind).map (Use.renumber σ) := by
  have huses := e.target.uses_eq (l := l.renumber σ) hcopy kind
  simp only [Link.renumber] at huses ⊢
  rw [huses, e.source.uses_eq hn, halike.decl, List.map_map]
  exact List.map_congr_left fun o ho => e.useOf_eq hn (List.mem_of_mem_filter ho) l.param kind

theorem reached_eq (e : Embedding g h σ) {forwards : List Forward} (hf : ∀ f ∈ forwards, g.Holds f.site.caller) :
    h.reached (forwards.map (Forward.renumber σ)) = g.reached forwards := by
  rw [reached, reached, List.filterMap_map]
  congr 1
  refine List.filterMap_congr fun f hmem => ?_
  simp only [Function.comp_apply, Forward.renumber, e.site?_eq (hf f hmem), Option.bind_map]
  rfl

/-- The usage of a copy is the usage of the parameter, renumbered. -/
theorem usageOf_eq (e : Embedding g h σ) (hl : g.Holds l.node) :
    h.usageOf (l.renumber σ) = (g.usageOf l).renumber σ := by
  obtain ⟨node, hn⟩ := hl
  obtain ⟨copy, hcopy, halike⟩ := e.node hn
  have hkind := halike.kind? l.param
  cases hp : node.param? l.param with
  | none =>
    have hp' : copy.param? l.param = none := by simpa [hp] using hkind
    rw [usageOf_eq_unused (g := g) (by simp [param?, hn, hp]),
      usageOf_eq_unused (g := h) (by simp [param?, Link.renumber, hcopy, hp'])]
    rfl
  | some p =>
    obtain ⟨q, hq, hk⟩ : ∃ q, copy.param? l.param = some q ∧ q.kind = p.kind := by simpa [hp] using hkind
    have hforwards : ∀ f ∈ (g.usageOf l).forwards, g.Holds f.site.caller := by
      intro f hf
      obtain ⟨_, _, _, -, -, -, -, hcaller⟩ := e.source.next?_of_mem_forwards hf
      exact ⟨node, hcaller ▸ hn⟩
    rw [e.source.usageOf_eq hn hp] at hforwards ⊢
    have hcopyUsage := e.target.usageOf_eq (l := l.renumber σ) hcopy hq
    rw [hcopyUsage, hk, e.uses_eq hn halike hcopy]
    exact Usage.ofUses_renumber (e.reached_eq hforwards)

end Embedding
end Graph
end PassThrough

import PassThrough.Graph.Build
import PassThrough.Proofs.Binding

/-! Laws of built graphs: functions have distinct ids, sites are numbered in the order of the text, and
the sites listed as reaching a function are those that do. -/

namespace PassThrough

/-- The elements of a list, each with those before it, of which `earlier` come before the list. -/
def withEarlier {α : Type} (earlier : List α) : List α → List (List α × α)
  | [] => []
  | x :: rest => (earlier, x) :: withEarlier (earlier ++ [x]) rest

/-- The functions that are kept have distinct ids. -/
theorem addNodes_distinct (v : Vocabulary) (nodes : List Node) (fs : List (String × FunctionDecl))
    (h : (nodes.map Node.id).Nodup) : ((addNodes v nodes fs).1.map Node.id).Nodup := by
  induction fs generalizing nodes with
  | nil => exact h
  | cons x rest ih =>
    obtain ⟨path, f⟩ := x
    simp only [addNodes]
    split
    · exact ih nodes h
    · rename_i hf
      apply ih
      have hd : ∀ node ∈ nodes, ¬ node.id = f.id := by simpa using hf
      simpa [List.nodup_append, h, Node.ofDecl] using hd

/-- Adding functions in two parts. -/
theorem addNodes_append (v : Vocabulary) (nodes : List Node) (xs ys : List (String × FunctionDecl)) :
    addNodes v nodes (xs ++ ys) = ((addNodes v (addNodes v nodes xs).1 ys).1,
      (addNodes v nodes xs).2 ++ (addNodes v (addNodes v nodes xs).1 ys).2) := by
  induction xs generalizing nodes with
  | nil => rfl
  | cons x rest ih =>
    obtain ⟨path, f⟩ := x
    simp only [List.cons_append, addNodes]
    split
    · rw [ih]
      rfl
    · exact ih _

/-- Functions that none of the ids before them repeat are added as if these were not there. -/
theorem addNodes_after (v : Vocabulary) (before nodes : List Node) (fs : List (String × FunctionDecl))
    (hnew : ∀ x ∈ fs, ∀ node ∈ before, node.id ≠ x.2.id) :
    addNodes v (before ++ nodes) fs = (before ++ (addNodes v nodes fs).1, (addNodes v nodes fs).2) := by
  induction fs generalizing nodes with
  | nil => rfl
  | cons x rest ih =>
    obtain ⟨path, f⟩ := x
    obtain ⟨hf, hrest⟩ := List.forall_mem_cons.1 hnew
    have hany : (before ++ nodes).any (·.id == f.id) = nodes.any (·.id == f.id) := by
      have hbefore : before.any (·.id == f.id) = false := by simpa using hf
      rw [List.any_append, hbefore, Bool.false_or]
    simp only [addNodes, hany]
    split
    · rw [ih nodes hrest]
    · rw [List.append_assoc, ih _ hrest]

theorem mem_addNodes (v : Vocabulary) (nodes : List Node) (fs : List (String × FunctionDecl)) {node : Node}
    (h : node ∈ (addNodes v nodes fs).1) : node ∈ nodes ∨ ∃ x ∈ fs, node = Node.ofDecl v x.1 x.2 := by
  induction fs generalizing nodes with
  | nil => exact .inl h
  | cons x rest ih =>
    obtain ⟨path, f⟩ := x
    simp only [addNodes] at h
    split at h
    · rcases ih nodes h with hnode | ⟨y, hy, rfl⟩
      · exact .inl hnode
      · exact .inr ⟨y, List.mem_cons_of_mem _ hy, rfl⟩
    · rcases ih _ h with hnode | ⟨y, hy, rfl⟩
      · rcases List.mem_append.1 hnode with hnode | hnode
        · exact .inl hnode
        · exact .inr ⟨_, List.mem_cons_self, List.mem_singleton.1 hnode⟩
      · exact .inr ⟨y, List.mem_cons_of_mem _ hy, rfl⟩

theorem CallSite.of_target {nodes : List Node} {caller : NodeId} {index : Nat} {call : CallAt} {f : FunctionId}
    (h : (CallSite.of nodes caller index call).target = some f) : call.target = .resolved f := by
  simp only [CallSite.of, CallAt.resolve] at h
  cases hc : call.target with
  | unknown => simp [hc] at h
  | resolved f' =>
    simp only [hc] at h
    cases hf : nodes.find? (·.id == f') with
    | none => simp [hf] at h
    | some node =>
      simp only [hf] at h
      cases hb : bindArgs node.paramNames call.args <;> simp_all

namespace Graph

/-- The graph is the one that its nodes give, and these have distinct ids. -/
structure Lawful (g : Graph) : Prop where
  distinct : (g.nodes.map Node.id).Nodup
  sites_eq : g.sites = g.nodes.mapIdx fun i node => sitesOfNode g.nodes i node
  incoming_eq : g.incoming = g.nodes.map fun node =>
    (g.sites.flatten.filter (·.target == some node.id)).map CallSite.id

theorem build_lawful (v : Vocabulary) (marker : String) (files : List SourceFile) :
    (build v marker files).1.Lawful where
  distinct := addNodes_distinct v [] _ .nil
  sites_eq := rfl
  incoming_eq := rfl

theorem build_errors (v : Vocabulary) (marker : String) (files : List SourceFile) :
    (build v marker files).2 = (addNodes v [] (markedFunctions marker files)).2 ++
      (build v marker files).1.nodes.flatMap (bindDiagnostics (build v marker files).1.nodes) :=
  rfl

/-- The nodes of a graph are functions that carry the marker. -/
theorem exists_of_mem_build {v : Vocabulary} {marker : String} {files : List SourceFile} {node : Node}
    (h : node ∈ (build v marker files).1.nodes) : ∃ x ∈ markedFunctions marker files, node = Node.ofDecl v x.1 x.2 := by
  rcases mem_addNodes v [] _ h with hnil | hx
  · cases hnil
  · exact hx

namespace Lawful
variable {g : Graph} {n : NodeId} {node : Node} {f : FunctionId} {s : SiteId} {site : CallSite}

/-- The nodes determine the graph. -/
theorem eq_of_nodes {h : Graph} (hg : g.Lawful) (hh : h.Lawful) (hnodes : h.nodes = g.nodes) : h = g := by
  have hsites : h.sites = g.sites := by rw [hh.sites_eq, hg.sites_eq, hnodes]
  have hincoming : h.incoming = g.incoming := by rw [hh.incoming_eq, hg.incoming_eq, hnodes, hsites]
  cases g
  cases h
  simp_all only

theorem node_unique (h : g.Lawful) {i j : NodeId} {a b : Node} (ha : g.node? i = some a) (hb : g.node? j = some b)
    (hid : a.id = b.id) : i = j := by
  obtain ⟨hi, rfl⟩ := List.getElem?_eq_some_iff.1 ha
  obtain ⟨hj, rfl⟩ := List.getElem?_eq_some_iff.1 hb
  have hi' : i < (g.nodes.map Node.id).length := by simpa using hi
  have hj' : j < (g.nodes.map Node.id).length := by simpa using hj
  have heq : (g.nodes.map Node.id)[i] = (g.nodes.map Node.id)[j] := by simpa using hid
  exact h.distinct.getElem_inj_iff.1 heq

theorem idOf?_eq_some_iff (h : g.Lawful) :
    g.idOf? f = some n ↔ ∃ node, g.node? n = some node ∧ node.id = f := by
  simp only [idOf?, List.findIdx?_eq_some_iff_getElem, beq_iff_eq]
  constructor
  · rintro ⟨hn, hid, -⟩
    exact ⟨g.nodes[n], List.getElem?_eq_getElem hn, hid⟩
  · rintro ⟨node, hnode, hid⟩
    obtain ⟨hn, rfl⟩ := List.getElem?_eq_some_iff.1 hnode
    refine ⟨hn, hid, fun j hj hid' => ?_⟩
    have hj' : g.node? j = some g.nodes[j] := List.getElem?_eq_getElem (by omega)
    exact absurd (h.node_unique hj' hnode (hid'.trans hid.symm)) (Nat.ne_of_lt hj)

theorem find?_eq_some_iff (h : g.Lawful) : g.find? f = some node ↔ ∃ n, g.node? n = some node ∧ node.id = f := by
  constructor
  · intro hf
    obtain ⟨n, hn⟩ := List.mem_iff_getElem?.1 (List.mem_of_find?_eq_some hf)
    exact ⟨n, hn, by simpa using List.find?_some hf⟩
  · rintro ⟨n, hn, rfl⟩
    cases hf : g.find? node.id with
    | none => simpa using List.find?_eq_none.1 hf node (List.mem_of_getElem? hn)
    | some other =>
      obtain ⟨m, hm⟩ := List.mem_iff_getElem?.1 (List.mem_of_find?_eq_some hf)
      have hid : other.id = node.id := by simpa using List.find?_some hf
      obtain rfl := h.node_unique hm hn hid
      exact hm.symm.trans hn

theorem sitesOf_eq (h : g.Lawful) (hn : g.node? n = some node) : g.sitesOf n = sitesOfNode g.nodes n node := by
  have hn' : g.nodes[n]? = some node := hn
  simp [sitesOf, h.sites_eq, hn']

private theorem sitesOf_eq_nil (h : g.Lawful) (hn : g.node? n = none) : g.sitesOf n = [] := by
  have hn' : g.nodes[n]? = none := hn
  simp [sitesOf, h.sites_eq, hn']

/-- A site is a call of its caller that stays in the program. -/
theorem site?_eq_some_iff (h : g.Lawful) : g.site? s = some site ↔ ∃ node call, g.node? s.caller = some node ∧
    (siteCalls g.nodes node)[s.index]? = some call ∧ site = CallSite.of g.nodes s.caller s.index call := by
  cases hn : g.node? s.caller with
  | none => simp [site?, h.sitesOf_eq_nil hn]
  | some node =>
    simp only [site?, h.sitesOf_eq hn, sitesOfNode, List.getElem?_mapIdx, Option.map_eq_some_iff]
    constructor
    · rintro ⟨call, hc, rfl⟩
      exact ⟨node, call, rfl, hc, rfl⟩
    · rintro ⟨_, call, ⟨⟩, hc, rfl⟩
      exact ⟨call, hc, rfl⟩

theorem site?_id (h : g.Lawful) (hs : g.site? s = some site) : site.id = s := by
  obtain ⟨node, call, -, -, rfl⟩ := h.site?_eq_some_iff.1 hs
  rfl

theorem mem_flatten_sites (h : g.Lawful) : site ∈ g.sites.flatten ↔ g.site? site.id = some site := by
  have hmem : ∀ n, site ∈ g.sitesOf n ↔ ∃ i, g.site? ⟨n, i⟩ = some site := fun n => List.mem_iff_getElem?
  constructor
  · intro hs
    obtain ⟨sites, hsites, hsite⟩ := List.mem_flatten.1 hs
    obtain ⟨n, hn⟩ := List.mem_iff_getElem?.1 hsites
    obtain ⟨i, hi⟩ := (hmem n).1 (by simpa [sitesOf, hn] using hsite)
    rw [h.site?_id hi]
    exact hi
  · intro hs
    have hin : site ∈ g.sitesOf site.id.caller := List.mem_of_getElem? hs
    cases hn : g.sites[site.id.caller]? with
    | none => simp [sitesOf, hn] at hin
    | some sites => exact List.mem_flatten.2 ⟨sites, List.mem_of_getElem? hn, by simpa [sitesOf, hn] using hin⟩

theorem callee?_eq_some_iff (h : g.Lawful) : g.callee? s = some n ↔
    ∃ site node, g.site? s = some site ∧ g.node? n = some node ∧ site.target = some node.id := by
  simp only [callee?, Option.bind_eq_some_iff, h.idOf?_eq_some_iff]
  constructor
  · rintro ⟨site, hs, f, hf, node, hn, rfl⟩
    exact ⟨site, node, hs, hn, hf⟩
  · rintro ⟨site, node, hs, hn, hf⟩
    exact ⟨site, hs, node.id, hf, node, hn, rfl⟩

theorem incomingOf_eq (h : g.Lawful) (hn : g.node? n = some node) :
    g.incomingOf n = (g.sites.flatten.filter (·.target == some node.id)).map CallSite.id := by
  have hn' : g.nodes[n]? = some node := hn
  simp [incomingOf, h.incoming_eq, hn']

theorem mem_incomingOf (h : g.Lawful) : s ∈ g.incomingOf n ↔ g.callee? s = some n := by
  rw [h.callee?_eq_some_iff]
  cases hn : g.node? n with
  | none =>
    have hn' : g.nodes[n]? = none := hn
    simp [incomingOf, h.incoming_eq, hn']
  | some node =>
    simp only [h.incomingOf_eq hn, List.mem_map, List.mem_filter, beq_iff_eq, Option.some.injEq, h.mem_flatten_sites]
    constructor
    · rintro ⟨site, ⟨hs, ht⟩, rfl⟩
      exact ⟨site, node, hs, rfl, ht⟩
    · rintro ⟨site, node', hs, rfl, ht⟩
      have hid := h.site?_id hs
      exact ⟨site, ⟨hid ▸ hs, ht⟩, hid⟩

/-- A target is another function of the graph, to whose parameters the arguments are bound. -/
theorem target_eq_some (h : g.Lawful) {call : CallAt} (ht : (CallSite.of g.nodes s.caller s.index call).target = some f) :
    ∃ n node, g.node? n = some node ∧ node.id = f ∧
      bindArgs node.paramNames call.args = .ok (CallSite.of g.nodes s.caller s.index call).bindings := by
  simp only [CallSite.of, CallAt.resolve] at ht ⊢
  cases hc : call.target with
  | unknown => simp [hc] at ht
  | resolved f' =>
    simp only [hc] at ht ⊢
    cases hf : g.nodes.find? (·.id == f') with
    | none => simp [hf] at ht
    | some node =>
      simp only [hf] at ht ⊢
      cases hb : bindArgs node.paramNames call.args with
      | error problem => simp [hb] at ht
      | ok bindings =>
        obtain rfl : f' = f := by simpa [hb] using ht
        obtain ⟨n, hn, hid⟩ := h.find?_eq_some_iff.1 hf
        exact ⟨n, node, hn, hid, by simp [hb]⟩

end Lawful

theorem param?_eq_some_iff {g : Graph} {l : Link} {p : Parameter} :
    g.param? l = some p ↔ ∃ node, g.node? l.node = some node ∧ node.param? l.param = some p := by
  simp [param?, Option.bind_eq_some_iff]

theorem mem_links_iff {g : Graph} {l : Link} {node : Node} (hn : g.node? l.node = some node) :
    l ∈ g.links ↔ l.param ∈ node.paramNames := by
  obtain ⟨n, name⟩ := l
  simp only [links, List.mem_flatMap, Prod.exists, List.mem_zipIdx_iff_getElem?, List.mem_map, Link.mk.injEq,
    Node.paramNames]
  constructor
  · rintro ⟨node', i, hi, p, hp, rfl, rfl⟩
    obtain rfl : node' = node := Option.some.inj (hi.symm.trans hn)
    exact ⟨p, hp, rfl⟩
  · rintro ⟨p, hp, rfl⟩
    exact ⟨node, n, hn, p, hp, rfl, rfl⟩

theorem mem_links_of_param? {g : Graph} {l : Link} {p : Parameter} (h : g.param? l = some p) : l ∈ g.links := by
  obtain ⟨node, hn, hp⟩ := param?_eq_some_iff.1 h
  exact (mem_links_iff hn).2 (List.mem_map.2 ⟨p, List.mem_of_find?_eq_some hp, by simpa using List.find?_some hp⟩)

theorem mem_reactiveLinks {g : Graph} {l : Link} : l ∈ g.reactiveLinks ↔
    ∃ node p, g.node? l.node = some node ∧ p ∈ node.params ∧ p.kind.isReactive = true ∧ p.name = l.param := by
  obtain ⟨n, name⟩ := l
  simp only [reactiveLinks, Node.reactiveParams, List.mem_flatMap, Prod.exists, List.mem_zipIdx_iff_getElem?, List.mem_map,
    List.mem_filter, Link.mk.injEq, node?]
  constructor
  · rintro ⟨node, i, hn, p, ⟨hp, hk⟩, rfl, rfl⟩
    exact ⟨node, p, hn, hp, hk, rfl⟩
  · rintro ⟨node, p, hn, hp, hk, rfl⟩
    exact ⟨node, n, hn, p, ⟨hp, hk⟩, rfl, rfl⟩

/-- A reactive link is declared, though a parameter of another kind may come first under its name. -/
theorem param?_isSome_of_mem_reactiveLinks {g : Graph} {l : Link} (h : l ∈ g.reactiveLinks) :
    ∃ p, g.param? l = some p := by
  obtain ⟨node, p, hn, hp, -, hname⟩ := mem_reactiveLinks.1 h
  have hs : (node.param? l.param).isSome := List.find?_isSome.2 ⟨p, hp, by simp [hname]⟩
  obtain ⟨q, hq⟩ := Option.isSome_iff_exists.1 hs
  exact ⟨q, param?_eq_some_iff.2 ⟨node, hn, hq⟩⟩

private theorem flatMap_zipIdx {α β : Type} (f : α → Nat → List β) (xs : List α) (k : Nat) :
    (xs.zipIdx k).flatMap (fun x => f x.1 x.2) =
      (List.range xs.length).flatMap fun i => xs[i]?.toList.flatMap (f · (i + k)) := by
  induction xs generalizing k with
  | nil => rfl
  | cons x rest ih =>
    simp [List.zipIdx_cons, ih, List.range_succ_eq_map, List.flatMap_map, Nat.add_comm, Nat.add_left_comm]

/-- The reactive links of one function. -/
def reactiveLinksOf (g : Graph) (i : NodeId) : List Link :=
  (g.node? i).toList.flatMap fun node => node.reactiveParams.map fun p => ⟨i, p.name⟩

def bindDiagnosticsOf (g : Graph) (i : NodeId) : List Diagnostic :=
  (g.node? i).toList.flatMap (bindDiagnostics g.nodes)

theorem reactiveLinks_eq (g : Graph) : g.reactiveLinks = (List.range g.nodes.length).flatMap g.reactiveLinksOf := by
  have hidx := flatMap_zipIdx (fun node i => node.reactiveParams.map fun p => Link.mk i p.name) g.nodes 0
  exact hidx

theorem flatMap_bindDiagnostics (g : Graph) :
    g.nodes.flatMap (bindDiagnostics g.nodes) = (List.range g.nodes.length).flatMap g.bindDiagnosticsOf := by
  have hidx := flatMap_zipIdx (fun node _ => bindDiagnostics g.nodes node) g.nodes 0
  rwa [← List.flatMap_map, List.zipIdx_map_fst] at hidx

theorem Lawful.flatten_sites {g : Graph} (h : g.Lawful) :
    g.sites.flatten = (List.range g.nodes.length).flatMap g.sitesOf := by
  have hidx := flatMap_zipIdx (fun node i => sitesOfNode g.nodes i node) g.nodes 0
  rw [h.sites_eq, List.mapIdx_eq_zipIdx_map, ← List.flatMap_def]
  refine hidx.trans (List.flatMap_congr fun i _ => ?_)
  cases hn : g.node? i with
  | none =>
    have hn' : g.nodes[i]? = none := hn
    simp [h.sitesOf_eq_nil hn, hn']
  | some node =>
    have hn' : g.nodes[i]? = some node := hn
    simp [h.sitesOf_eq hn, hn']

end Graph
end PassThrough

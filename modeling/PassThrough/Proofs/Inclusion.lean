import PassThrough.Origin.Resolve
import PassThrough.Proofs.Transport

/-! Graphs that hold another graph as it is, with its order. Besides the links that a chain passes, the site at which it is
entered and the origin of its value are then found again. -/

namespace PassThrough

section Renumber
variable (σ : NodeId → NodeId)

def Entry.renumber : Entry → Entry
  | .root => .root
  | .site s => .site (s.renumber σ)

def Chain.renumber (c : Chain) : Chain := { c.toWalk.renumber σ with entry := c.entry.renumber σ }

end Renumber

namespace Graph

theorem originFrom_outer {g : Graph} {v : Vocabulary} {pool : List Link} {s : SiteId} {param outer : String}
    (hstep : g.originStep v s param = .outer outer) :
    g.originFrom v pool s param = if ⟨s.caller, outer⟩ ∈ pool then
      (g.supplier? ⟨s.caller, outer⟩).bind fun supplier => g.originFrom v (without pool ⟨s.caller, outer⟩) supplier outer
      else none := by
  rw [originFrom, hstep]
  dsimp only
  split
  · cases g.supplier? ⟨s.caller, outer⟩ <;> rfl
  · rfl

private theorem entryPoint?_eq_some_site {g : Graph} {l : Link} {s : SiteId} (h : g.entryPoint? l = some (.site s)) :
    s ∈ g.incomingOf l.node := by
  rw [entryPoint?, entryOf, entryFrom_eq] at h
  split at h
  · rename_i found hfound
    cases h
    exact List.mem_of_find?_eq_some hfound
  · split at h <;> cases h

/-- An embedding that leaves functions as they are and keeps the order of the sites that reach them. -/
structure Inclusion (g h : Graph) (σ : NodeId → NodeId) : Prop extends Embedding g h σ where
  same : ∀ {n}, g.Holds n → h.node? (σ n) = g.node? n
  incoming : ∀ {n}, g.Holds n → h.incomingOf (σ n) = (g.incomingOf n).map (SiteId.renumber σ)

namespace Inclusion
variable {g h : Graph} {σ : NodeId → NodeId} {n : NodeId} {s : SiteId} {l : Link} {c : Chain} {v : Vocabulary}

theorem holds_of_incoming (e : Inclusion g h σ) (hs : s ∈ g.incomingOf n) : g.Holds s.caller :=
  e.source.caller_holds (e.source.mem_incomingOf.1 hs)

private theorem find?_map_congr {α β : Type} {f : α → β} {p : β → Bool} {q : α → Bool} {xs : List α}
    (h : ∀ x ∈ xs, p (f x) = q x) : (xs.map f).find? p = (xs.find? q).map f := by
  have hfilter : xs.filter (p ∘ f) = xs.filter q := List.filter_congr h
  rw [List.find?_map, ← List.head?_filter, hfilter, List.head?_filter]

private theorem supplier?_eq (e : Inclusion g h σ) (hl : g.Holds l.node) :
    h.supplier? (l.renumber σ) = (g.supplier? l).map (SiteId.renumber σ) := by
  have hincoming : h.incomingOf (l.renumber σ).node = (g.incomingOf l.node).map (SiteId.renumber σ) := e.incoming hl
  rw [supplier?, supplier?, hincoming]
  refine find?_map_congr fun s hs => ?_
  rw [e.argument?_eq (e.holds_of_incoming hs)]
  rfl

theorem entryPoint?_eq (e : Inclusion g h σ) (hl : g.Holds l.node) :
    h.entryPoint? (l.renumber σ) = (g.entryPoint? l).map (Entry.renumber σ) := by
  have hafresh : (h.incomingOf (σ l.node)).find? (h.suppliesAfresh l.param) =
      ((g.incomingOf l.node).find? (g.suppliesAfresh l.param)).map (SiteId.renumber σ) := by
    rw [e.incoming hl]
    exact find?_map_congr fun s hs => e.suppliesAfresh_eq (e.holds_of_incoming hs) l.param
  have hsupplied : ((h.incomingOf (σ l.node)).any fun s => (h.argument? s l.param).isSome) =
      (g.incomingOf l.node).any fun s => (g.argument? s l.param).isSome := by
    simpa [supplier?, List.isSome_find?, Link.renumber] using congrArg Option.isSome (e.supplier?_eq hl)
  have hcopy := entryFrom_eq h l.param false (h.incomingOf (σ l.node))
  rw [hafresh, hsupplied] at hcopy
  have hentry := entryFrom_eq g l.param false (g.incomingOf l.node)
  refine hcopy.trans (Eq.trans ?_ (congrArg (Option.map (Entry.renumber σ)) hentry.symm))
  cases (g.incomingOf l.node).find? (g.suppliesAfresh l.param) with
  | some s => rfl
  | none => cases (g.incomingOf l.node).any fun s => (g.argument? s l.param).isSome <;> rfl

theorem chain?_eq (e : Inclusion g h σ) (hl : g.Holds l.node) :
    h.chain? (l.renumber σ) = (g.chain? l).map (Chain.renumber σ) := by
  rw [chain?, chain?, e.usageOf_eq hl, e.walk_eq hl, e.entryPoint?_eq hl, Usage.isForwarded_renumber,
    Usage.isDistribution_renumber]
  split
  · rfl
  · cases g.entryPoint? l <;> rfl

/-- The chains that start at the copies of links are the copies of the chains. -/
theorem filterMap_chain? (e : Inclusion g h σ) :
    (g.reactiveLinks.map (Link.renumber σ)).filterMap h.chain? = g.chains.map (Chain.renumber σ) := by
  rw [chains, List.filterMap_map, List.map_filterMap]
  refine List.filterMap_congr fun l hl => ?_
  obtain ⟨p, hp⟩ := param?_isSome_of_mem_reactiveLinks hl
  exact e.chain?_eq (holds_of_param? hp)

theorem originStep_eq (e : Inclusion g h σ) (hs : g.Holds s.caller) (param : String) :
    h.originStep v (s.renumber σ) param = g.originStep v s param := by
  have hnode : h.node? (s.renumber σ).caller = g.node? s.caller := e.same hs
  rw [originStep, originStep, e.site?_eq hs, hnode]
  cases g.site? s with
  | none => rfl
  | some site => cases g.node? s.caller <;> rfl

theorem originFrom_renumber_outer (e : Inclusion g h σ) (hs : g.Holds s.caller) {copies : List Link} {param outer : String}
    (hstep : g.originStep v s param = .outer outer) :
    h.originFrom v copies (s.renumber σ) param = if Link.renumber σ ⟨s.caller, outer⟩ ∈ copies then
      ((g.supplier? ⟨s.caller, outer⟩).map (SiteId.renumber σ)).bind fun supplier =>
        h.originFrom v (without copies (Link.renumber σ ⟨s.caller, outer⟩)) supplier outer
      else none := by
  rw [← e.supplier?_eq hs]
  exact originFrom_outer ((e.originStep_eq hs param).trans hstep)

theorem originFrom_eq (e : Inclusion g h σ) (pool : List Link) (s : SiteId) (param : String) {copies : List Link}
    (hagree : Embedding.Agree g σ pool copies) (hs : g.Holds s.caller) :
    h.originFrom v copies (s.renumber σ) param = g.originFrom v pool s param := by
  induction pool, s, param using originFrom.induct g v generalizing copies with
  | case1 pool s param origin hstep => rw [originFrom, originFrom, e.originStep_eq hs, hstep]
  | case2 pool s param hstep => rw [originFrom, originFrom, e.originStep_eq hs, hstep]
  | case3 pool s param outer hstep hpool supplier hsupplier ih =>
    rw [e.originFrom_renumber_outer hs hstep, originFrom_outer hstep, if_pos ((hagree _ hs).2 hpool), if_pos hpool, hsupplier]
    exact ih (e.agree_without hagree hs) (e.holds_of_incoming (List.mem_of_find?_eq_some hsupplier))
  | case4 pool s param outer hstep hpool hsupplier =>
    rw [e.originFrom_renumber_outer hs hstep, originFrom_outer hstep, hsupplier]
    simp
  | case5 pool s param outer hstep hpool =>
    rw [e.originFrom_renumber_outer hs hstep, originFrom_outer hstep, if_neg (mt (hagree _ hs).1 hpool), if_neg hpool]

theorem originOf_eq (e : Inclusion g h σ) (hc : c ∈ g.chains) : h.originOf v (c.renumber σ) = g.originOf v c := by
  obtain ⟨l, -, hentry, -⟩ := exists_of_mem_chains hc
  obtain ⟨⟨links, terminal⟩, entry⟩ := c
  cases entry with
  | root => rfl
  | site s =>
    cases links with
    | nil => rfl
    | cons head rest =>
      exact e.originFrom_eq g.links s head.param e.agree_links (e.holds_of_incoming (entryPoint?_eq_some_site hentry))

/-- The links of a chain, and where it ends, are held. -/
theorem holds_of_mem_chain (e : Inclusion g h σ) (hc : c ∈ g.chains) :
    ∀ k ∈ c.links ++ [c.terminal.link], g.Holds k.node := by
  obtain ⟨l, hl, -, hwalk⟩ := exists_of_mem_chains hc
  intro k hk
  have hrun := (walkFrom_run e.source (l :: g.links) l).1
  rw [show g.walkFrom (l :: g.links) l = c.toWalk from hwalk.symm] at hrun
  rcases List.mem_cons.1 (hrun.mem_pool e.source k hk) with rfl | hk
  · obtain ⟨p, hp⟩ := param?_isSome_of_mem_reactiveLinks hl
    exact holds_of_param? hp
  · exact holds_of_mem_links hk

theorem path_eq (e : Inclusion g h σ) (hc : c ∈ g.chains) : (c.renumber σ).path h = c.path g := by
  have hlink : (c.renumber σ).terminal.link = c.terminal.link.renumber σ := by
    obtain ⟨⟨links, terminal⟩, entry⟩ := c
    cases terminal <;> rfl
  have hlinks : (c.renumber σ).links ++ [(c.renumber σ).terminal.link] =
      (c.links ++ [c.terminal.link]).map (Link.renumber σ) := by
    rw [hlink, List.map_append]
    rfl
  rw [Chain.path, Chain.path, hlinks, List.map_map]
  refine List.map_congr_left fun l hl => ?_
  have hnode : h.node? (σ l.node) = g.node? l.node := e.same (e.holds_of_mem_chain hc l hl)
  simp only [Function.comp_apply, Link.renumber, nameOf, hnode]

end Inclusion

/-- No site of a function that is no copy reaches a copy. -/
theorem Embedding.filter_sitesOf_eq_nil {g h : Graph} {σ : NodeId → NodeId} (e : Embedding g h σ) {n i : NodeId} {copy : Node}
    (hn : g.Holds n) (hcopy : h.node? (σ n) = some copy) (hi : ∀ j, g.Holds j → σ j ≠ i) :
    (h.sitesOf i).filter (·.target == some copy.id) = [] := by
  rw [List.filter_eq_nil_iff]
  intro site hsite htarget
  obtain ⟨index, hindex⟩ := List.mem_iff_getElem?.1 hsite
  have hs : h.site? ⟨i, index⟩ = some site := hindex
  have hcallee := e.target.callee?_eq_some_iff.2 ⟨site, copy, hs, hcopy, by simpa using htarget⟩
  obtain ⟨j, hj, hcaller⟩ := e.caller hn hcallee
  exact hi j hj hcaller

/-- Where the copies stand in a row, the sites that reach a copy keep their order. -/
theorem Embedding.incomingOf_shift {g h : Graph} {k rest : Nat} (e : Embedding g h (k + ·))
    (hlen : h.nodes.length = k + g.nodes.length + rest) {n : NodeId} (hn : g.Holds n) :
    h.incomingOf (k + n) = (g.incomingOf n).map (SiteId.renumber (k + ·)) := by
  obtain ⟨node, hnode⟩ := hn
  obtain ⟨copy, hcopy, halike⟩ := e.node hnode
  have hother : ∀ i : Nat, (∀ j : Nat, g.Holds j → k + j ≠ i) → (h.sitesOf i).filter (·.target == some copy.id) = [] :=
    fun _ => e.filter_sitesOf_eq_nil ⟨node, hnode⟩ hcopy
  have hcopies := Embedding.flatMap_copies fun _ => e.sitesOf_eq
  rw [← e.source.flatten_sites] at hcopies
  have hbefore : (List.range k).flatMap (fun i => (h.sitesOf i).filter (·.target == some copy.id)) = [] := by
    refine List.flatMap_eq_nil_iff.2 fun i hi => hother i fun j _ => ?_
    have := List.mem_range.1 hi
    omega
  have hafter : ((List.range rest).map (k + g.nodes.length + ·)).flatMap
      (fun i => (h.sitesOf i).filter (·.target == some copy.id)) = [] := by
    refine List.flatMap_eq_nil_iff.2 fun i hi => hother i fun j hj => ?_
    obtain ⟨m, -, rfl⟩ := List.mem_map.1 hi
    have hlt := holds_iff.1 hj
    omega
  rw [e.target.incomingOf_eq hcopy, e.source.incomingOf_eq hnode, e.target.flatten_sites, hlen, List.range_add,
    List.range_add, List.flatMap_append, List.flatMap_append, hcopies, List.filter_append, List.filter_append,
    List.filter_flatMap, List.filter_flatMap, hbefore, hafter, List.nil_append, List.append_nil, List.filter_map,
    List.map_map, List.map_map, halike.id]
  rfl

/-- No function of the first list calls one of the second. -/
def NeverCalls (callers callees : List Node) : Prop :=
  ∀ caller ∈ callers, ∀ call ∈ caller.decl.renderCalls, ∀ callee ∈ callees, call.target ≠ .resolved callee.id

/-- A graph is included where its functions stand in a row, with none around them that they call or that calls them. -/
theorem inclusion_of_append {g h : Graph} (before after : List Node) (hg : g.Lawful) (hh : h.Lawful)
    (hnodes : h.nodes = before ++ g.nodes ++ after) (hout : NeverCalls g.nodes (before ++ after))
    (hin : NeverCalls (before ++ after) g.nodes) : Inclusion g h (before.length + ·) := by
  have hsame : ∀ {n}, g.Holds n → h.node? (before.length + n) = g.node? n := by
    intro n hn
    have hlt := holds_iff.1 hn
    rw [node?, hnodes, List.append_assoc, List.getElem?_append_right (by omega), Nat.add_sub_cancel_left,
      List.getElem?_append_left hlt]
    rfl
  have hsplit : ∀ node ∈ h.nodes, node ∈ g.nodes ∨ node ∈ before ++ after := by
    intro node hnode
    simp only [hnodes, List.mem_append] at hnode ⊢
    tauto
  have e : Embedding g h (before.length + ·) := by
    refine ⟨hg, hh, ?_, ?_, ?_⟩
    · intro i node hi
      exact ⟨node, (hsame ⟨node, hi⟩).trans hi, ⟨rfl, rfl, rfl⟩⟩
    · intro i node call f hi hcall htarget hf
      obtain ⟨callee, hfound⟩ := Option.isSome_iff_exists.1 hf
      obtain ⟨j, hj, rfl⟩ := hh.find?_eq_some_iff.1 hfound
      have hmem := hsplit callee (List.mem_of_getElem? hj)
      rcases hmem with hmem | hmem
      · obtain ⟨m, hm⟩ := List.mem_iff_getElem?.1 hmem
        simp [hg.find?_eq_some_iff.2 ⟨m, hm, rfl⟩]
      · exact absurd htarget (hout node (List.mem_of_getElem? hi) call hcall callee hmem)
    · rintro s n ⟨node, hn⟩ hs
      obtain ⟨site, callee, hsite, hcallee, htarget⟩ := hh.callee?_eq_some_iff.1 hs
      obtain ⟨caller, call, hcaller, hcall, rfl⟩ := hh.site?_eq_some_iff.1 hsite
      rw [hsame ⟨node, hn⟩, hn] at hcallee
      obtain rfl := Option.some.inj hcallee
      have hrender := List.mem_of_mem_filter (List.mem_of_getElem? hcall)
      have hcall : call.target = .resolved node.id := CallSite.of_target htarget
      rcases hsplit caller (List.mem_of_getElem? hcaller) with hmem | hmem
      · obtain ⟨i, hi⟩ := List.mem_iff_getElem?.1 hmem
        exact ⟨i, ⟨caller, hi⟩, hh.node_unique ((hsame ⟨caller, hi⟩).trans hi) hcaller rfl⟩
      · exact absurd hcall (hin caller hmem call hrender node (List.mem_of_getElem? hn))
  have hlen : h.nodes.length = before.length + g.nodes.length + after.length := by
    simp [hnodes, Nat.add_assoc]
  exact ⟨e, hsame, e.incomingOf_shift hlen⟩

end Graph
end PassThrough

import PassThrough.Proofs.Relay
import PassThrough.Proofs.Scope

/-! What becomes of a value, told from the bodies of the functions. Forwards, reads and distribution points of a graph stand
for calls and references in the text: a forward for a call outside callbacks that takes the bare name of a parameter where
nothing binds it, a read for a visible reference that is no argument of a call site. -/

namespace PassThrough

/-- Outside callbacks the body calls the function with the given id and parameters, and passes it the bare name, which
nothing around the call binds, for the parameter `param`. -/
def FunctionDecl.Passes (f : FunctionDecl) (name : String) (callee : FunctionId) (params : List String) (param : String) :
    Prop :=
  ∃ position text receiver args location around, ∃ index : Nat, ∃ a : Argument Expr, ∃ bindings,
    f.placeAt? position = some ⟨.expr (.call text (.resolved callee) receiver args location), around⟩ ∧ Rendered around ∧
      (∀ frame ∈ around, frame.hides name = false) ∧ args[index]? = some a ∧ a.value.ident? = some name ∧
      bindArgs params args = .ok bindings ∧ bindings[index]?.map Binding.param = some param

namespace Graph
variable {g : Graph} {a b l : Link} {n : NodeId} {start stop : Link} {run : List Link}

/-- The function of the first link passes its parameter to that of the second, which accepts its kind. -/
def HandsOver (g : Graph) (a b : Link) : Prop :=
  ∃ caller callee p q, g.node? a.node = some caller ∧ g.node? b.node = some callee ∧ caller.param? a.param = some p ∧
    callee.param? b.param = some q ∧ p.kind.assignableTo q.kind = true ∧
    caller.decl.Passes a.param callee.id callee.paramNames b.param

/-- The occurrence is directly an argument at a call site of the function. -/
def IsArgument (g : Graph) (n : NodeId) (o : Occurrence) : Prop :=
  ∃ site ∈ g.sitesOf n, ∃ index outer, o.around = .argument site.position index :: outer

/-- The function refers to its parameter otherwise than as an argument at a call site. -/
def ReadsAt (g : Graph) (l : Link) : Prop :=
  ∃ node p, g.node? l.node = some node ∧ node.param? l.param = some p ∧
    ∃ o ∈ node.decl.visible l.param, ¬ g.IsArgument l.node o

/-- The parameter is not read, but handed over to two functions or more. -/
def Distributes (g : Graph) (l : Link) : Prop :=
  ¬ g.ReadsAt l ∧ ∃ b c, g.HandsOver l b ∧ g.HandsOver l c ∧ b.node ≠ c.node

/-- The value is read at the link, or it is distributed there and read somewhere below. -/
def ReadFrom (g : Graph) (l : Link) : Prop :=
  g.ReadsAt l ∨ g.Distributes l ∧ ∃ r, Relation.ReflTransGen g.HandsOver l r ∧ g.ReadsAt r

/-- A forward stands at a site of the function, where the parameter's bare name is bound to the parameter that it leads to
and nothing binds the name. -/
theorem Lawful.argument_of_mem_forwards (h : g.Lawful) {f : Forward} (hf : f ∈ (g.usageOf l).forwards) :
    ∃ node site index binding, g.node? l.node = some node ∧ g.site? f.site = some site ∧ f.site.caller = l.node ∧
      node.decl.TakesName site.position index l.param ∧ node.decl.binderAt site.position l.param = none ∧
      site.target.isSome = true ∧ site.bindings[index]? = some binding ∧ binding.param = f.param ∧
      binding.value.ident? = some l.param := by
  cases hp : g.param? l with
  | none => simp [usageOf_eq_unused hp] at hf
  | some p =>
    obtain ⟨node, hn, hp'⟩ := param?_eq_some_iff.1 hp
    rw [h.usageOf_eq hn hp', h.ofUses_forwards hn, List.mem_filterMap] at hf
    obtain ⟨o, ho, hf⟩ := hf
    obtain ⟨⟨site, index⟩, hs, hf⟩ := Option.bind_eq_some_iff.1 hf
    obtain ⟨callee, ht, hf⟩ := Option.bind_eq_some_iff.1 hf
    obtain ⟨param, hparam, hf⟩ := Option.bind_eq_some_iff.1 hf
    obtain ⟨q, -, hf⟩ := Option.bind_eq_some_iff.1 hf
    obtain ⟨-, heq⟩ := Option.ite_none_right_eq_some.1 hf
    obtain rfl := Option.some.inj heq
    obtain ⟨-, hsite, hcaller, hbound⟩ := h.siteAround?_eq_some hn (List.mem_of_mem_filter ho) hs
    obtain ⟨binding, hb, hident⟩ := hbound callee ht
    have hvisible : (site, index) ∈ g.visibleArguments l.node node.decl l.param := List.mem_filterMap.2 ⟨o, ho, hs⟩
    obtain ⟨-, htakes, hbinder⟩ := (h.mem_visibleArguments hn).1 hvisible
    have hname : o.name = l.param := by simpa using (List.mem_filter.1 (List.mem_of_mem_filter ho)).2
    have hbindingParam : binding.param = param := by simpa [CallSite.paramOf?, hb] using hparam
    exact ⟨node, site, index, binding, hn, hsite, hcaller, htakes, hbinder, by simp [ht], hb, hbindingParam, hname ▸ hident⟩

private theorem isArgument_iff (g : Graph) (n : NodeId) (o : Occurrence) :
    g.IsArgument n o ↔ (g.siteAround? n o.around).isSome = true := by
  constructor
  · rintro ⟨site, hs, index, outer, haround⟩
    rw [haround, siteAround?, Option.isSome_map, List.find?_isSome]
    exact ⟨site, hs, by simp⟩
  · intro hsome
    obtain ⟨⟨site, index⟩, hs⟩ := Option.isSome_iff_exists.1 hsome
    obtain ⟨hmem, outer, haround⟩ := mem_of_siteAround? hs
    exact ⟨site, hmem, index, outer, haround⟩

theorem Lawful.readsAt_iff (h : g.Lawful) : g.ReadsAt l ↔ (g.usageOf l).isConsumed = true := by
  have hread : ∀ {node p}, g.node? l.node = some node → node.param? l.param = some p →
      ((g.usageOf l).isConsumed = true ↔ ∃ o ∈ node.decl.visible l.param, ¬ g.IsArgument l.node o) := by
    intro node p hn hp
    rw [Usage.isConsumed_iff, h.usageOf_eq hn hp, Usage.ofUses_consumed_iff, h.read_mem_uses_iff hn]
    simp [isArgument_iff]
  constructor
  · rintro ⟨node, p, hn, hp, ho⟩
    exact (hread hn hp).2 ho
  · intro hc
    cases hp : g.param? l with
    | none =>
      rw [usageOf_eq_unused hp] at hc
      cases hc
    | some p =>
      obtain ⟨node, hn, hp'⟩ := param?_eq_some_iff.1 hp
      exact ⟨node, p, hn, hp', (hread hn hp').1 hc⟩

/-- A relay does nothing with its parameter but pass it at call sites. -/
theorem Lawful.isArgument_of_relay (h : g.Lawful) (hr : g.Relay l) {node : Node} {p : Parameter}
    (hn : g.node? l.node = some node) (hp : node.param? l.param = some p) :
    ∀ o ∈ node.decl.visible l.param, g.IsArgument l.node o := by
  intro o ho
  by_contra hno
  have hread := h.readsAt_iff.1 ⟨node, p, hn, hp, o, ho, hno⟩
  simp [hr.not_consumed] at hread

/-- The argument of a forward stands in a call of the body. -/
theorem Lawful.passes_of_mem_forwards (h : g.Lawful) {f : Forward} (hf : f ∈ (g.usageOf l).forwards) {caller callee : Node}
    (hn : g.node? l.node = some caller) (hcallee : g.callee? f.site = some n) (hm : g.node? n = some callee) :
    caller.decl.Passes l.param callee.id callee.paramNames f.param := by
  obtain ⟨node, site, index, binding, hn', hs, hcaller, htakes, hbinder, -, hb, hparam, -⟩ := h.argument_of_mem_forwards hf
  obtain rfl : caller = node := Option.some.inj (hn.symm.trans hn')
  obtain ⟨site', callee', hs', hm', ht⟩ := h.callee?_eq_some_iff.1 hcallee
  obtain rfl : site = site' := Option.some.inj (hs.symm.trans hs')
  obtain rfl : callee = callee' := Option.some.inj (hm.symm.trans hm')
  -- the site is a call of the body, and the name is taken as an argument of that call
  obtain ⟨node, call, hn'', hcall, rfl⟩ := h.site?_eq_some_iff.1 hs
  rw [hcaller] at hn''
  obtain rfl : caller = node := Option.some.inj (hn.symm.trans hn'')
  obtain ⟨receiver, around, hplace, hrendered⟩ :=
    caller.decl.renderCalls_placeAt? (List.mem_of_mem_filter (List.mem_of_getElem? hcall))
  obtain ⟨_, _, _, args, _, _, arg, hplace', harg, hident⟩ := htakes
  obtain rfl : call.args = args := by
    have heq := Option.some.inj (hplace.symm.trans hplace')
    simp only [Place.mk.injEq, Focus.expr.injEq, Expr.call.injEq] at heq
    exact heq.1.2.2.2.1
  have hfree : ∀ frame ∈ around, frame.hides l.param = false := by
    rw [← Scope.innermost?_eq_none_iff, ← caller.decl.binderAt_eq_innermost? hplace]
    exact hbinder
  obtain ⟨m, found, hfound, hid, hbind⟩ := h.target_eq_some ht
  obtain rfl := h.node_unique hfound hm hid
  obtain rfl : callee = found := Option.some.inj (hm.symm.trans hfound)
  rw [CallSite.of_target ht] at hplace
  refine ⟨_, _, receiver, _, _, around, index, arg, _, hplace, hrendered, hfree, harg, hident, hbind, ?_⟩
  rw [hb, Option.map_some, hparam]

/-- Forwards of the graph are handovers of the text. -/
theorem Lawful.handsOver_of_feeds (h : g.Lawful) (hab : g.Feeds a b) : g.HandsOver a b := by
  obtain ⟨f, hf, hnext⟩ := List.mem_filterMap.1 hab
  obtain ⟨p, next, q, hp, hnext', hq, hkind, -⟩ := h.next?_of_mem_forwards hf
  obtain rfl : next = b := Option.some.inj (hnext'.symm.trans hnext)
  obtain ⟨caller, hn, hp⟩ := param?_eq_some_iff.1 hp
  obtain ⟨callee, hm, hq⟩ := param?_eq_some_iff.1 hq
  obtain ⟨m, hcallee, rfl⟩ := Option.map_eq_some_iff.1 hnext
  exact ⟨caller, callee, p, q, hn, hm, hp, hq, hkind, h.passes_of_mem_forwards hf hn hcallee hm⟩

theorem Lawful.feeds_of_successor (h : g.Lawful) (hs : g.successor? a = some b) : g.Feeds a b := by
  obtain ⟨f, hf, hnext⟩ := Option.bind_eq_some_iff.1 hs
  exact List.mem_filterMap.2 ⟨f, h.forward?_mem hf, hnext⟩

/-- The value is handed over from each relay of a run to the next, and from the last one to where the run stops. -/
theorem RelayRun.isChain_handsOver (hg : g.Lawful) (h : g.RelayRun start run stop) :
    (run ++ [stop]).IsChain g.HandsOver ∧ (run ++ [stop]).head? = some start := by
  obtain ⟨hchain, hhead⟩ := h.isChain
  exact ⟨hchain.imp fun _ _ hs => hg.handsOver_of_feeds (hg.feeds_of_successor hs), hhead⟩

/-- The target of a forward is handed the value. -/
theorem Lawful.handsOver_of_target (h : g.Lawful) {f : Forward} (hf : f ∈ (g.usageOf l).forwards) {id : FunctionId}
    (htarget : (g.site? f.site).bind CallSite.target = some id) :
    ∃ b node, g.HandsOver l b ∧ g.node? b.node = some node ∧ node.id = id := by
  obtain ⟨_, next, _, -, hnext, -⟩ := h.next?_of_mem_forwards hf
  obtain ⟨m, hcallee, rfl⟩ := Option.map_eq_some_iff.1 hnext
  obtain ⟨site, callee, hs, hm, ht⟩ := h.callee?_eq_some_iff.1 hcallee
  refine ⟨⟨m, f.param⟩, callee, h.handsOver_of_feeds (List.mem_filterMap.2 ⟨f, hf, hnext⟩), hm, ?_⟩
  rw [hs, Option.bind_some, ht] at htarget
  exact Option.some.inj htarget

private theorem Lawful.distributes_of_isDistribution (h : g.Lawful) (hd : (g.usageOf l).isDistribution = true) :
    g.Distributes l := by
  obtain ⟨hforwarded, hfan⟩ : (g.usageOf l).isForwarded = true ∧ 1 < (g.usageOf l).fanOut := by
    simpa [Usage.isDistribution] using hd
  constructor
  · rw [h.readsAt_iff, Usage.isConsumed_iff]
    intro hc
    simp [Usage.isForwarded, Usage.forward?, hc] at hforwarded
  · cases hp : g.param? l with
    | none => simp [usageOf_eq_unused hp] at hfan
    | some p =>
      obtain ⟨node, hn, hp'⟩ := param?_eq_some_iff.1 hp
      have hcard : 1 < ((g.usageOf l).forwards.filterMap fun f => (g.site? f.site).bind CallSite.target).toFinset.card := by
        rw [← length_reached]
        rw [h.usageOf_eq hn hp'] at hfan ⊢
        exact hfan
      obtain ⟨c, hc, d, hd, hne⟩ := Finset.one_lt_card.1 hcard
      obtain ⟨f, hf, hc⟩ := List.mem_filterMap.1 (List.mem_toFinset.1 hc)
      obtain ⟨f', hf', hd⟩ := List.mem_filterMap.1 (List.mem_toFinset.1 hd)
      obtain ⟨b, nb, hb, hnb, rfl⟩ := h.handsOver_of_target hf hc
      obtain ⟨b', nb', hb', hnb', rfl⟩ := h.handsOver_of_target hf' hd
      refine ⟨b, b', hb, hb', fun heq => hne ?_⟩
      rw [heq] at hnb
      rw [Option.some.inj (hnb.symm.trans hnb')]

theorem Lawful.readFrom_of_neededAt (h : g.Lawful) (hl : g.NeededAt l) : g.ReadFrom l := by
  rcases hl with hc | ⟨hd, r, hreach, hr⟩
  · exact .inl (h.readsAt_iff.2 hc)
  · have hhanded : Relation.ReflTransGen g.HandsOver l r :=
      Relation.ReflTransGen.mono (fun _ _ => h.handsOver_of_feeds) l r hreach
    exact .inr ⟨h.distributes_of_isDistribution hd, r, hhanded, h.readsAt_iff.2 hr⟩

end Graph
end PassThrough

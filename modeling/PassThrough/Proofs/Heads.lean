import PassThrough.Proofs.Handover

/-! Where chains start. A relay starts one unless every site that supplies it does so along the chain of its caller, and the
comparison of names by which tracking tells this agrees with lexical scope: the forward of the caller stands at that very
site, so nothing binds the name there. -/

namespace PassThrough

/-- With parameters bound once, the argument of a parameter is the one that is bound to it. -/
theorem CallSite.argument?_eq {site : CallSite} (h : (site.bindings.map Binding.param).Nodup) {index : Nat}
    {binding : Binding} (hb : site.bindings[index]? = some binding) :
    site.argument? binding.param = some binding.value := by
  cases hf : site.bindings.find? (·.param == binding.param) with
  | none => simpa using List.find?_eq_none.1 hf binding (List.mem_of_getElem? hb)
  | some found =>
    have hparam : found.param = binding.param := by simpa using List.find?_some hf
    have heq := List.inj_on_of_nodup_map h (List.mem_of_find?_eq_some hf) (List.mem_of_getElem? hb) hparam
    rw [argument?, hf, heq, Option.map_some]

namespace Graph
variable {g : Graph} {l : Link} {s : SiteId} {site : CallSite} {param : String}

private theorem Lawful.bindings_nodup (h : g.Lawful) (hs : g.site? s = some site) {f : FunctionId}
    (ht : site.target = some f) : (site.bindings.map Binding.param).Nodup := by
  obtain ⟨-, call, -, -, rfl⟩ := h.site?_eq_some_iff.1 hs
  obtain ⟨-, callee, -, -, hb⟩ := h.target_eq_some ht
  exact (bindArgsFrom_nodup _ _ _ _ hb).1

/-- The argument bound to `param` at a site denotes the reactive parameter `name` of the caller: it is the bare name, and
nothing around the call binds the name. -/
def Denotes (g : Graph) (s : SiteId) (param name : String) : Prop :=
  ∃ caller site argument p, g.node? s.caller = some caller ∧ g.site? s = some site ∧
    site.argument? param = some argument ∧ argument.ident? = some name ∧
    caller.decl.binderAt site.position name = none ∧ caller.param? name = some p ∧ p.kind.isReactive = true

/-- The site supplies `param` along the chain of its caller: the argument denotes a relay of the caller, whose first forward
is the one made there. -/
def RelayEdge (g : Graph) (s : SiteId) (param : String) : Prop :=
  ∃ name, g.Denotes s param name ∧ g.Relay ⟨s.caller, name⟩ ∧ (g.usageOf ⟨s.caller, name⟩).forward? = some ⟨s, param⟩

/-- The site binds an argument to the parameter. -/
def Supplies (g : Graph) (s : SiteId) (param : String) : Prop := (g.argument? s param).isSome = true

/-- The entry of a chain that starts at a parameter: the first of the sites that supply it otherwise than along the chain
of their caller, or the root if no site supplies it. -/
def EnteredAt (g : Graph) (l : Link) : Entry → Prop
  | .root => ∀ s ∈ g.incomingOf l.node, ¬ g.Supplies s l.param
  | .site s => ∃ earlier later, g.incomingOf l.node = earlier ++ s :: later ∧ g.Supplies s l.param ∧
      ¬ g.RelayEdge s l.param ∧ ∀ s' ∈ earlier, g.Supplies s' l.param → g.RelayEdge s' l.param

/-- Comparing names is enough: where the forward of the caller is the one made at the site, the name denotes the
parameter. -/
theorem Lawful.isRelayedAt_iff (h : g.Lawful) {argument : Expr} (harg : g.argument? s param = some argument) :
    g.isRelayedAt s argument param = true ↔ g.RelayEdge s param := by
  obtain ⟨site, hs, harg'⟩ := Option.bind_eq_some_iff.1 harg
  rw [isRelayedAt_eq]
  constructor
  · intro hrel
    obtain ⟨name, hname, hr, hf⟩ := isRelayedAt_eq_true (isRelayedAt_eq g s argument param ▸ hrel)
    obtain ⟨node, site', _, _, hn, hs', -, -, hbinder, -⟩ := h.argument_of_mem_forwards (h.forward?_mem hf)
    obtain rfl : site = site' := Option.some.inj (hs.symm.trans hs')
    simp only [hname, Option.any_some, Option.any_map, Option.any_eq_true, Bool.and_eq_true] at hrel
    obtain ⟨p, hp, hkind, -⟩ := hrel
    obtain ⟨node', hn', hp'⟩ := param?_eq_some_iff.1 hp
    obtain rfl : node = node' := Option.some.inj (hn.symm.trans hn')
    exact ⟨name, ⟨node, site, argument, p, hn, hs, harg', hname, hbinder, hp', hkind⟩, hr, hf⟩
  · rintro ⟨name, ⟨node, site', argument', p, hn, hs', harg'', hname, -, hp, hkind⟩, hr, hf⟩
    obtain rfl : site = site' := Option.some.inj (hs.symm.trans hs')
    obtain rfl : argument = argument' := Option.some.inj (harg'.symm.trans harg'')
    have hp' : g.param? ⟨s.caller, name⟩ = some p := param?_eq_some_iff.2 ⟨node, hn, hp⟩
    simp [hname, hp', hkind, hf, (relay_iff.1 hr).2]

theorem Lawful.suppliesAfresh_iff (h : g.Lawful) :
    g.suppliesAfresh param s = true ↔ g.Supplies s param ∧ ¬ g.RelayEdge s param := by
  rw [suppliesAfresh, Supplies]
  cases harg : g.argument? s param with
  | none => simp
  | some argument => simp [← h.isRelayedAt_iff harg]

theorem Lawful.suppliesAfresh_eq_false_iff (h : g.Lawful) :
    g.suppliesAfresh param s = false ↔ (g.Supplies s param → g.RelayEdge s param) := by
  rw [← Bool.not_eq_true, h.suppliesAfresh_iff, not_and_not_right]

theorem Lawful.enteredAt_site_iff (h : g.Lawful) :
    g.EnteredAt l (.site s) ↔ (g.incomingOf l.node).find? (g.suppliesAfresh l.param) = some s := by
  rw [List.find?_eq_some_iff_append, EnteredAt, h.suppliesAfresh_iff]
  constructor
  · rintro ⟨earlier, later, hsplit, hs, hedge, hearlier⟩
    refine ⟨⟨hs, hedge⟩, earlier, later, hsplit, fun s' hs' => ?_⟩
    rw [h.suppliesAfresh_eq_false_iff.2 (hearlier s' hs'), Bool.not_false]
  · rintro ⟨⟨hs, hedge⟩, earlier, later, hsplit, hearlier⟩
    refine ⟨earlier, later, hsplit, hs, hedge, fun s' hs' => ?_⟩
    exact h.suppliesAfresh_eq_false_iff.1 (by simpa using hearlier s' hs')

/-- Tracking finds the entry of a chain. -/
theorem Lawful.entryPoint?_eq_some_iff (h : g.Lawful) {entry : Entry} :
    g.entryPoint? l = some entry ↔ g.EnteredAt l entry := by
  rw [entryPoint?, entryOf, entryFrom_eq, Bool.false_or]
  cases entry with
  | root =>
    have hroot : g.EnteredAt l .root ↔ ((g.incomingOf l.node).any fun s => (g.argument? s l.param).isSome) = false := by
      simp [EnteredAt, Supplies]
    rw [hroot]
    cases hf : (g.incomingOf l.node).find? (g.suppliesAfresh l.param) with
    | some s =>
      have hs := (h.suppliesAfresh_iff.1 (List.find?_some hf)).1
      have hany : ((g.incomingOf l.node).any fun s => (g.argument? s l.param).isSome) = true :=
        List.any_eq_true.2 ⟨s, List.mem_of_find?_eq_some hf, hs⟩
      simp [hany]
    | none => simp
  | site s =>
    rw [h.enteredAt_site_iff]
    cases hf : (g.incomingOf l.node).find? (g.suppliesAfresh l.param) with
    | some s => simp
    | none =>
      dsimp only
      split <;> simp

/-- No site supplies the parameter, or some site supplies it otherwise than along the chain of its caller. -/
def HasEntry (g : Graph) (l : Link) : Prop :=
  (∀ s ∈ g.incomingOf l.node, ¬ g.Supplies s l.param) ∨
    ∃ s ∈ g.incomingOf l.node, g.Supplies s l.param ∧ ¬ g.RelayEdge s l.param

private theorem Lawful.isSome_entryPoint?_iff (h : g.Lawful) : (g.entryPoint? l).isSome = true ↔ g.HasEntry l := by
  rw [← Option.ne_none_iff_isSome, ne_eq, entryPoint?_eq_none_iff, HasEntry]
  constructor
  · intro hsome
    by_cases hsupplied : ∃ s ∈ g.incomingOf l.node, g.Supplies s l.param
    · have hafresh : ¬ ∀ s ∈ g.incomingOf l.node, g.suppliesAfresh l.param s = false := fun hall => hsome ⟨hsupplied, hall⟩
      push Not at hafresh
      obtain ⟨s, hs, hafresh⟩ := hafresh
      exact .inr ⟨s, hs, h.suppliesAfresh_iff.1 (by simpa using hafresh)⟩
    · exact .inl fun s hs hsup => hsupplied ⟨s, hs, hsup⟩
  · rintro (hnone | ⟨s, hs, hsup, hedge⟩) ⟨⟨s', hs', hsup'⟩, hall⟩
    · exact hnone s' hs' hsup'
    · exact hedge (h.suppliesAfresh_eq_false_iff.1 (hall s hs) hsup)

theorem Lawful.isSome_chain?_iff (h : g.Lawful) : (g.chain? l).isSome = true ↔ g.Relay l ∧ g.HasEntry l := by
  rw [← h.isSome_entryPoint?_iff, relay_iff, chain?]
  cases (g.usageOf l).isForwarded <;> cases (g.usageOf l).isDistribution <;> simp

/-- A chain starts at its relay and follows successors from there. -/
theorem Lawful.chain?_eq_some (h : g.Lawful) {c : Chain} (hc : g.chain? l = some c) :
    c.links.head? = some l ∧ g.RelayRun l c.links c.terminal.link ∧ g.EnteredAt l c.entry := by
  have hr := (h.isSome_chain?_iff.1 (by rw [hc, Option.isSome_some])).1
  obtain ⟨-, next, -, hs, -⟩ := h.relay_declared hr
  simp only [chain?, Option.ite_none_left_eq_some, Option.map_eq_some_iff] at hc
  obtain ⟨-, entry, hentry, rfl⟩ := hc
  have hrun := (walkFrom_run h (l :: g.links) l).1
  refine ⟨?_, hrun, h.entryPoint?_eq_some_iff.1 hentry⟩
  rw [walk, walkFrom_of_relay List.mem_cons_self hr hs, List.head?_cons]

/-- What a distribution point forwards to is supplied there otherwise than along a chain. -/
theorem Lawful.hasEntry_of_distribution (h : g.Lawful) {d : Link} {f : Forward}
    (hd : (g.usageOf d).isDistribution = true) (hf : f ∈ (g.usageOf d).forwards) (hnext : g.next? f = some l) :
    g.HasEntry l := by
  obtain ⟨node, site, index, binding, hn, hs, hcaller, -, -, ht, hb, hparam, hident⟩ := h.argument_of_mem_forwards hf
  obtain ⟨callee, ht⟩ := Option.isSome_iff_exists.1 ht
  obtain ⟨n, hcallee, rfl⟩ := Option.map_eq_some_iff.1 hnext
  have harg : site.argument? f.param = some binding.value := hparam ▸ CallSite.argument?_eq (h.bindings_nodup hs ht) hb
  refine .inr ⟨f.site, h.mem_incomingOf.2 hcallee, ?_, ?_⟩
  · simp [Supplies, argument?, hs, harg]
  · rintro ⟨name, ⟨_, site', argument, -, -, hs', harg', hname, -⟩, hr, -⟩
    -- the argument bound there is the parameter that is distributed, so that this would be a relay
    obtain rfl : site = site' := Option.some.inj (hs.symm.trans hs')
    obtain rfl : binding.value = argument := Option.some.inj (harg.symm.trans harg')
    obtain rfl : d.param = name := Option.some.inj (hident.symm.trans hname)
    rw [hcaller, relay_iff] at hr
    simp [hd] at hr

/-- Tracking returns one chain for each declared reactive parameter that is a relay and has an entry, by function and then in
declaration order; the chain starts there and is entered at the first site that supplies the parameter otherwise than along
the chain of its caller. So every relay to which a distribution point forwards starts a chain. -/
theorem track_starts_at_entered_relays (v : Vocabulary) (marker : String) (files : List SourceFile) :
    let built := build v marker files
    let g := built.1
    let chains := ((g.track g.memoUsage).run { errors := built.2 }).1
    (∃ chainOf : Link → Option Chain, chains = g.reactiveLinks.filterMap chainOf ∧
      ∀ l, ((chainOf l).isSome = true ↔ g.Relay l ∧ g.HasEntry l) ∧
        ∀ c, chainOf l = some c →
          c.links.head? = some l ∧ g.RelayRun l c.links c.terminal.link ∧ g.EnteredAt l c.entry) ∧
      ∀ d f l, (g.usageOf d).isDistribution = true → f ∈ (g.usageOf d).forwards → g.next? f = some l → g.Relay l →
        ∃ c ∈ chains, c.links.head? = some l := by
  intro built g chains
  have h : g.Lawful := build_lawful v marker files
  have hchains : chains = g.reactiveLinks.filterMap g.chain? := (h.track_run built.2).1
  refine ⟨⟨g.chain?, hchains, fun l => ⟨h.isSome_chain?_iff, fun c hc => h.chain?_eq_some hc⟩⟩, ?_⟩
  intro d f l hd hf hnext hr
  obtain ⟨c, hc⟩ := Option.isSome_iff_exists.1 (h.isSome_chain?_iff.2 ⟨hr, h.hasEntry_of_distribution hd hf hnext⟩)
  refine ⟨c, ?_, (h.chain?_eq_some hc).1⟩
  rw [hchains]
  exact List.mem_filterMap.2 ⟨l, (h.relay_declared hr).1, hc⟩

end Graph

/-- A screen that hands its state on to a panel and to the label below the panel. -/
def Sample.spreading : List SourceFile :=
  let label := reader "Label"
  let panel := relay "Panel" label
  let pass (next : FunctionDecl) : Stmt := .expr (.callTo next.toFunctionHeader [.positional (.name "count")])
  [⟨"a.kt", [declare "Screen" [pass panel, pass label], panel, label]⟩]

theorem Graph.track_starts_at_spread_panel :
    let built := build {} "Composable" Sample.spreading
    let g := built.1
    (g.usageOf ⟨0, "count"⟩).isDistribution = true ∧ g.Relay ⟨1, "count"⟩ ∧
      ∃ c ∈ ((g.track g.memoUsage).run { errors := built.2 }).1, c.links.head? = some ⟨1, "count"⟩ := by
  intro built g
  have hscreen : (g.usageOf ⟨0, "count"⟩).isDistribution = true := by decide +kernel
  have hforward : ⟨⟨0, 0⟩, "count"⟩ ∈ (g.usageOf ⟨0, "count"⟩).forwards := by decide +kernel
  have hpanel : g.Relay ⟨1, "count"⟩ := by
    rw [relay_iff]
    decide +kernel
  obtain ⟨-, hheads⟩ := track_starts_at_entered_relays {} "Composable" Sample.spreading
  exact ⟨hscreen, hpanel, hheads ⟨0, "count"⟩ ⟨⟨0, 0⟩, "count"⟩ ⟨1, "count"⟩ hscreen hforward (by decide +kernel) hpanel⟩

end PassThrough

import PassThrough.Proofs.Embedding
import PassThrough.Proofs.Relay
import PassThrough.Proofs.Reporter

/-! Walks along an embedding. Searches and walks drop the links that they have met from a pool, so they run alike on pools
that hold the same links up to renumbering. -/

namespace PassThrough

section Renumber
variable (σ : NodeId → NodeId)

def Terminal.renumber : Terminal → Terminal
  | .consumed l => .consumed (l.renumber σ)
  | .distributed l => .distributed (l.renumber σ)
  | .unused l => .unused (l.renumber σ)
  | .cycle l => .cycle (l.renumber σ)

def Walk.renumber (w : Walk) : Walk := ⟨w.links.map (Link.renumber σ), w.terminal.renumber σ⟩

end Renumber

theorem Chain.qualifies_of_renumber {σ : NodeId → NodeId} {c copy : Chain} (h : c.toWalk.renumber σ = copy.toWalk)
    (least : Nat) : copy.qualifies least = c.qualifies least := by
  have hlinks : copy.links = c.links.map (Link.renumber σ) := (congrArg Walk.links h).symm
  have hterminal : copy.terminal = c.terminal.renumber σ := (congrArg Walk.terminal h).symm
  rw [Chain.qualifies, Chain.qualifies, hlinks, List.length_map, Chain.isConsumed, Chain.isConsumed, hterminal]
  cases c.terminal <;> rfl

namespace Graph.Embedding
variable {g h : Graph} {σ : NodeId → NodeId} {n : NodeId} {s : SiteId} {l : Link} {pool copies : List Link}

theorem renumber_inj (e : Embedding g h σ) {k : Link} (hk : g.Holds k.node) (hl : g.Holds l.node) :
    k.renumber σ = l.renumber σ ↔ k = l := by
  refine ⟨fun heq => ?_, congrArg _⟩
  obtain ⟨hnode, hparam⟩ := Link.mk.inj heq
  have := e.injective hk hl hnode
  cases k
  cases l
  simp_all

/-- The pools hold the same links of `g`. -/
def Agree (g : Graph) (σ : NodeId → NodeId) (pool copies : List Link) : Prop :=
  ∀ l, g.Holds l.node → (l.renumber σ ∈ copies ↔ l ∈ pool)

theorem agree_without (e : Embedding g h σ) (hagree : Agree g σ pool copies) (hl : g.Holds l.node) :
    Agree g σ (without pool l) (without copies (l.renumber σ)) := by
  intro k hk
  rw [mem_without, mem_without, hagree k hk, ne_eq, e.renumber_inj hk hl]

private theorem agree_cons (e : Embedding g h σ) (hagree : Agree g σ pool copies) (hl : g.Holds l.node) :
    Agree g σ (l :: pool) (l.renumber σ :: copies) := by
  intro k hk
  rw [List.mem_cons, List.mem_cons, hagree k hk, e.renumber_inj hk hl]

theorem agree_links (e : Embedding g h σ) : Agree g σ g.links h.links := by
  rintro l ⟨node, hn⟩
  obtain ⟨copy, hcopy, halike⟩ := e.node hn
  have hcopy' : h.node? (l.renumber σ).node = some copy := hcopy
  rw [mem_links_iff hcopy', mem_links_iff hn, halike.paramNames]
  rfl

/-- The links to which a usage leads are held. -/
theorem holds_of_next (e : Embedding g h σ) {next : Link} (hn : next ∈ (g.usageOf l).forwards.filterMap g.next?) :
    g.Holds next.node := by
  obtain ⟨q, hq⟩ := e.source.next_declared hn
  exact holds_of_param? hq

theorem holds_of_forward (e : Embedding g h σ) {f : Forward} (hf : f ∈ (g.usageOf l).forwards) :
    g.Holds f.site.caller := by
  obtain ⟨p, _, _, hp, -, -, -, hcaller⟩ := e.source.next?_of_mem_forwards hf
  rw [hcaller]
  exact holds_of_param? hp

private theorem nexts_eq (e : Embedding g h σ) (l : Link) :
    ((g.usageOf l).renumber σ).forwards.filterMap h.next? =
      ((g.usageOf l).forwards.filterMap g.next?).map (Link.renumber σ) := by
  rw [Usage.renumber, List.filterMap_map, List.map_filterMap]
  exact List.filterMap_congr fun f hf => e.next?_eq (e.holds_of_forward hf)

theorem readerBelow_eq (e : Embedding g h σ) (pool pending : List Link) {copies : List Link}
    (hagree : Agree g σ pool copies) (hp : ∀ l ∈ pending, g.Holds l.node) :
    h.readerBelow (m := Id) h.usageOf copies (pending.map (Link.renumber σ)) =
      g.readerBelow (m := Id) g.usageOf pool pending := by
  induction pool, pending using readerBelow.induct g generalizing copies with
  | case1 pool => rw [List.map_nil, readerBelow, readerBelow]
  | case2 pool l pending hl ih =>
    obtain ⟨hhold, hrest⟩ := List.forall_mem_cons.1 hp
    rw [List.map_cons, readerBelow_cons, readerBelow_cons, if_pos ((hagree l hhold).2 hl), if_pos hl,
      e.usageOf_eq hhold, Usage.isConsumed_renumber, e.nexts_eq, ← List.map_reverse, ← List.map_append]
    split
    · rfl
    · refine ih _ (e.agree_without hagree hhold) fun next hnext => ?_
      rcases List.mem_append.1 hnext with hnext | hnext
      · exact e.holds_of_next (List.mem_reverse.1 hnext)
      · exact hrest next hnext
  | case3 pool l pending hl ih =>
    obtain ⟨hhold, hrest⟩ := List.forall_mem_cons.1 hp
    rw [List.map_cons, readerBelow_cons, readerBelow_cons, if_neg (mt (hagree l hhold).1 hl), if_neg hl]
    exact ih hagree hrest

theorem isReadBelow_eq (e : Embedding g h σ) (hl : g.Holds l.node) : h.isReadBelow (l.renumber σ) = g.isReadBelow l :=
  e.readerBelow_eq _ [l] (e.agree_cons e.agree_links hl) (by simpa using hl)

theorem walkFrom_eq (e : Embedding g h σ) (pool : List Link) (l : Link) {copies : List Link}
    (hagree : Agree g σ pool copies) (hl : g.Holds l.node) :
    h.walkFrom copies (l.renumber σ) = (g.walkFrom pool l).renumber σ := by
  induction pool, l using followFrom.induct generalizing copies with
  | case1 pool l hpool ih =>
    rw [Graph.walkFrom_eq, Graph.walkFrom_eq, if_pos ((hagree l hl).2 hpool), if_pos hpool, e.usageOf_eq hl,
      e.isReadBelow_eq hl, Usage.isDistribution_renumber, Usage.isConsumed_renumber, Usage.forward?_renumber]
    cases (g.usageOf l).isDistribution with
    | true => cases g.isReadBelow l <;> rfl
    | false =>
      cases hf : (g.usageOf l).forward? with
      | none => cases (g.usageOf l).isConsumed <;> rfl
      | some f =>
        have hmem := e.source.forward?_mem hf
        obtain ⟨_, next, q, -, hnext, hq, -⟩ := e.source.next?_of_mem_forwards hmem
        have hnext' := e.next?_eq (e.holds_of_forward hmem)
        rw [hnext] at hnext'
        simp [hnext, hnext', ih next (e.agree_without hagree hl) (holds_of_param? hq), Walk.renumber]
  | case2 pool l hpool =>
    rw [Graph.walkFrom_eq, Graph.walkFrom_eq, if_neg (mt (hagree l hl).1 hpool), if_neg hpool]
    rfl

theorem walk_eq (e : Embedding g h σ) (hl : g.Holds l.node) : h.walk (l.renumber σ) = (g.walk l).renumber σ :=
  e.walkFrom_eq _ l (e.agree_cons e.agree_links hl) hl

theorem isRelayedAt_eq (e : Embedding g h σ) (hs : g.Holds s.caller) (argument : Expr) (param : String) :
    h.isRelayedAt (s.renumber σ) argument param = g.isRelayedAt s argument param := by
  rw [Graph.isRelayedAt_eq, Graph.isRelayedAt_eq]
  congr 1
  funext name
  have hkind := e.kind?_eq (l := ⟨s.caller, name⟩) hs
  have husage := e.usageOf_eq (l := ⟨s.caller, name⟩) hs
  simp only [Link.renumber] at hkind husage
  have hforward : (((g.usageOf ⟨s.caller, name⟩).renumber σ).forward? == some ⟨s.renumber σ, param⟩) =
      ((g.usageOf ⟨s.caller, name⟩).forward? == some ⟨s, param⟩) := by
    rw [Usage.forward?_renumber]
    cases hf : (g.usageOf ⟨s.caller, name⟩).forward? with
    | none => rfl
    | some f =>
      have hcaller := e.holds_of_forward (e.source.forward?_mem hf)
      simp only [Option.map_some, Forward.renumber, SiteId.renumber]
      rw [Bool.eq_iff_iff]
      obtain ⟨⟨caller, index⟩, name'⟩ := f
      obtain ⟨caller', index'⟩ := s
      simp only [beq_iff_eq, Option.some.injEq, Forward.mk.injEq, SiteId.mk.injEq]
      exact and_congr_left fun _ => and_congr_left fun _ => ⟨e.injective hcaller hs, congrArg σ⟩
  simp only [SiteId.renumber, hkind, husage, Usage.isDistribution_renumber] at hforward ⊢
  rw [hforward]

theorem suppliesAfresh_eq (e : Embedding g h σ) (hs : g.Holds s.caller) (param : String) :
    h.suppliesAfresh param (s.renumber σ) = g.suppliesAfresh param s := by
  simp only [suppliesAfresh, e.argument?_eq hs, e.isRelayedAt_eq hs]

/-- The sites that reach a copy are the copies of those that reach the function. -/
theorem mem_incomingOf_iff (e : Embedding g h σ) (hn : g.Holds n) {copy : SiteId} :
    copy ∈ h.incomingOf (σ n) ↔ ∃ s ∈ g.incomingOf n, s.renumber σ = copy := by
  rw [e.target.mem_incomingOf]
  constructor
  · intro hcopy
    obtain ⟨i, hi, hcaller⟩ := e.caller hn hcopy
    have hs : SiteId.renumber σ ⟨i, copy.index⟩ = copy := by simp [SiteId.renumber, hcaller]
    refine ⟨⟨i, copy.index⟩, e.source.mem_incomingOf.2 ?_, hs⟩
    have hcallee := e.callee?_eq (s := ⟨i, copy.index⟩) hi
    rw [hs, hcopy] at hcallee
    obtain ⟨m, hm, heq⟩ := Option.map_eq_some_iff.1 hcallee.symm
    rw [hm, e.injective (e.source.callee_holds hm) hn heq]
  · rintro ⟨s, hs, rfl⟩
    rw [e.source.mem_incomingOf] at hs
    rw [e.callee?_eq (e.source.caller_holds hs), hs, Option.map_some]

/-- A chain starts at a copy iff one starts at the parameter. -/
theorem entryPoint?_isSome_eq (e : Embedding g h σ) (hl : g.Holds l.node) :
    (h.entryPoint? (l.renumber σ)).isSome = (g.entryPoint? l).isSome := by
  have hsite : ∀ s ∈ g.incomingOf l.node, g.Holds s.caller := fun s hs =>
    e.source.caller_holds (e.source.mem_incomingOf.1 hs)
  have hnone : h.entryPoint? (l.renumber σ) = none ↔ g.entryPoint? l = none := by
    rw [entryPoint?_eq_none_iff, entryPoint?_eq_none_iff]
    have hmem : ∀ copy, copy ∈ h.incomingOf (σ l.node) ↔ ∃ s ∈ g.incomingOf l.node, s.renumber σ = copy :=
      fun _ => e.mem_incomingOf_iff hl
    simp only [Link.renumber, hmem]
    refine and_congr ⟨?_, ?_⟩ ⟨?_, ?_⟩
    · rintro ⟨_, ⟨s, hs, rfl⟩, harg⟩
      exact ⟨s, hs, by rwa [e.argument?_eq (hsite s hs)] at harg⟩
    · rintro ⟨s, hs, harg⟩
      exact ⟨_, ⟨s, hs, rfl⟩, by rwa [e.argument?_eq (hsite s hs)]⟩
    · intro hall s hs
      rw [← e.suppliesAfresh_eq (hsite s hs)]
      exact hall _ ⟨s, hs, rfl⟩
    · rintro hall _ ⟨s, hs, rfl⟩
      rw [e.suppliesAfresh_eq (hsite s hs)]
      exact hall s hs
  rw [Bool.eq_iff_iff, Option.isSome_iff_ne_none, Option.isSome_iff_ne_none, ne_eq, ne_eq, hnone]

/-- The chain that starts at a copy passes the copies of the links. -/
theorem chain?_walk_eq (e : Embedding g h σ) (hl : g.Holds l.node) :
    (h.chain? (l.renumber σ)).map Chain.toWalk = (g.chain? l).map fun c => c.toWalk.renumber σ := by
  have hentry := e.entryPoint?_isSome_eq hl
  rw [chain?, chain?, e.usageOf_eq hl, e.walk_eq hl, Usage.isForwarded_renumber, Usage.isDistribution_renumber]
  split
  · rfl
  · cases hg : g.entryPoint? l <;> cases hh : h.entryPoint? (l.renumber σ) <;> simp [hg, hh] at hentry ⊢

theorem pair?_eq (e : Embedding g h σ) (hl : g.Holds l.node) (ids : List String) :
    h.pair? ids (l.renumber σ) = g.pair? ids l := by
  obtain ⟨node, hn⟩ := hl
  obtain ⟨copy, hcopy, halike⟩ := e.node hn
  simp [pair?, Link.renumber, hn, hcopy, halike.param?_isSome, halike.id, halike.decl]

theorem isSilenced_eq (e : Embedding g h σ) (hl : g.Holds l.node) (ids : List String) :
    h.isSilenced ids (l.renumber σ) = g.isSilenced ids l := by
  obtain ⟨node, hn⟩ := hl
  obtain ⟨copy, hcopy, halike⟩ := e.node hn
  simp [isSilenced, Link.renumber, hn, hcopy, halike.param?_isSome, halike.decl]

theorem reactiveLinksOf_eq (e : Embedding g h σ) (hn : g.Holds n) :
    h.reactiveLinksOf (σ n) = (g.reactiveLinksOf n).map (Link.renumber σ) := by
  obtain ⟨node, hn⟩ := hn
  obtain ⟨copy, hcopy, halike⟩ := e.node hn
  have hnames := congrArg (List.map (Link.mk (σ n))) halike.reactiveNames
  simpa [reactiveLinksOf, hn, hcopy, Link.renumber, Function.comp_def] using hnames

theorem bindDiagnosticsOf_eq (e : Embedding g h σ) (hn : g.Holds n) :
    h.bindDiagnosticsOf (σ n) = g.bindDiagnosticsOf n := by
  obtain ⟨node, hn⟩ := hn
  obtain ⟨copy, hcopy, halike⟩ := e.node hn
  simp [bindDiagnosticsOf, hn, hcopy, e.bindDiagnostics_eq hn halike]

/-- What the copies give, one after the other, is what the functions give. -/
theorem flatMap_copies {α β : Type} {ofCopy : NodeId → List β} {ofNode : NodeId → List α} {r : α → β}
    (heq : ∀ n, g.Holds n → ofCopy (σ n) = (ofNode n).map r) :
    ((List.range g.nodes.length).map σ).flatMap ofCopy = ((List.range g.nodes.length).flatMap ofNode).map r := by
  rw [List.flatMap_map, List.map_flatMap]
  exact List.flatMap_congr fun n hn => heq n (holds_iff.2 (List.mem_range.1 hn))

end Graph.Embedding
end PassThrough

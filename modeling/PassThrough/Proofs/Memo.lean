import PassThrough.Chain.Track
import PassThrough.Proofs.Usage

/-! Remembered usages. A walk that remembers usages returns what it returns when each usage is worked out afresh, and
records no diagnostic, since it only ever asks for parameters that are declared. -/

namespace PassThrough

theorem Usage.isConsumed_iff {u : Usage} : u.isConsumed = true ↔ u.classification = .consumed := by
  simp [Usage.isConsumed]

theorem Usage.forward?_eq_some_iff {u : Usage} {f : Forward} : u.forward? = some f ↔ u.classification = .forwarded f := by
  cases hc : u.classification <;> simp [Usage.forward?, hc]

private theorem Usage.ofUses_forward?_mem {g : Graph} {uses : List Use} {f : Forward}
    (h : (Usage.ofUses g uses).forward? = some f) : f ∈ (Usage.ofUses g uses).forwards := by
  rw [Usage.forward?_eq_some_iff] at h
  simp only [Usage.ofUses] at h ⊢
  split at h
  · cases h
  · cases hf : uses.filterMap Use.forward? with
    | nil => simp [hf] at h
    | cons first rest =>
      obtain rfl : first = f := by simpa [hf] using h
      exact List.mem_cons_self

namespace Graph
variable {g : Graph} {l : Link} {f : Forward}

theorem Lawful.usageOf_eq (h : g.Lawful) {node : Node} {p : Parameter} (hn : g.node? l.node = some node)
    (hp : node.param? l.param = some p) : g.usageOf l = Usage.ofUses g (g.uses l node p.kind) := by
  rw [usageOf, h.classify_eq_ok hn hp]

/-- What is not declared counts as unused. -/
theorem usageOf_eq_unused (hp : g.param? l = none) : g.usageOf l = {} := by
  cases hn : g.node? l.node with
  | none => simp [usageOf, classify, hn]
  | some node =>
    have hp' : node.param? l.param = none := by simpa [param?, hn] using hp
    simp [usageOf, classify, hn, hp']

theorem Lawful.forward?_mem (h : g.Lawful) (hf : (g.usageOf l).forward? = some f) : f ∈ (g.usageOf l).forwards := by
  cases hp : g.param? l with
  | none =>
    rw [usageOf_eq_unused hp] at hf
    cases hf
  | some p =>
    obtain ⟨node, hn, hp'⟩ := param?_eq_some_iff.1 hp
    rw [h.usageOf_eq hn hp'] at hf ⊢
    exact Usage.ofUses_forward?_mem hf

/-- A forward leads from a declared parameter, along a site of its function, to a declared parameter that accepts
its kind. -/
theorem Lawful.next?_of_mem_forwards (h : g.Lawful) (hf : f ∈ (g.usageOf l).forwards) :
    ∃ p next q, g.param? l = some p ∧ g.next? f = some next ∧ g.param? next = some q ∧
      p.kind.assignableTo q.kind = true ∧ f.site.caller = l.node := by
  cases hp : g.param? l with
  | none => simp [usageOf_eq_unused hp] at hf
  | some p =>
    obtain ⟨node, hn, hp'⟩ := param?_eq_some_iff.1 hp
    rw [h.usageOf_eq hn hp', h.ofUses_forwards hn, List.mem_filterMap] at hf
    obtain ⟨o, ho, hf⟩ := hf
    simp only [forwardAt?, Option.bind_eq_some_iff, Option.ite_none_right_eq_some, Option.some.injEq, Prod.exists] at hf
    obtain ⟨site, index, hs, callee, ht, param, -, q, ⟨calleeNode, hfind, hq⟩, hkind, rfl⟩ := hf
    obtain ⟨-, hsite, hcaller, -⟩ := h.siteAround?_eq_some hn (List.mem_of_mem_filter ho) hs
    obtain ⟨m, hm, rfl⟩ := h.find?_eq_some_iff.1 hfind
    have hcallee : g.callee? site.id = some m := h.callee?_eq_some_iff.2 ⟨site, calleeNode, hsite, hm, ht⟩
    refine ⟨p, ⟨m, param⟩, q, rfl, ?_, param?_eq_some_iff.2 ⟨calleeNode, hm, hq⟩, hkind, hcaller⟩
    simp [next?, hcallee]

/-- Whether the value is read below a parameter, with usages worked out afresh. -/
def isReadBelow (g : Graph) (l : Link) : Bool := g.reachesReader (m := Id) g.usageOf l

/-- The walk through the links of a pool, with usages worked out afresh. -/
def walkFrom (g : Graph) (pool : List Link) (l : Link) : Walk := g.followFrom (m := Id) g.usageOf pool l

def walk (g : Graph) (l : Link) : Walk := g.walkFrom (l :: g.links) l

def isRelayedAt (g : Graph) (s : SiteId) (argument : Expr) (param : String) : Bool :=
  g.relays (m := Id) g.usageOf s argument param

def entryPoint? (g : Graph) (l : Link) : Option Entry := g.entryOf (m := Id) g.usageOf l

/-- The chain that starts at a parameter, with usages worked out afresh. -/
def chain? (g : Graph) (l : Link) : Option Chain :=
  if !(g.usageOf l).isForwarded || (g.usageOf l).isDistribution then none
  else (g.entryPoint? l).map fun entry => { g.walk l with entry }

/-- The chains of the graph, with usages worked out afresh. -/
def chains (g : Graph) : List Chain := g.reactiveLinks.filterMap g.chain?

/-- A chain is the walk from a link at which it is entered. -/
theorem exists_of_mem_chains {c : Chain} (hc : c ∈ g.chains) :
    ∃ l ∈ g.reactiveLinks, g.entryPoint? l = some c.entry ∧ c.toWalk = g.walk l := by
  obtain ⟨l, hl, hchain⟩ := List.mem_filterMap.1 hc
  simp only [chain?, Option.ite_none_left_eq_some, Option.map_eq_some_iff] at hchain
  obtain ⟨-, entry, hentry, rfl⟩ := hchain
  exact ⟨l, hl, hentry, rfl⟩

end Graph

/-- What is remembered is what working out afresh gives. -/
def Memo.Coherent (g : Graph) (m : Memo) : Prop := ∀ l u, m.known? l = some u → u = g.usageOf l

theorem Memo.coherent_new (g : Graph) (errors : List Diagnostic) : Memo.Coherent g { errors } := by
  intro l u hk
  cases hk

/-- With a coherent memory the computation gives `a`, leaves the memory coherent and records nothing. -/
def Faithful (g : Graph) {α : Type} (x : StateM Memo α) (a : α) : Prop :=
  ∀ m : Memo, m.Coherent g → (x m).1 = a ∧ (x m).2.Coherent g ∧ (x m).2.errors = m.errors

namespace Graph
variable {g : Graph} {m : Memo} {l : Link}

/-- What is recorded when a usage cannot be worked out. -/
def complaint? (g : Graph) (l : Link) : Option Diagnostic :=
  match g.classify l with
  | .ok _ => none
  | .error p => some (g.usageDiagnostic l p)

theorem memoUsage_of_known {u : Usage} (h : m.known? l = some u) : g.memoUsage l m = (u, m) := by
  simp [memoUsage, h]

/-- A usage that is not remembered is worked out and remembered, and a failure is recorded. -/
theorem memoUsage_of_unknown (h : m.known? l = none) : g.memoUsage l m =
    (g.usageOf l, ⟨m.usages ++ [(l, g.usageOf l)], m.errors ++ (g.complaint? l).toList⟩) := by
  have hnew : m.usages.any (·.1 == l) = false := by
    rw [Memo.known?, List.lookup_eq_none_iff] at h
    simp only [List.any_eq_false, beq_iff_eq]
    intro entry hentry heq
    have := h entry hentry
    simp [heq] at this
  cases hc : g.classify l <;> simp [memoUsage, usageOf, complaint?, h, hc, Memo.record, Memo.store, hnew]

end Graph

namespace Memo
variable {g : Graph} {m : Memo}

/-- The memory after asking for the usages of some links, one after the other. -/
def asking (g : Graph) (m : Memo) (ls : List Link) : Memo := ls.foldl (fun m l => (g.memoUsage l m).2) m

/-- Those of the links that are not remembered, each once. -/
def unknown (m : Memo) (ls : List Link) : List Link := (ls.filter fun l => (m.known? l).isNone).eraseDups

theorem mem_unknown {ls : List Link} {l : Link} : l ∈ m.unknown ls ↔ l ∈ ls ∧ m.known? l = none := by
  simp [unknown]

private theorem unknown_cons_of_known {l : Link} {u : Usage} (h : m.known? l = some u) (rest : List Link) :
    m.unknown (l :: rest) = m.unknown rest := by
  simp [unknown, h]

private theorem unknown_cons_of_unknown {l : Link} (h : m.known? l = none) (u : Usage) (errors : List Diagnostic)
    (rest : List Link) : m.unknown (l :: rest) = l :: unknown ⟨m.usages ++ [(l, u)], errors⟩ rest := by
  have hknown : ∀ k, (known? ⟨m.usages ++ [(l, u)], errors⟩ k).isNone = (!k == l && (m.known? k).isNone) := by
    intro k
    rw [known?, List.lookup_append, List.lookup_cons, known?]
    cases k == l <;> simp
  rw [unknown, List.filter_cons_of_pos (by simp [h]), List.eraseDups_cons, List.filter_filter, unknown]
  simp only [hknown]

/-- Asking remembers the usages that were not known, in the order of the questions, and records the failures among them. -/
theorem asking_eq (g : Graph) (m : Memo) (ls : List Link) : m.asking g ls =
    ⟨m.usages ++ (m.unknown ls).map fun l => (l, g.usageOf l), m.errors ++ (m.unknown ls).filterMap g.complaint?⟩ := by
  induction ls generalizing m with
  | nil => simp [asking, unknown]
  | cons l rest ih =>
    have hstep : m.asking g (l :: rest) = (g.memoUsage l m).2.asking g rest := rfl
    cases hk : m.known? l with
    | some u => rw [hstep, Graph.memoUsage_of_known hk, ih, unknown_cons_of_known hk]
    | none =>
      rw [hstep, Graph.memoUsage_of_unknown hk, ih, unknown_cons_of_unknown hk (g.usageOf l) (m.errors ++ (g.complaint? l).toList)]
      cases hc : g.complaint? l <;> simp [hc]

theorem asking_append (g : Graph) (m : Memo) (ls ks : List Link) : m.asking g (ls ++ ks) = (m.asking g ls).asking g ks :=
  List.foldl_append

theorem known?_asking (g : Graph) (m : Memo) (ls : List Link) (k : Link) :
    (m.asking g ls).known? k = (m.known? k).or (if k ∈ ls then some (g.usageOf k) else none) := by
  rw [asking_eq, known?, List.lookup_append, ← known?]
  cases hk : m.known? k with
  | some u => rfl
  | none =>
    rw [Option.none_or, Option.none_or]
    split
    · rename_i hmem
      exact List.lookup_graph g.usageOf (mem_unknown.2 ⟨hmem, hk⟩)
    · rename_i hmem
      rw [List.lookup_eq_none_iff]
      intro entry hentry
      obtain ⟨l, hl, rfl⟩ := List.mem_map.1 hentry
      have hne : k ≠ l := fun heq => hmem (heq ▸ (mem_unknown.1 hl).1)
      simpa using hne

theorem Coherent.asking (hm : m.Coherent g) (ls : List Link) : (m.asking g ls).Coherent g := by
  intro l u hu
  rw [known?_asking] at hu
  cases hk : m.known? l with
  | some known =>
    obtain rfl : known = u := by simpa [hk] using hu
    exact hm l known hk
  | none =>
    obtain ⟨-, rfl⟩ : l ∈ ls ∧ g.usageOf l = u := by simpa [hk] using hu
    rfl

end Memo

/-- With a coherent memory the computation gives `a`; on the way it asks for the usages of certain links, the same whatever
is remembered, all of which satisfy `P`. -/
def Asks {n : Type → Type} [Monad n] (g : Graph) (P : Link → Prop) {α : Type} (x : StateT Memo n α) (a : α) : Prop :=
  ∃ asked : List Link, (∀ l ∈ asked, P l) ∧ ∀ m : Memo, m.Coherent g → x m = pure (a, m.asking g asked)

namespace Asks
variable {n : Type → Type} [Monad n] {g : Graph} {P : Link → Prop} {α β : Type}

theorem pure (a : α) : Asks g P (pure a : StateT Memo n α) a := ⟨[], by simp, fun _ _ => rfl⟩

theorem bind [LawfulMonad n] {x : StateT Memo n α} {a : α} {k : α → StateT Memo n β} {b : β} (hx : Asks g P x a)
    (hk : Asks g P (k a) b) : Asks g P (x >>= k) b := by
  obtain ⟨asked, hP, hrun⟩ := hx
  obtain ⟨asked', hP', hrun'⟩ := hk
  refine ⟨asked ++ asked', List.forall_mem_append.2 ⟨hP, hP'⟩, fun m hm => ?_⟩
  have hbind : (x >>= k) m = x m >>= fun y => k y.1 y.2 := rfl
  rw [hbind, hrun m hm, pure_bind, hrun' _ (hm.asking asked), Memo.asking_append]

theorem lift [LawfulMonad n] {x : n α} {a : α} (hx : x = Pure.pure a) : Asks g P (liftM x : StateT Memo n α) a := by
  refine ⟨[], by simp, fun m _ => ?_⟩
  have hlift : (liftM x : StateT Memo n α) m = x >>= fun a => Pure.pure (a, m) := rfl
  rw [hlift, hx, pure_bind]
  rfl

theorem memoUsage {l : Link} (hl : P l) : Asks g P (g.memoUsage l) (g.usageOf l) := by
  refine ⟨[l], by simpa using hl, fun m hm => ?_⟩
  have hvalue : (g.memoUsage l m).1 = g.usageOf l := by
    cases hk : m.known? l with
    | some u => rw [Graph.memoUsage_of_known hk, hm l u hk]
    | none => rw [Graph.memoUsage_of_unknown hk]
  exact Prod.ext hvalue rfl

/-- A computation that only asks for what can be worked out records nothing. -/
theorem records_nothing {x : StateT Memo n α} {a : α} (hx : Asks g P x a) (hP : ∀ l, P l → g.complaint? l = none) {m : Memo}
    (hm : m.Coherent g) : ∃ after, x m = Pure.pure (a, after) ∧ after.Coherent g ∧ after.errors = m.errors := by
  obtain ⟨asked, hasked, hrun⟩ := hx
  have hnone : (m.unknown asked).filterMap g.complaint? = [] :=
    List.filterMap_eq_nil_iff.2 fun l hl => hP l (hasked l (Memo.mem_unknown.1 hl).1)
  exact ⟨_, hrun m hm, hm.asking asked, by rw [Memo.asking_eq, hnone, List.append_nil]⟩

theorem run_fst {x : StateM Memo α} {a : α} (hx : Asks g P x a) {m : Memo} (hm : m.Coherent g) : (x.run m).1 = a := by
  obtain ⟨asked, -, hrun⟩ := hx
  exact congrArg Prod.fst (hrun m hm)

theorem faithful {x : StateM Memo α} {a : α} (hx : Asks g P x a) (hP : ∀ l, P l → g.complaint? l = none) :
    Faithful g x a := by
  intro m hm
  obtain ⟨after, hrun, hcoherent, herrors⟩ := hx.records_nothing hP hm
  have hrun' : x m = (a, after) := hrun
  rw [hrun']
  exact ⟨rfl, hcoherent, herrors⟩

end Asks

namespace Graph
variable {g : Graph} {P : Link → Prop}

/-- The links hold every declared parameter, and with a link all that its forwards and its first forward lead to. -/
structure Closed (g : Graph) (P : Link → Prop) : Prop where
  declared : ∀ l p, g.param? l = some p → P l
  next : ∀ l next, P l → next ∈ (g.usageOf l).forwards.filterMap g.next? → P next
  first : ∀ l f next, P l → (g.usageOf l).forward? = some f → g.next? f = some next → P next

/-- Every forward of a usage leads to declared parameters. -/
theorem Lawful.next_declared (h : g.Lawful) {l next : Link}
    (hn : next ∈ (g.usageOf l).forwards.filterMap g.next?) : ∃ q, g.param? next = some q := by
  obtain ⟨f, hf, hnext⟩ := List.mem_filterMap.1 hn
  obtain ⟨_, next', q, -, hnext', hq, -⟩ := h.next?_of_mem_forwards hf
  obtain rfl : next' = next := Option.some.inj (hnext'.symm.trans hnext)
  exact ⟨q, hq⟩

theorem Lawful.closed_declared (h : g.Lawful) : g.Closed fun l => ∃ p, g.param? l = some p where
  declared := fun _ p hp => ⟨p, hp⟩
  next := fun _ _ _ hnext => h.next_declared hnext
  first := fun _ f _ _ hf hnext => h.next_declared (List.mem_filterMap.2 ⟨f, h.forward?_mem hf, hnext⟩)

theorem Lawful.complaint?_eq_none (h : g.Lawful) {l : Link} (hl : ∃ p, g.param? l = some p) : g.complaint? l = none := by
  obtain ⟨p, hp⟩ := hl
  obtain ⟨node, hn, hp⟩ := param?_eq_some_iff.1 hp
  rw [complaint?, h.classify_eq_ok hn hp]

namespace Closed

theorem asks_readerBelow (hP : g.Closed P) (pool pending : List Link) (hpending : ∀ l ∈ pending, P l) :
    Asks g P (g.readerBelow g.memoUsage pool pending) (g.readerBelow (m := Id) g.usageOf pool pending) := by
  induction pool, pending using readerBelow.induct g with
  | case1 pool =>
    rw [readerBelow, readerBelow]
    exact .pure false
  | case2 pool l pending hl ih =>
    obtain ⟨hlP, hrest⟩ := List.forall_mem_cons.1 hpending
    rw [readerBelow, readerBelow, dif_pos hl, dif_pos hl]
    refine (Asks.memoUsage hlP).bind ?_
    change Asks g P _ (if (g.usageOf l).isConsumed then true else _)
    split
    · exact .pure true
    · apply ih
      intro next hnext
      rcases List.mem_append.1 hnext with hnext | hnext
      · exact hP.next l next hlP (List.mem_reverse.1 hnext)
      · exact hrest next hnext
  | case3 pool l pending hl ih =>
    rw [readerBelow, readerBelow, dif_neg hl, dif_neg hl]
    exact ih (List.forall_mem_cons.1 hpending).2

theorem asks_followFrom (hP : g.Closed P) (pool : List Link) (l : Link) (hl : P l) :
    Asks g P (g.followFrom g.memoUsage pool l) (g.walkFrom pool l) := by
  induction pool, l using followFrom.induct with
  | case1 pool l hpool ih =>
    rw [walkFrom, followFrom, followFrom, dif_pos hpool, dif_pos hpool]
    refine (Asks.memoUsage hl).bind ?_
    change Asks g P _ (if (g.usageOf l).isDistribution then _ else _)
    split
    · exact (hP.asks_readerBelow _ _ (by simpa using hl)).bind (.pure _)
    · cases hf : (g.usageOf l).forward? with
      | none => exact .pure _
      | some f =>
        cases hnext : g.next? f with
        | none =>
          simp only [hnext]
          exact .pure _
        | some next =>
          simp only [hnext]
          exact (ih next (hP.first l f next hl hf hnext)).bind (.pure _)
  | case2 pool l hpool =>
    rw [walkFrom, followFrom, followFrom, dif_neg hpool, dif_neg hpool]
    exact .pure _

theorem asks_relays (hP : g.Closed P) (s : SiteId) (argument : Expr) (param : String) :
    Asks g P (g.relays g.memoUsage s argument param) (g.isRelayedAt s argument param) := by
  unfold isRelayedAt relays
  cases argument.ident? with
  | none => exact .pure false
  | some name =>
    dsimp only
    cases hp : g.param? ⟨s.caller, name⟩ with
    | none => exact .pure false
    | some p =>
      dsimp only
      split
      · exact (Asks.memoUsage (hP.declared _ p hp)).bind (.pure _)
      · exact .pure false

theorem asks_entryFrom (hP : g.Closed P) (param : String) (supplied : Bool) (sites : List SiteId) :
    Asks g P (g.entryFrom g.memoUsage param supplied sites) (g.entryFrom (m := Id) g.usageOf param supplied sites) := by
  induction supplied, sites using entryFrom.induct g param with
  | case1 supplied => exact .pure _
  | case2 supplied s rest harg ih =>
    simp only [entryFrom, harg]
    exact ih
  | case3 supplied s rest argument harg ih =>
    simp only [entryFrom, harg]
    refine (hP.asks_relays s argument param).bind ?_
    change Asks g P _ (if g.isRelayedAt s argument param then _ else _)
    split
    · exact ih
    · exact .pure _

theorem asks_chainAt (hP : g.Closed P) {l : Link} (hl : P l) : Asks g P (g.chainAt g.memoUsage l) (g.chain? l) := by
  unfold chainAt chain?
  refine (Asks.memoUsage hl).bind ?_
  split
  · exact .pure none
  · have hentry : Asks g P (g.entryOf g.memoUsage l) (g.entryPoint? l) := hP.asks_entryFrom l.param false _
    refine hentry.bind ?_
    cases g.entryPoint? l with
    | none => exact .pure none
    | some entry => exact (hP.asks_followFrom _ _ hl).bind (.pure _)

theorem asks_chainsAt (hP : g.Closed P) (ls : List Link) (hls : ∀ l ∈ ls, P l) :
    Asks g P (g.chainsAt g.memoUsage ls) (ls.filterMap g.chain?) := by
  induction ls with
  | nil => exact .pure []
  | cons l rest ih =>
    obtain ⟨hl, hrest⟩ := List.forall_mem_cons.1 hls
    have hcons : (l :: rest).filterMap g.chain? = (g.chain? l).toList ++ rest.filterMap g.chain? := by
      cases hc : g.chain? l <;> simp [hc]
    rw [hcons]
    exact (hP.asks_chainAt hl).bind ((ih hrest).bind (.pure _))

/-- Tracking with memory finds the chains that tracking without memory finds. -/
theorem asks_track (hP : g.Closed P) : Asks g P (g.track g.memoUsage) g.chains := by
  refine hP.asks_chainsAt g.reactiveLinks fun l hl => ?_
  obtain ⟨p, hp⟩ := param?_isSome_of_mem_reactiveLinks hl
  exact hP.declared l p hp

end Closed

theorem closed_all (g : Graph) : g.Closed fun _ => True where
  declared := fun _ _ _ => trivial
  next := fun _ _ _ _ => trivial
  first := fun _ _ _ _ _ _ => trivial

/-- Tracking from an empty memory finds the chains that tracking without memory finds, and records nothing. -/
theorem Lawful.track_run (h : g.Lawful) (errors : List Diagnostic) :
    ((g.track g.memoUsage).run { errors }).1 = g.chains ∧
      ((g.track g.memoUsage).run { errors }).2.errors = errors := by
  obtain ⟨hv, -, he⟩ := h.closed_declared.asks_track.faithful (fun _ => h.complaint?_eq_none) _ (Memo.coherent_new g errors)
  exact ⟨hv, he⟩

end Graph

namespace Memo.Coherent
variable {g : Graph} {m : Memo}

theorem reachesReader_run (hm : m.Coherent g) (l : Link) : ((g.reachesReader g.memoUsage l).run m).1 = g.isReadBelow l :=
  (g.closed_all.asks_readerBelow _ _ fun _ _ => trivial).run_fst hm

theorem follow_run (hm : m.Coherent g) (l : Link) : ((g.follow g.memoUsage l).run m).1 = g.walk l :=
  (g.closed_all.asks_followFrom _ l trivial).run_fst hm

theorem track_run (hm : m.Coherent g) : ((g.track g.memoUsage).run m).1 = g.chains :=
  g.closed_all.asks_track.run_fst hm

end Memo.Coherent
end PassThrough

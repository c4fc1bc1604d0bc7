import PassThrough.Proofs.CheckedScan
import PassThrough.Proofs.Relay

/-! Tracking over tables. The walks find the callees, callers and arguments by number, and ask for usages that they remember.
They raise no fault: a walk only comes to parameters that are declared, and the numbers in a usage are those of sites. -/

namespace PassThrough.Tables

/-- A walk that remembers usages and may raise a fault. -/
abbrev Checked := StateT Memo (Except Fault)

/-- The usage of a parameter, from memory if it is known. The function is looked up again, for the log and for the
diagnostic of a failure. -/
def usage (t : Tables) (l : Link) : Checked Usage := fun m =>
  match m.known? l with
  | some u => pure (u, m)
  | none => do
    let result ← t.classify l
    let node ← t.nodeAt l.node
    match result with
    | .ok u => pure (u, m.store l u)
    | .error p => pure ({}, (m.record (Diagnostic.ofFailure node.id p.failure)).store l {})

/-- The parameter to which a forward leads. -/
def nextOf (t : Tables) (f : Forward) : Except Fault (Option Link) := do
  let callee ← t.calleeOf f.site
  pure (callee.map fun n => ⟨n, f.param⟩)

def readerBelow (t : Tables) (pool : List Link) : List Link → Checked Bool
  | [] => pure false
  | l :: pending =>
    if _h : l ∈ pool then do
      let u ← t.usage l
      if u.isConsumed then pure true
      else do
        let nexts ← (u.forwards.mapM t.nextOf : Except Fault (List (Option Link)))
        readerBelow t (Graph.without pool l) ((nexts.filterMap id).reverse ++ pending)
    else readerBelow t pool pending
termination_by pending => (pool.length, pending.length)
decreasing_by
  · exact Prod.Lex.left _ _ (Graph.length_without_lt _h)
  · exact Prod.Lex.right _ (Nat.lt_succ_self _)

/-- Whether the value is read below a parameter. Where it is not, the function is looked up for the log. -/
def reachesReader (t : Tables) (l : Link) : Checked Bool := do
  let read ← t.readerBelow (l :: t.links) [l]
  if read then pure true
  else do
    let _ ← t.nodeAt l.node
    pure false

def followFrom (t : Tables) (pool : List Link) (l : Link) : Checked Walk :=
  if _h : l ∈ pool then do
    let u ← t.usage l
    if u.isDistribution then do
      let read ← t.reachesReader l
      pure ⟨[], if read then .distributed l else .unused l⟩
    else
      match u.forward? with
      | none => pure ⟨[], if u.isConsumed then .consumed l else .unused l⟩
      | some f => do
        let next ← t.nextOf f
        match next with
        | none => pure ⟨[], .unused l⟩
        | some next => do
          let w ← followFrom t (Graph.without pool l) next
          pure ⟨l :: w.links, w.terminal⟩
  else pure ⟨[], .cycle l⟩
termination_by pool.length
decreasing_by exact Graph.length_without_lt _h

def relays (t : Tables) (s : SiteId) (argument : Expr) (param : String) : Checked Bool :=
  match argument.ident? with
  | none => pure false
  | some name => do
    let caller ← t.nodeAt s.caller
    match caller.param? name with
    | none => pure false
    | some p =>
      if p.kind.isReactive then do
        let u ← t.usage ⟨s.caller, name⟩
        pure (!u.isDistribution && u.forward? == some ⟨s, param⟩)
      else pure false

def entryFrom (t : Tables) (param : String) (supplied : Bool) : List SiteId → Checked (Option Entry)
  | [] => pure (if supplied then none else some .root)
  | s :: rest => do
    let site ← t.siteAt s
    match site.argument? param with
    | none => entryFrom t param supplied rest
    | some argument => do
      let relayed ← t.relays s argument param
      if relayed then entryFrom t param true rest else pure (some (.site s))

def chainAt (t : Tables) (l : Link) : Checked (Option Chain) := do
  let u ← t.usage l
  if !u.isForwarded || u.isDistribution then pure none
  else do
    let sites ← t.incomingAt l.node
    let entry ← t.entryFrom l.param false sites
    match entry with
    | none => pure none
    | some entry => do
      let w ← t.followFrom (l :: t.links) l
      pure (some { w with entry })

def chainsAt (t : Tables) : List Link → Checked (List Chain)
  | [] => pure []
  | l :: rest => do
    let c ← t.chainAt l
    let cs ← chainsAt t rest
    pure (c.toList ++ cs)

section Walks
variable {t : Tables} (h : t.Sound) {l : Link}

/-- The parameter is declared. -/
abbrev Declared (t : Tables) (l : Link) : Prop := ∃ p, t.param? l = some p

theorem Declared.node? (hl : t.Declared l) : ∃ node, t.node? l.node = some node := by
  obtain ⟨p, hp⟩ := hl
  obtain ⟨node, hn, -⟩ := Graph.param?_eq_some_iff.1 hp
  exact ⟨node, hn⟩

include h

private theorem Sound.usage_eq {node : Node} (hn : t.node? l.node = some node) (m : Memo) :
    t.usage l m = pure (t.memoUsage l m) := by
  rw [usage, Graph.memoUsage]
  cases m.known? l with
  | some u => rfl
  | none =>
    simp only [h.classify_eq hn, nodeAt_eq hn, pure_bind]
    cases t.toGraph.classify l with
    | ok u => rfl
    | error p => simp [Graph.usageDiagnostic, hn]

theorem Sound.asks_usage (hl : t.Declared l) : Asks t.toGraph t.Declared (t.usage l) (t.usageOf l) := by
  obtain ⟨node, hn⟩ := hl.node?
  obtain ⟨asked, hasked, hrun⟩ := Asks.memoUsage (g := t.toGraph) (P := t.Declared) hl
  exact ⟨asked, hasked, fun m hm => (h.usage_eq hn m).trans (congrArg pure (hrun m hm))⟩

private theorem Sound.nextOf_eq {f : Forward} (hf : f ∈ (t.usageOf l).forwards) : t.nextOf f = pure (t.next? f) := by
  obtain ⟨site, hs⟩ := h.lawful.site?_of_mem_forwards hf
  rw [nextOf, h.calleeOf_eq hs, pure_bind, Graph.next?]

theorem Sound.asks_readerBelow (pool pending : List Link) (hpending : ∀ l ∈ pending, t.Declared l) :
    Asks t.toGraph t.Declared (t.readerBelow pool pending)
      (t.toGraph.readerBelow (m := Id) t.usageOf pool pending) := by
  induction pool, pending using Graph.readerBelow.induct t.toGraph with
  | case1 pool =>
    rw [readerBelow, Graph.readerBelow]
    exact .pure false
  | case2 pool l pending hl ih =>
    obtain ⟨hdeclared, hrest⟩ := List.forall_mem_cons.1 hpending
    rw [readerBelow, Graph.readerBelow, dif_pos hl, dif_pos hl]
    refine (h.asks_usage hdeclared).bind ?_
    change Asks t.toGraph t.Declared _ (if (t.usageOf l).isConsumed then true else _)
    split
    · exact .pure true
    · have hnexts : (t.usageOf l).forwards.mapM t.nextOf = pure ((t.usageOf l).forwards.map t.next?) :=
        mapM_eq_pure fun f hf => h.nextOf_eq hf
      refine (Asks.lift hnexts).bind ?_
      rw [List.filterMap_map, Function.id_comp]
      refine ih _ fun next hnext => ?_
      rcases List.mem_append.1 hnext with hnext | hnext
      · exact h.lawful.next_declared (List.mem_reverse.1 hnext)
      · exact hrest next hnext
  | case3 pool l pending hl ih =>
    rw [readerBelow, Graph.readerBelow, dif_neg hl, dif_neg hl]
    exact ih (List.forall_mem_cons.1 hpending).2

theorem Sound.asks_reachesReader (hl : t.Declared l) :
    Asks t.toGraph t.Declared (t.reachesReader l) (t.isReadBelow l) := by
  obtain ⟨node, hn⟩ := hl.node?
  refine (h.asks_readerBelow _ [l] (by simpa using hl)).bind ?_
  rw [Graph.isReadBelow, Graph.reachesReader]
  cases t.toGraph.readerBelow (m := Id) t.usageOf (l :: t.links) [l] with
  | true => exact .pure true
  | false => exact (Asks.lift (nodeAt_eq hn)).bind (.pure false)

theorem Sound.asks_followFrom (pool : List Link) (l : Link) (hl : t.Declared l) :
    Asks t.toGraph t.Declared (t.followFrom pool l) (t.walkFrom pool l) := by
  induction pool, l using Graph.followFrom.induct with
  | case1 pool l hpool ih =>
    rw [followFrom, Graph.walkFrom_eq, dif_pos hpool, if_pos hpool]
    refine (h.asks_usage hl).bind ?_
    split
    · exact (h.asks_reachesReader hl).bind (.pure _)
    · cases hf : (t.usageOf l).forward? with
      | none => exact .pure _
      | some f =>
        dsimp only
        refine (Asks.lift (h.nextOf_eq (h.lawful.forward?_mem hf))).bind ?_
        cases hnext : t.next? f with
        | none => exact .pure _
        | some next =>
          have hdeclared : t.Declared next :=
            h.lawful.next_declared (List.mem_filterMap.2 ⟨f, h.lawful.forward?_mem hf, hnext⟩)
          exact (ih next hdeclared).bind (.pure _)
  | case2 pool l hpool =>
    rw [followFrom, Graph.walkFrom_eq, dif_neg hpool, if_neg hpool]
    exact .pure _

theorem Sound.asks_relays {s : SiteId} {caller : Node} (hn : t.node? s.caller = some caller) (argument : Expr)
    (param : String) : Asks t.toGraph t.Declared (t.relays s argument param) (t.isRelayedAt s argument param) := by
  unfold relays Graph.isRelayedAt Graph.relays
  cases argument.ident? with
  | none => exact .pure false
  | some name =>
    have hparam : t.param? ⟨s.caller, name⟩ = caller.param? name := by simp [Graph.param?, hn]
    dsimp only
    rw [hparam]
    refine (Asks.lift (nodeAt_eq hn)).bind ?_
    cases hp : caller.param? name with
    | none => exact .pure false
    | some p =>
      dsimp only
      split
      · exact (h.asks_usage ⟨p, hparam.trans hp⟩).bind (.pure _)
      · exact .pure false

theorem Sound.asks_entryFrom (param : String) (supplied : Bool) (sites : List SiteId)
    (hsites : ∀ s ∈ sites, ∃ site, t.site? s = some site) : Asks t.toGraph t.Declared (t.entryFrom param supplied sites)
      (t.toGraph.entryFrom (m := Id) t.usageOf param supplied sites) := by
  induction sites generalizing supplied with
  | nil => exact .pure _
  | cons s rest ih =>
    obtain ⟨⟨site, hs⟩, hrest⟩ := List.forall_mem_cons.1 hsites
    obtain ⟨caller, -, hn, -⟩ := h.lawful.site?_eq_some_iff.1 hs
    have harg : t.argument? s param = site.argument? param := by simp [Graph.argument?, hs]
    rw [entryFrom, Graph.entryFrom, harg]
    refine (Asks.lift (siteAt_eq hs)).bind ?_
    cases site.argument? param with
    | none => exact ih supplied hrest
    | some argument =>
      refine (h.asks_relays hn argument param).bind ?_
      change Asks t.toGraph t.Declared _ (if t.isRelayedAt s argument param then _ else _)
      split
      · exact ih true hrest
      · exact .pure _

theorem Sound.asks_chainAt (hl : t.Declared l) : Asks t.toGraph t.Declared (t.chainAt l) (t.chain? l) := by
  obtain ⟨node, hn⟩ := hl.node?
  unfold chainAt Graph.chain?
  refine (h.asks_usage hl).bind ?_
  split
  · exact .pure none
  · have hentry : Asks t.toGraph t.Declared (t.entryFrom l.param false (t.incomingOf l.node)) (t.entryPoint? l) :=
      h.asks_entryFrom l.param false _ fun s hs => h.lawful.site?_of_mem_incomingOf hs
    refine (Asks.lift (h.incomingAt_eq hn)).bind (hentry.bind ?_)
    cases t.entryPoint? l with
    | none => exact .pure none
    | some entry => exact (h.asks_followFrom _ _ hl).bind (.pure _)

theorem Sound.asks_chainsAt (ls : List Link) (hls : ∀ l ∈ ls, t.Declared l) :
    Asks t.toGraph t.Declared (t.chainsAt ls) (ls.filterMap t.chain?) := by
  induction ls with
  | nil => exact .pure []
  | cons l rest ih =>
    obtain ⟨hl, hrest⟩ := List.forall_mem_cons.1 hls
    have hcons : (l :: rest).filterMap t.chain? = (t.chain? l).toList ++ rest.filterMap t.chain? := by
      cases hc : t.chain? l <;> simp [hc]
    rw [hcons]
    exact (h.asks_chainAt hl).bind ((ih hrest).bind (.pure _))

/-- Tracking raises no fault, finds the chains and records nothing. -/
theorem Sound.chainsAt_run (errors : List Diagnostic) : ∃ after : Memo,
    (t.chainsAt t.reactiveLinks).run { errors } = pure (t.chains, after) ∧ after.errors = errors := by
  have hempty : Memo.Coherent t.toGraph { errors } := fun l u hk => by cases hk
  have hasks := h.asks_chainsAt t.reactiveLinks fun l hl => Graph.param?_isSome_of_mem_reactiveLinks hl
  obtain ⟨after, hrun, -, herrors⟩ := hasks.records_nothing (fun _ => h.lawful.complaint?_eq_none) hempty
  exact ⟨after, hrun, herrors⟩

end Walks

end PassThrough.Tables

import Mathlib.Data.List.Chain
import Mathlib.Data.List.Perm.Subperm
import PassThrough.Proofs.Kind
import PassThrough.Proofs.Reach

/-! Relays, and the runs that they form. The links that qualifying chains pass through are exactly those on some run of
relays that is long enough and ends where the value is needed: every such run extends backwards to one that a chain
starts, because a run with an end never meets a link twice. -/

namespace PassThrough.Graph
variable {g : Graph} {l next start stop : Link} {run : List Link}

/-- The parameter is handed on unchanged, to one function only. -/
def Relay (g : Graph) (l : Link) : Prop := (g.usageOf l).isForwarded = true ∧ (g.usageOf l).fanOut ≤ 1

/-- Where the first forward of a parameter leads. -/
def successor? (g : Graph) (l : Link) : Option Link := (g.usageOf l).forward?.bind g.next?

/-- The value is read at the link, or it is handed to several functions there and read somewhere below. -/
def NeededAt (g : Graph) (l : Link) : Prop :=
  (g.usageOf l).isConsumed = true ∨ (g.usageOf l).isDistribution = true ∧
    ∃ r, Relation.ReflTransGen g.Feeds l r ∧ (g.usageOf r).isConsumed = true

/-- `run` lists relays from `start` on, each the successor of the one before; `stop` is the successor of the last. -/
inductive RelayRun (g : Graph) : Link → List Link → Link → Prop where
  | stop (l : Link) : RelayRun g l [] l
  | step {l next stop : Link} {run : List Link} (hr : g.Relay l) (hs : g.successor? l = some next)
      (hrun : RelayRun g next run stop) : RelayRun g l (l :: run) stop

/-- The link lies on a run of at least `least` relays at whose end the value is needed. -/
def PassedOn (g : Graph) (least : Nat) (l : Link) : Prop :=
  ∃ start run stop, g.RelayRun start run stop ∧ l ∈ run ∧ least ≤ run.length ∧ g.NeededAt stop

theorem relay_iff : g.Relay l ↔ (g.usageOf l).isForwarded = true ∧ (g.usageOf l).isDistribution = false := by
  refine and_congr_right fun hf => ?_
  simp [Usage.isDistribution, hf]

theorem Relay.forward? (h : g.Relay l) : ∃ f, (g.usageOf l).forward? = some f :=
  Option.isSome_iff_exists.1 h.1

theorem Relay.not_consumed (h : g.Relay l) : (g.usageOf l).isConsumed = false := by
  obtain ⟨f, hf⟩ := h.forward?
  simp [Usage.isConsumed, Usage.forward?_eq_some_iff.1 hf]

private theorem NeededAt.not_relay (h : g.NeededAt l) : ¬ g.Relay l := by
  intro hr
  rcases h with hc | ⟨hd, -⟩
  · simp [hr.not_consumed] at hc
  · simp [(relay_iff.1 hr).2] at hd

/-- A relay is a declared parameter of a reactive kind, and its successor is declared. -/
theorem Lawful.relay_declared (h : g.Lawful) (hr : g.Relay l) :
    l ∈ g.reactiveLinks ∧ ∃ next q, g.successor? l = some next ∧ g.param? next = some q := by
  obtain ⟨f, hf⟩ := hr.forward?
  obtain ⟨p, next, q, hp, hnext, hq, hkind, -⟩ := h.next?_of_mem_forwards (h.forward?_mem hf)
  refine ⟨?_, next, q, by simp [successor?, hf, hnext], hq⟩
  obtain ⟨node, hn, hp'⟩ := param?_eq_some_iff.1 hp
  exact mem_reactiveLinks.2 ⟨node, p, hn, List.mem_of_find?_eq_some hp', Kind.isReactive_of_assignableTo hkind,
    by simpa using List.find?_some hp'⟩

theorem Lawful.mem_links_of_relay (h : g.Lawful) (hr : g.Relay l) : l ∈ g.links := by
  obtain ⟨p, hp⟩ := param?_isSome_of_mem_reactiveLinks (h.relay_declared hr).1
  exact mem_links_of_param? hp

theorem Lawful.mem_links_of_successor (h : g.Lawful) (hr : g.Relay l) (hs : g.successor? l = some next) :
    next ∈ g.links := by
  obtain ⟨-, next', q, hs', hq⟩ := h.relay_declared hr
  obtain rfl : next' = next := Option.some.inj (hs'.symm.trans hs)
  exact mem_links_of_param? hq

namespace RelayRun

theorem relay_of_mem (h : g.RelayRun start run stop) : ∀ l ∈ run, g.Relay l := by
  induction h with
  | stop l => simp
  | step hr _ _ ih => exact List.forall_mem_cons.2 ⟨hr, ih⟩

private theorem eq_stop_of_not_relay (h : g.RelayRun start run stop) (hs : ¬ g.Relay start) : run = [] ∧ stop = start := by
  cases h with
  | stop l => exact ⟨rfl, rfl⟩
  | step hr _ _ => exact absurd hr hs

/-- Runs from one link to where relays end are equal. -/
theorem unique {run' : List Link} {stop' : Link} (h : g.RelayRun start run stop) (hstop : ¬ g.Relay stop)
    (h' : g.RelayRun start run' stop') (hstop' : ¬ g.Relay stop') : run = run' ∧ stop = stop' := by
  induction h generalizing run' with
  | stop l =>
    obtain ⟨rfl, rfl⟩ := h'.eq_stop_of_not_relay hstop
    exact ⟨rfl, rfl⟩
  | step hr hs _ ih =>
    cases h' with
    | stop l => exact absurd hr hstop'
    | step hr' hs' hrun' =>
      obtain rfl := Option.some.inj (hs.symm.trans hs')
      obtain ⟨rfl, rfl⟩ := ih hstop hrun'
      exact ⟨rfl, rfl⟩

/-- A run can be taken up at any of its links. -/
theorem from_mem (h : g.RelayRun start run stop) (hl : l ∈ run) :
    ∃ rest, g.RelayRun l (l :: rest) stop ∧ (l :: rest) <:+ run := by
  induction h with
  | stop _ => simp at hl
  | @step first next stop run hr hs hrun ih =>
    rcases List.mem_cons.1 hl with rfl | hl
    · exact ⟨run, .step hr hs hrun, List.suffix_refl _⟩
    · obtain ⟨rest, hrest, hsuffix⟩ := ih hl
      exact ⟨rest, hrest, hsuffix.trans (List.suffix_cons _ _)⟩

/-- Each relay of a run is followed by its successor, and the last one by where the run stops. -/
theorem isChain (h : g.RelayRun start run stop) :
    ((run ++ [stop]).IsChain fun a b => g.successor? a = some b) ∧ (run ++ [stop]).head? = some start := by
  induction h with
  | stop l => exact ⟨.singleton l, rfl⟩
  | @step l next stop run hr hs hrun ih =>
    obtain ⟨hchain, hhead⟩ := ih
    refine ⟨hchain.cons fun k hk => ?_, rfl⟩
    rw [hhead, Option.mem_some_iff] at hk
    exact hk ▸ hs

/-- A run to where relays end meets no link twice. -/
theorem nodup (h : g.RelayRun start run stop) (hstop : ¬ g.Relay stop) : (run ++ [stop]).Nodup := by
  have hrun : run.Nodup := by
    induction h with
    | stop _ => exact .nil
    | @step l next stop run hr hs hrun ih =>
      refine List.nodup_cons.2 ⟨fun hl => ?_, ih hstop⟩
      obtain ⟨rest, hrest, hsuffix⟩ := hrun.from_mem hl
      have heq := (hrest.unique hstop (.step hr hs hrun) hstop).1
      have hlen := hsuffix.length_le
      simp only [heq, List.length_cons] at hlen
      omega
  rw [List.nodup_append]
  refine ⟨hrun, by simp, fun a ha b hb => ?_⟩
  obtain rfl := List.mem_singleton.1 hb
  exact fun heq => hstop (heq ▸ h.relay_of_mem a ha)

theorem mem_pool (hg : g.Lawful) (h : g.RelayRun start run stop) : ∀ l ∈ run ++ [stop], l ∈ start :: g.links := by
  induction h with
  | stop l => simp
  | @step l next stop run hr hs _ ih =>
    intro k hk
    rcases List.mem_cons.1 hk with rfl | hk
    · exact List.mem_cons_self
    · rcases List.mem_cons.1 (ih k hk) with rfl | hlinks
      · exact List.mem_cons_of_mem _ (hg.mem_links_of_successor hr hs)
      · exact List.mem_cons_of_mem _ hlinks

end RelayRun

/-- How a walk ends at a link that is no relay. -/
def stopAt (g : Graph) (l : Link) : Terminal :=
  if (g.usageOf l).isDistribution then if g.isReadBelow l then .distributed l else .unused l
  else if (g.usageOf l).isConsumed then .consumed l else .unused l

theorem link_stopAt (g : Graph) (l : Link) : (g.stopAt l).link = l := by
  simp only [stopAt]
  split <;> split <;> rfl

theorem walkFrom_eq (g : Graph) (pool : List Link) (l : Link) : g.walkFrom pool l =
    if l ∈ pool then
      if (g.usageOf l).isDistribution then ⟨[], if g.isReadBelow l then .distributed l else .unused l⟩
      else match (g.usageOf l).forward? with
        | none => ⟨[], if (g.usageOf l).isConsumed then .consumed l else .unused l⟩
        | some f =>
          match g.next? f with
          | none => ⟨[], .unused l⟩
          | some next => ⟨l :: (g.walkFrom (without pool l) next).links, (g.walkFrom (without pool l) next).terminal⟩
    else ⟨[], .cycle l⟩ := by
  rw [walkFrom, followFrom]
  rfl

theorem walkFrom_of_not_relay {pool : List Link} (hl : l ∈ pool) (hr : ¬ g.Relay l) :
    g.walkFrom pool l = ⟨[], g.stopAt l⟩ := by
  rw [walkFrom_eq, if_pos hl, stopAt]
  split
  · rfl
  · rename_i hd
    cases hf : (g.usageOf l).forward? with
    | none => rfl
    | some f => exact absurd (relay_iff.2 ⟨by simp [Usage.isForwarded, hf], by simpa using hd⟩) hr

theorem walkFrom_of_relay {pool : List Link} (hl : l ∈ pool) (hr : g.Relay l) (hs : g.successor? l = some next) :
    g.walkFrom pool l =
      ⟨l :: (g.walkFrom (without pool l) next).links, (g.walkFrom (without pool l) next).terminal⟩ := by
  obtain ⟨f, hf⟩ := hr.forward?
  have hnext : g.next? f = some next := by simpa [successor?, hf] using hs
  rw [walkFrom_eq, if_pos hl]
  simp [(relay_iff.1 hr).2, hf, hnext]

/-- A walk follows a run as far as its pool reaches. -/
theorem RelayRun.walkFrom_eq (h : g.RelayRun start run stop) (hstop : ¬ g.Relay stop) {pool : List Link}
    (hpool : ∀ l ∈ run ++ [stop], l ∈ pool) (hnodup : (run ++ [stop]).Nodup) :
    g.walkFrom pool start = ⟨run, g.stopAt stop⟩ := by
  induction h generalizing pool with
  | stop l => exact walkFrom_of_not_relay (hpool l (by simp)) hstop
  | @step l next stop run hr hs hrun ih =>
    obtain ⟨hl, hnodup⟩ := List.nodup_cons.1 hnodup
    obtain ⟨hlpool, hpool⟩ := List.forall_mem_cons.1 hpool
    have hrest : ∀ k ∈ run ++ [stop], k ∈ without pool l := by
      intro k hk
      refine mem_without.2 ⟨hpool k hk, ?_⟩
      rintro rfl
      exact hl hk
    rw [walkFrom_of_relay hlpool hr hs, ih hstop hrest hnodup]

theorem RelayRun.walk_eq (hg : g.Lawful) (h : g.RelayRun start run stop) (hstop : ¬ g.Relay stop) :
    g.walk start = ⟨run, g.stopAt stop⟩ :=
  h.walkFrom_eq hstop (h.mem_pool hg) (h.nodup hstop)

/-- What a walk returns is a run, with the end it deserves unless it came back to a link. -/
theorem walkFrom_run (hg : g.Lawful) (pool : List Link) (l : Link) :
    g.RelayRun l (g.walkFrom pool l).links (g.walkFrom pool l).terminal.link ∧
      ((∃ k, (g.walkFrom pool l).terminal = .cycle k) ∨
        ¬ g.Relay (g.walkFrom pool l).terminal.link ∧
          (g.walkFrom pool l).terminal = g.stopAt (g.walkFrom pool l).terminal.link) := by
  induction pool, l using followFrom.induct with
  | case1 pool l hl ih =>
    by_cases hr : g.Relay l
    · obtain ⟨-, next, -, hs, -⟩ := hg.relay_declared hr
      rw [walkFrom_of_relay hl hr hs]
      obtain ⟨hrun, hend⟩ := ih next
      exact ⟨.step hr hs hrun, hend⟩
    · rw [walkFrom_of_not_relay hl hr]
      simp only [link_stopAt]
      exact ⟨.stop l, .inr ⟨hr, trivial⟩⟩
  | case2 pool l hl =>
    rw [Graph.walkFrom_eq, if_neg hl]
    exact ⟨.stop l, .inl ⟨l, rfl⟩⟩

/-- The site binds the parameter, but not along the chain of a caller. -/
def suppliesAfresh (g : Graph) (param : String) (s : SiteId) : Bool :=
  (g.argument? s param).any fun argument => !g.isRelayedAt s argument param

theorem entryFrom_eq (g : Graph) (param : String) (supplied : Bool) (sites : List SiteId) :
    g.entryFrom (m := Id) g.usageOf param supplied sites =
      match sites.find? (g.suppliesAfresh param) with
      | some s => some (.site s)
      | none => if supplied || sites.any fun s => (g.argument? s param).isSome then none else some .root := by
  induction supplied, sites using entryFrom.induct g param with
  | case1 supplied => cases supplied <;> rfl
  | case2 supplied s rest harg ih =>
    simp only [entryFrom, harg, ih, suppliesAfresh, Option.any_none, List.find?_cons, List.any_cons, Option.isSome_none,
      Bool.false_or]
  | case3 supplied s rest argument harg ih =>
    have hstep : g.entryFrom (m := Id) g.usageOf param supplied (s :: rest) =
        if g.isRelayedAt s argument param then g.entryFrom (m := Id) g.usageOf param true rest
        else some (.site s) := by
      simp only [entryFrom, harg]
      rfl
    cases hrel : g.isRelayedAt s argument param with
    | true => simp [hstep, hrel, ih, suppliesAfresh, harg]
    | false => simp [hstep, hrel, suppliesAfresh, harg]

/-- A chain starts at a parameter unless the sites that supply it all do so along the chains of their callers. -/
theorem entryPoint?_eq_none_iff (g : Graph) (l : Link) : g.entryPoint? l = none ↔
    (∃ s ∈ g.incomingOf l.node, (g.argument? s l.param).isSome = true) ∧
      ∀ s ∈ g.incomingOf l.node, g.suppliesAfresh l.param s = false := by
  rw [entryPoint?, entryOf, entryFrom_eq]
  cases hf : (g.incomingOf l.node).find? (g.suppliesAfresh l.param) with
  | some s =>
    simp only [reduceCtorEq, false_iff, not_and]
    intro _ hall
    have := hall s (List.mem_of_find?_eq_some hf)
    simp [List.find?_some hf] at this
  | none =>
    have hall : ∀ s ∈ g.incomingOf l.node, g.suppliesAfresh l.param s = false := by
      simpa using List.find?_eq_none.1 hf
    rw [and_iff_left hall]
    simp [Option.isSome_iff_ne_none]

theorem isRelayedAt_eq (g : Graph) (s : SiteId) (argument : Expr) (param : String) :
    g.isRelayedAt s argument param = argument.ident?.any fun name =>
      ((g.param? ⟨s.caller, name⟩).map Parameter.kind).any fun kind => kind.isReactive &&
        (!(g.usageOf ⟨s.caller, name⟩).isDistribution && (g.usageOf ⟨s.caller, name⟩).forward? == some ⟨s, param⟩) := by
  unfold isRelayedAt relays
  cases argument.ident? with
  | none => rfl
  | some name =>
    rw [Option.any_some]
    dsimp only
    cases g.param? ⟨s.caller, name⟩ with
    | none => rfl
    | some p =>
      rw [Option.map_some, Option.any_some]
      dsimp only
      cases p.kind.isReactive <;> rfl

theorem isRelayedAt_eq_true {s : SiteId} {argument : Expr} {param : String} (h : g.isRelayedAt s argument param = true) :
    ∃ name, argument.ident? = some name ∧ g.Relay ⟨s.caller, name⟩ ∧
      (g.usageOf ⟨s.caller, name⟩).forward? = some ⟨s, param⟩ := by
  simp only [isRelayedAt_eq, Option.any_eq_true, Bool.and_eq_true, Bool.not_eq_true', beq_iff_eq] at h
  obtain ⟨name, hname, kind, -, -, hd, hf⟩ := h
  exact ⟨name, hname, relay_iff.2 ⟨by simp [Usage.isForwarded, hf], hd⟩, hf⟩

/-- Where no chain starts, some relay leads there. -/
theorem Lawful.exists_predecessor (h : g.Lawful) (he : g.entryPoint? l = none) :
    ∃ before, g.Relay before ∧ g.successor? before = some l := by
  obtain ⟨⟨s, hs, harg⟩, hall⟩ := (entryPoint?_eq_none_iff g l).1 he
  obtain ⟨argument, harg⟩ := Option.isSome_iff_exists.1 harg
  have hrel : g.isRelayedAt s argument l.param = true := by simpa [suppliesAfresh, harg] using hall s hs
  obtain ⟨name, -, hr, hf⟩ := isRelayedAt_eq_true hrel
  exact ⟨_, hr, by simp [successor?, hf, next?, h.mem_incomingOf.1 hs]⟩

/-- A run extends backwards to a link at which a chain starts. -/
theorem RelayRun.exists_head (hg : g.Lawful) (h : g.RelayRun start run stop) (hstop : ¬ g.Relay stop) :
    ∃ head earlier, g.RelayRun head (earlier ++ run) stop ∧ (g.entryPoint? head).isSome = true := by
  -- each link added is a relay that the run did not hold, and there are finitely many
  induction hn : g.links.length - run.length using Nat.strong_induction_on generalizing start run with
  | _ n ih =>
    cases he : g.entryPoint? start with
    | some entry => exact ⟨start, [], h, by simp [he]⟩
    | none =>
      obtain ⟨before, hr, hs⟩ := hg.exists_predecessor he
      have hlonger : g.RelayRun before (before :: run) stop := .step hr hs h
      have hsub : (before :: run).length ≤ g.links.length := by
        have hnodup := (List.nodup_append.1 (hlonger.nodup hstop)).1
        exact (hnodup.subperm fun k hk => hg.mem_links_of_relay (hlonger.relay_of_mem k hk)).length_le
      simp only [List.length_cons] at hsub
      obtain ⟨head, earlier, hrun, hhead⟩ := ih (g.links.length - (before :: run).length)
        (by simp only [List.length_cons]; omega) hlonger rfl
      exact ⟨head, earlier ++ [before], by simpa using hrun, hhead⟩

private theorem stopAt_of_needed (hg : g.Lawful) (h : g.NeededAt l) :
    g.stopAt l = .consumed l ∨ g.stopAt l = .distributed l := by
  rcases h with hc | ⟨hd, hread⟩
  · have hd : (g.usageOf l).isDistribution = false := by
      simp [Usage.isDistribution, Usage.isForwarded, Usage.forward?, Usage.isConsumed_iff.1 hc]
    simp [stopAt, hd, hc]
  · simp [stopAt, hd, (hg.isReadBelow_iff l).2 hread]

private theorem needed_of_stopAt (hg : g.Lawful) (h : g.stopAt l = .consumed l ∨ g.stopAt l = .distributed l) :
    g.NeededAt l := by
  simp only [stopAt] at h
  split at h
  · rename_i hd
    split at h
    · rename_i hread
      exact .inr ⟨hd, (hg.isReadBelow_iff l).1 hread⟩
    · simp at h
  · split at h
    · rename_i hc
      exact .inl hc
    · simp at h

/-- The chain that starts at the head of a run passes the run. -/
theorem RelayRun.chain?_eq (hg : g.Lawful) (h : g.RelayRun start run stop) (hstop : ¬ g.Relay stop) (hl : l ∈ run)
    {entry : Entry} (hentry : g.entryPoint? start = some entry) :
    start ∈ g.reactiveLinks ∧ g.chain? start = some { links := run, terminal := g.stopAt stop, entry } := by
  have hrelay : g.Relay start := by
    cases h with
    | stop _ => simp at hl
    | step hr _ _ => exact hr
  obtain ⟨hf, hd⟩ := relay_iff.1 hrelay
  refine ⟨(hg.relay_declared hrelay).1, ?_⟩
  simp [chain?, hf, hd, hentry, h.walk_eq hg hstop]

/-- Where a walk ends and its chain counts as consumed, the value is needed. -/
theorem needed_of_isConsumed (hg : g.Lawful) {c : Chain} (hwalk : c.toWalk = g.walk l) (hc : c.isConsumed = true) :
    g.NeededAt c.terminal.link := by
  have hend := (walkFrom_run hg (l :: g.links) l).2
  rw [show g.walkFrom (l :: g.links) l = c.toWalk from hwalk.symm] at hend
  rcases hend with ⟨k, hcycle⟩ | ⟨-, hstop⟩
  · simp [Chain.isConsumed, hcycle] at hc
  · apply needed_of_stopAt hg
    rw [← hstop]
    simp only [Chain.isConsumed] at hc
    split at hc
    · rename_i hterm
      exact .inl (by rw [hterm]; rfl)
    · rename_i hterm
      exact .inr (by rw [hterm]; rfl)
    · cases hc

/-- The links of the chains that qualify are those that lie on a long enough run to where the value is needed. -/
theorem Lawful.passedOn_iff (h : g.Lawful) (least : Nat) (l : Link) :
    g.PassedOn least l ↔ ∃ c ∈ g.chains, c.qualifies least = true ∧ l ∈ c.links := by
  constructor
  · rintro ⟨start, run, stop, hrun, hl, hleast, hneeded⟩
    have hstop := hneeded.not_relay
    obtain ⟨head, earlier, hlong, hhead⟩ := hrun.exists_head h hstop
    obtain ⟨entry, hentry⟩ := Option.isSome_iff_exists.1 hhead
    have hmem : l ∈ earlier ++ run := List.mem_append_right _ hl
    obtain ⟨hreactive, hchain⟩ := hlong.chain?_eq h hstop hmem hentry
    refine ⟨_, List.mem_filterMap.2 ⟨head, hreactive, hchain⟩, ?_, hmem⟩
    have hlen : least ≤ (earlier ++ run).length := by
      rw [List.length_append]
      omega
    rcases stopAt_of_needed h hneeded with he | he <;> simpa [Chain.qualifies, Chain.isConsumed, he] using hlen
  · rintro ⟨c, hc, hq, hl⟩
    obtain ⟨head, -, -, hwalk⟩ := exists_of_mem_chains hc
    simp only [Chain.qualifies, Bool.and_eq_true, decide_eq_true_eq] at hq
    have hrun := (walkFrom_run h (head :: g.links) head).1
    rw [show g.walkFrom (head :: g.links) head = c.toWalk from hwalk.symm] at hrun
    exact ⟨head, c.links, c.terminal.link, hrun, hl, hq.2, needed_of_isConsumed h hwalk hq.1⟩

/-- The links of a chain are a run of relays to its terminal, where the value is needed if the chain counts as consumed. -/
theorem Lawful.chain_run (h : g.Lawful) {c : Chain} (hc : c ∈ g.chains) :
    (∃ start, g.RelayRun start c.links c.terminal.link) ∧ (c.isConsumed = true → g.NeededAt c.terminal.link) := by
  obtain ⟨head, -, -, hwalk⟩ := exists_of_mem_chains hc
  have hrun := (walkFrom_run h (head :: g.links) head).1
  rw [show g.walkFrom (head :: g.links) head = c.toWalk from hwalk.symm] at hrun
  exact ⟨⟨head, hrun⟩, needed_of_isConsumed h hwalk⟩

end PassThrough.Graph

import PassThrough.Proofs.Loop
import PassThrough.Proofs.Relay

/-! Following a parameter. The walk stops at a link that it has passed before, and this cuts nothing short: it does so exactly
when the walk along first forwards would go on for ever, and otherwise both come to the same end. -/

namespace PassThrough

/-- How the walk ends: where it comes back to a link, there is a cycle. -/
def LinkLoop.Stop.terminal : LinkLoop.Stop Terminal → Terminal
  | .result t => t
  | .repeated l => .cycle l

theorem Usage.classification_of_isDistribution {u : Usage} (h : u.isDistribution = true) :
    ∃ f, u.classification = .forwarded f := by
  have hforwarded : u.isForwarded = true := (Bool.and_eq_true_iff.1 h).1
  obtain ⟨f, hf⟩ := Option.isSome_iff_exists.1 hforwarded
  exact ⟨f, Usage.forward?_eq_some_iff.1 hf⟩

namespace Graph
open Loop
variable {g : Graph} {l next : Link}

/-- The walk along first forwards: a round ends at a distribution point or where nothing is handed on, and goes to the
successor otherwise. -/
def onward (g : Graph) : LinkLoop Link Terminal where
  link := .again
  next := fun l =>
    match if (g.usageOf l).isDistribution then none else g.successor? l with
    | some next => .again next
    | none => .done (g.stopAt l)

theorem onward_next_of_relay (hr : g.Relay l) (hs : g.successor? l = some next) : g.onward.next l = .again next := by
  simp [onward, (relay_iff.1 hr).2, hs]

theorem onward_next_of_not_relay (hr : ¬ g.Relay l) : g.onward.next l = .done (g.stopAt l) := by
  have hnone : (if (g.usageOf l).isDistribution then none else g.successor? l) = none := by
    split
    · rfl
    · rename_i hd
      cases hf : (g.usageOf l).forward? with
      | none => rw [successor?, hf, Option.bind_none]
      | some f => exact absurd (relay_iff.2 ⟨by simp [Usage.isForwarded, hf], by simpa using hd⟩) hr
  simp [onward, hnone]

/-- The walk goes on at relays only. -/
theorem onward_next_eq_again (h : g.onward.next l = .again next) : g.Relay l ∧ g.successor? l = some next := by
  by_cases hr : g.Relay l
  · refine ⟨hr, ?_⟩
    cases hs : g.successor? l with
    | none => simp [onward, (relay_iff.1 hr).2, hs] at h
    | some next' =>
      rw [onward_next_of_relay hr hs] at h
      rw [Round.again.inj h]
  · rw [onward_next_of_not_relay hr] at h
    cases h

/-- The walk with a pool is the guarded loop. -/
theorem Lawful.walkFrom_eq_run (h : g.Lawful) (pool : List Link) (l : Link) :
    g.walkFrom pool l = ⟨(g.onward.run pool l).1, (g.onward.run pool l).2.terminal⟩ := by
  induction pool, l using followFrom.induct with
  | case1 pool l hl ih =>
    by_cases hr : g.Relay l
    · obtain ⟨-, next, -, hs, -⟩ := h.relay_declared hr
      rw [walkFrom_of_relay hl hr hs, ih next, LinkLoop.run_of_next rfl hl (onward_next_of_relay hr hs)]
    · rw [walkFrom_of_not_relay hl hr, LinkLoop.run_of_last rfl hl (onward_next_of_not_relay hr)]
      rfl
  | case2 pool l hl =>
    rw [walkFrom_eq, if_neg hl, LinkLoop.run_of_met rfl hl]
    rfl

/-- Behind its start the walk only ever comes to declared parameters. -/
theorem Lawful.onward_within (h : g.Lawful) (start : Link) : g.onward.Within start (start :: g.links) := by
  intro met s l htrail hlink
  obtain rfl : s = l := Round.again.inj hlink
  cases htrail with
  | start => exact List.mem_cons_self
  | step _ _ _ hnext =>
    obtain ⟨hr, hs⟩ := onward_next_eq_again hnext
    exact List.mem_cons_of_mem _ (h.mem_links_of_successor hr hs)

private theorem Lawful.onward_free_eq_done (h : g.Lawful) {t : Terminal} (hfree : g.onward.free l = .done t) :
    ¬ g.Relay l ∧ t = g.stopAt l := by
  rw [LinkLoop.free_of_link (l := l) rfl] at hfree
  by_cases hr : g.Relay l
  · obtain ⟨-, next, -, hs, -⟩ := h.relay_declared hr
    rw [onward_next_of_relay hr hs] at hfree
    cases hfree
  · rw [onward_next_of_not_relay hr] at hfree
    exact ⟨hr, (Round.done.inj hfree).symm⟩

/-- The walk comes back to one of its links and the walk along first forwards never ends, or both end alike, at a link that is
no relay. -/
theorem Lawful.walk_ends (h : g.Lawful) (start : Link) :
    (∃ l, (g.walk start).terminal = .cycle l ∧ l ∈ (g.walk start).links ∧ NeverEnds g.onward.free start) ∨
      ∃ l, (g.walk start).terminal = g.stopAt l ∧ ¬ g.Relay l ∧ EndsWith g.onward.free start (g.stopAt l) := by
  have hwithin := h.onward_within start
  have hwalk : g.walk start = _ := h.walkFrom_eq_run (start :: g.links) start
  cases hstop : (g.onward.run (start :: g.links) start).2 with
  | repeated l =>
    obtain ⟨hl, hnever⟩ := hwithin.neverEnds_of_repeated hstop
    rw [hwalk, hstop]
    exact .inl ⟨l, rfl, hl, hnever⟩
  | result t =>
    obtain ⟨l, -, hlast⟩ := hwithin.exists_trail
    rw [hstop] at hlast
    obtain ⟨hr, rfl⟩ := h.onward_free_eq_done hlast
    rw [hwalk, hstop]
    exact .inr ⟨l, rfl, hr, hwithin.endsWith_of_result hstop⟩

/-- How a walk ends at a link that is no relay. -/
theorem Lawful.stopAt_cases (h : g.Lawful) (hr : ¬ g.Relay l) :
    ((g.usageOf l).isDistribution = true ∧ g.ReadBelow l ∧ g.stopAt l = .distributed l) ∨
      ((g.usageOf l).isDistribution = true ∧ ¬ g.ReadBelow l ∧ g.stopAt l = .unused l) ∨
      ((g.usageOf l).classification = .consumed ∧ g.stopAt l = .consumed l) ∨
      ((g.usageOf l).classification = .unused ∧ g.stopAt l = .unused l) := by
  cases hd : (g.usageOf l).isDistribution with
  | true =>
    by_cases hread : g.ReadBelow l
    · exact .inl ⟨rfl, hread, by simp [stopAt, hd, (h.isReadBelow_iff_readBelow l).2 hread]⟩
    · have hnot : g.isReadBelow l = false := Bool.eq_false_iff.2 (mt (h.isReadBelow_iff_readBelow l).1 hread)
      exact .inr (.inl ⟨rfl, hread, by simp [stopAt, hd, hnot]⟩)
  | false =>
    refine .inr (.inr ?_)
    cases hc : (g.usageOf l).classification with
    | consumed => exact .inl ⟨rfl, by simp [stopAt, hd, Usage.isConsumed, hc]⟩
    | unused => exact .inr ⟨rfl, by simp [stopAt, hd, Usage.isConsumed, hc]⟩
    | forwarded f =>
      have hf : (g.usageOf l).isForwarded = true := by simp [Usage.isForwarded, Usage.forward?, hc]
      exact absurd (relay_iff.2 ⟨hf, hd⟩) hr

/-- The terminal says what becomes of the value at its link: it is read there, it is handed to several functions below which
it is read, or it is dropped. -/
structure Fits (g : Graph) (t : Terminal) : Prop where
  consumed_iff : (∃ l, t = .consumed l) ↔ (g.usageOf t.link).classification = .consumed
  distributed_iff : (∃ l, t = .distributed l) ↔ (g.usageOf t.link).isDistribution = true ∧ g.ReadBelow t.link
  unused_iff : (∃ l, t = .unused l) ↔ (g.usageOf t.link).classification = .unused ∨
    (g.usageOf t.link).isDistribution = true ∧ ¬ g.ReadBelow t.link

private theorem fits_cycle (hr : g.Relay l) : g.Fits (.cycle l) := by
  obtain ⟨f, hf⟩ := hr.forward?
  have hclass := Usage.forward?_eq_some_iff.1 hf
  have hd := (relay_iff.1 hr).2
  constructor <;> simp [Terminal.link, hclass, hd]

private theorem Lawful.fits_stopAt (h : g.Lawful) (hr : ¬ g.Relay l) : g.Fits (g.stopAt l) := by
  rcases h.stopAt_cases hr with ⟨hd, hread, hend⟩ | ⟨hd, hread, hend⟩ | ⟨hc, hend⟩ | ⟨hu, hend⟩
  · obtain ⟨f, hf⟩ := Usage.classification_of_isDistribution hd
    constructor <;> simp [hend, Terminal.link, hd, hf, hread]
  · obtain ⟨f, hf⟩ := Usage.classification_of_isDistribution hd
    constructor <;> simp [hend, Terminal.link, hd, hf, hread]
  · have hd : (g.usageOf l).isDistribution = false := by
      simp [Usage.isDistribution, Usage.isForwarded, Usage.forward?, hc]
    constructor <;> simp [hend, Terminal.link, hd, hc]
  · have hd : (g.usageOf l).isDistribution = false := by
      simp [Usage.isDistribution, Usage.isForwarded, Usage.forward?, hu]
    constructor <;> simp [hend, Terminal.link, hd, hu]

/-- At a distribution point the terminal tells whether the value is read below. -/
theorem Fits.of_distribution {t : Terminal} (ht : g.Fits t) (hd : (g.usageOf t.link).isDistribution = true) :
    (t = .distributed t.link ↔ g.ReadBelow t.link) ∧ (t = .unused t.link ↔ ¬ g.ReadBelow t.link) := by
  obtain ⟨f, hf⟩ := Usage.classification_of_isDistribution hd
  have hdistributed : t = .distributed t.link ↔ ∃ l, t = .distributed l := by
    refine ⟨fun h => ⟨_, h⟩, ?_⟩
    rintro ⟨l, rfl⟩
    rfl
  have hunused : t = .unused t.link ↔ ∃ l, t = .unused l := by
    refine ⟨fun h => ⟨_, h⟩, ?_⟩
    rintro ⟨l, rfl⟩
    rfl
  rw [hdistributed, hunused, ht.distributed_iff, ht.unused_iff]
  simp [hd, hf]

/-- The walk from a link: relays, no two of them the same, each followed by its successor; how it ends; and that it ends as
the walk along first forwards does, or comes back to one of its links if that walk never ends. -/
structure WalksFrom (g : Graph) (start : Link) (w : Walk) : Prop where
  distinct : w.links.Nodup
  relays : ∀ l ∈ w.links, g.Relay l
  starts : (w.links ++ [w.terminal.link]).head? = some start
  follows : (w.links ++ [w.terminal.link]).IsChain fun a b => g.successor? a = some b
  fits : g.Fits w.terminal
  cycle_iff : (∃ l, w.terminal = .cycle l) ↔ NeverEnds g.onward.free start
  cycle_mem : ∀ l, w.terminal = .cycle l → l ∈ w.links
  ends : ∀ t, EndsWith g.onward.free start t → w.terminal = t
  terminates : ∃ stop, rounds g.onward.guarded (w.links.length + 1) ([], start) = .done (w.links, stop) ∧
    w.terminal = stop.terminal
  bounded : w.links.length ≤ g.links.toFinset.card

theorem Lawful.walksFrom (h : g.Lawful) (start : Link) : g.WalksFrom start (g.walk start) := by
  have hwithin := h.onward_within start
  have hwalk : g.walk start = _ := h.walkFrom_eq_run (start :: g.links) start
  have hrun : g.RelayRun start (g.walk start).links (g.walk start).terminal.link := (walkFrom_run h _ start).1
  have hdistinct : (g.walk start).links.Nodup := by
    rw [hwalk]
    exact hwithin.run_nodup
  have hdeclared : (g.walk start).links ⊆ g.links := fun l hl => h.mem_links_of_relay (hrun.relay_of_mem l hl)
  have hterminates : ∃ stop, rounds g.onward.guarded ((g.walk start).links.length + 1) ([], start) =
      .done ((g.walk start).links, stop) ∧ (g.walk start).terminal = stop.terminal := by
    rw [hwalk]
    exact ⟨_, hwithin.rounds_guarded, rfl⟩
  have hend : g.Fits (g.walk start).terminal ∧ ((∃ l, (g.walk start).terminal = .cycle l) ↔ NeverEnds g.onward.free start) ∧
      (∀ l, (g.walk start).terminal = .cycle l → l ∈ (g.walk start).links) ∧
      ∀ t, EndsWith g.onward.free start t → (g.walk start).terminal = t := by
    rcases h.walk_ends start with ⟨l, hcycle, hl, hnever⟩ | ⟨l, hstop, hr, hends⟩
    · refine ⟨hcycle ▸ fits_cycle (hrun.relay_of_mem l hl), iff_of_true ⟨l, hcycle⟩ hnever, fun k hk => ?_, fun t ht => ?_⟩
      · obtain rfl : l = k := Terminal.cycle.inj (hcycle.symm.trans hk)
        exact hl
      · exact absurd hnever ht.not_neverEnds
    · have hnone : ∀ k, (g.walk start).terminal ≠ .cycle k := by
        intro k hk
        rcases h.stopAt_cases hr with ⟨-, -, hs⟩ | ⟨-, -, hs⟩ | ⟨-, hs⟩ | ⟨-, hs⟩ <;> simp [hstop, hs] at hk
      refine ⟨hstop ▸ h.fits_stopAt hr, iff_of_false (fun ⟨k, hk⟩ => hnone k hk) hends.not_neverEnds,
        fun k hk => absurd hk (hnone k), fun t ht => ?_⟩
      rw [hstop]
      exact hends.unique ht
  exact ⟨hdistinct, hrun.relay_of_mem, hrun.isChain.2, hrun.isChain.1, hend.1, hend.2.1, hend.2.2.1, hend.2.2.2, hterminates,
    length_le_card_of_nodup hdistinct hdeclared⟩

/-- Following a parameter, declared or not, with a memory that is right: the walk goes along first forwards from relay to
relay, ends where these end and as its last link deserves, and comes back to one of its links exactly when they never end. It
passes each declared parameter at most once. -/
theorem follow_refines_unbounded_walk (v : Vocabulary) (marker : String) (files : List SourceFile) (m : Memo) (start : Link)
    (hm : m.Coherent (build v marker files).1) :
    let g := (build v marker files).1
    g.WalksFrom start ((g.follow g.memoUsage start).run m).1 := by
  intro g
  rw [hm.follow_run]
  exact (build_lawful v marker files).walksFrom start

end Graph

/-- Two panels that hand their state to one another, with a memory that holds the usage of the second one. -/
theorem Graph.follow_refines_unbounded_walk_back_and_forth :
    let panels := [Sample.relay "Ping" (Sample.reader "Pong"), Sample.relay "Pong" (Sample.reader "Ping")]
    let g := (Graph.build {} "Composable" [⟨"a.kt", panels⟩]).1
    let m := Memo.asking g {} [⟨1, "count"⟩]
    let w := ((g.follow g.memoUsage ⟨0, "count"⟩).run m).1
    m.Coherent g ∧ w.terminal = .cycle ⟨0, "count"⟩ ∧ Loop.NeverEnds g.onward.free ⟨0, "count"⟩ := by
  intro panels g m w
  have hm : m.Coherent g := (Memo.coherent_new g []).asking _
  have hw : g.WalksFrom ⟨0, "count"⟩ w :=
    Graph.follow_refines_unbounded_walk {} "Composable" [⟨"a.kt", panels⟩] m ⟨0, "count"⟩ hm
  have hcycle : w.terminal = .cycle ⟨0, "count"⟩ := by decide +kernel
  exact ⟨hm, hcycle, hw.cycle_iff.1 ⟨_, hcycle⟩⟩

end PassThrough

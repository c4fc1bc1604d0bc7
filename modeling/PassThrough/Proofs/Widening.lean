import PassThrough.Proofs.Heads
import PassThrough.Proofs.Search

/-! Kinds along chains. A parameter is only handed on to one that accepts its kind, so along a chain, and along every path of
forwards below a distribution point, kinds can only widen: a value holder never becomes a stream, and what has been passed as
read-only is never asked for as mutable again. -/

namespace PassThrough
namespace Graph
open Loop
variable {g : Graph} {a b c d l next : Link} {links : List Link}

/-- Both links are declared, and a value of the first kind may be passed where the second is expected. -/
def Widens (g : Graph) (a b : Link) : Prop :=
  ∃ p q, g.param? a = some p ∧ g.param? b = some q ∧ p.kind.assignableTo q.kind = true

theorem Widens.trans (hab : g.Widens a b) (hbc : g.Widens b c) : g.Widens a c := by
  obtain ⟨p, q, hp, hq, hpq⟩ := hab
  obtain ⟨q', r, hq', hr, hqr⟩ := hbc
  obtain rfl : q = q' := Option.some.inj (hq.symm.trans hq')
  exact ⟨p, r, hp, hr, Kind.assignableTo_trans hpq hqr⟩

instance (g : Graph) : Trans g.Widens g.Widens g.Widens where
  trans := Widens.trans

/-- A declared parameter of a reactive kind. -/
def Reactive (g : Graph) (l : Link) : Prop := ∃ p, g.param? l = some p ∧ p.kind.isReactive = true

private theorem Widens.reactive_right (h : g.Widens a b) : g.Reactive b := by
  obtain ⟨p, q, -, hq, hpq⟩ := h
  exact ⟨q, hq, Kind.isReactive_of_assignableTo_right hpq⟩

/-- Along the links, which are declared and reactive, the kind of an earlier one may always be passed where that of a later one
is expected. So all are value holders or all are streams, and no mutable kind comes after one that is not. -/
structure KindsWiden (g : Graph) (links : List Link) : Prop where
  reactive : ∀ l ∈ links, g.Reactive l
  widens : links.Pairwise g.Widens
  family : links.Pairwise fun a b => ∀ p q, g.param? a = some p → g.param? b = some q →
    p.kind.isStream = q.kind.isStream ∧ p.kind.isValueHolder = q.kind.isValueHolder
  readOnly : links.Pairwise fun a b => ∀ p q, g.param? a = some p → g.param? b = some q → p.kind.isMutable = false →
    q.kind.isMutable = false

private theorem KindsWiden.of_pairwise (hreactive : ∀ l ∈ links, g.Reactive l) (h : links.Pairwise g.Widens) :
    g.KindsWiden links where
  reactive := hreactive
  widens := h
  family := by
    refine h.imp ?_
    rintro a b ⟨p, q, hp, hq, hpq⟩ p' q' hp' hq'
    obtain rfl : p = p' := Option.some.inj (hp.symm.trans hp')
    obtain rfl : q = q' := Option.some.inj (hq.symm.trans hq')
    exact Kind.family_eq_of_assignableTo hpq
  readOnly := by
    refine h.imp ?_
    rintro a b ⟨p, q, hp, hq, hpq⟩ p' q' hp' hq' hreadOnly
    obtain rfl : p = p' := Option.some.inj (hp.symm.trans hp')
    obtain rfl : q = q' := Option.some.inj (hq.symm.trans hq')
    cases hm : q.kind.isMutable with
    | false => rfl
    | true => rw [Kind.isMutable_of_assignableTo hpq hm] at hreadOnly; cases hreadOnly

namespace Lawful

/-- A forward leads to a parameter that accepts the kind. -/
theorem widens_of_feeds (h : g.Lawful) (hab : g.Feeds a b) : g.Widens a b := by
  obtain ⟨f, hf, hnext⟩ := List.mem_filterMap.1 hab
  obtain ⟨p, next, q, hp, hnext', hq, hkind, -⟩ := h.next?_of_mem_forwards hf
  obtain rfl : next = b := Option.some.inj (hnext'.symm.trans hnext)
  exact ⟨p, q, hp, hq, hkind⟩

/-- What is handed on is reactive: nothing else is accepted anywhere. -/
theorem reactive_of_isForwarded (h : g.Lawful) (hl : (g.usageOf l).isForwarded = true) : g.Reactive l := by
  obtain ⟨f, hf⟩ := Option.isSome_iff_exists.1 hl
  obtain ⟨p, next, q, hp, hnext, hq, hkind, -⟩ := h.next?_of_mem_forwards (h.forward?_mem hf)
  exact ⟨p, hp, Kind.isReactive_of_assignableTo hkind⟩

/-- Kinds widen along every path of forwards. -/
theorem kindsWiden_of_isChain (h : g.Lawful) (hfirst : g.Reactive a) (hpath : (a :: links).IsChain g.Feeds) :
    g.KindsWiden (a :: links) := by
  have hpairwise : (a :: links).Pairwise g.Widens :=
    List.isChain_iff_pairwise.1 (hpath.imp fun _ _ => h.widens_of_feeds)
  refine .of_pairwise (List.forall_mem_cons.2 ⟨hfirst, fun l hl => ?_⟩) hpairwise
  exact ((List.pairwise_cons.1 hpairwise).1 l hl).reactive_right

private theorem kindsWiden_of_chain (h : g.Lawful) {chain : Chain} (hc : chain ∈ g.chains) :
    g.KindsWiden (chain.links ++ [chain.terminal.link]) := by
  obtain ⟨start, -, hchain⟩ := List.mem_filterMap.1 hc
  obtain ⟨hhead, hrun, -⟩ := h.chain?_eq_some hchain
  cases hlinks : chain.links with
  | nil => simp [hlinks] at hhead
  | cons first rest =>
    rw [hlinks] at hrun
    have hrelay := hrun.relay_of_mem first List.mem_cons_self
    exact h.kindsWiden_of_isChain (h.reactive_of_isForwarded hrelay.1)
      (hrun.isChain.1.imp fun _ _ => h.feeds_of_successor)

end Lawful

/-- A round of the search goes from links below the start to links below it. -/
theorem reaches_of_searchRound {met pending met' pending' : List Link}
    (hround : g.searchRound (met, pending) = .again (met', pending'))
    (hbelow : ∀ l ∈ met ++ pending, Relation.ReflTransGen g.Feeds d l) :
    ∀ l ∈ met' ++ pending', Relation.ReflTransGen g.Feeds d l := by
  cases pending with
  | nil => cases hround
  | cons first pending =>
    have hfirst := hbelow first (List.mem_append_right _ List.mem_cons_self)
    simp only [searchRound] at hround
    split at hround
    · cases hround
      exact fun l hl => hbelow l (((List.sublist_cons_self _ _).append_left _).subset hl)
    · split at hround
      · cases hround
      · cases hround
        intro l hl
        simp only [List.mem_append, List.mem_cons, List.mem_reverse, or_assoc] at hl
        rcases hl with rfl | hmet | hnext | hpending
        · exact hfirst
        · exact hbelow l (List.mem_append_left _ hmet)
        · exact hfirst.tail hnext
        · exact hbelow l (List.mem_append_right _ (List.mem_cons_of_mem _ hpending))

/-- Every link that the search comes to lies below the link where it starts. -/
theorem reaches_of_rounds {met pending met' pending' : List Link} {n : Nat}
    (hrounds : rounds g.searchRound n (met, pending) = .again (met', pending'))
    (hbelow : ∀ l ∈ met ++ pending, Relation.ReflTransGen g.Feeds d l) :
    ∀ l ∈ met' ++ pending', Relation.ReflTransGen g.Feeds d l := by
  induction n generalizing met pending with
  | zero =>
    obtain ⟨rfl, rfl⟩ := Prod.mk.inj (Round.again.inj hrounds)
    exact hbelow
  | succ n ih =>
    cases hround : g.searchRound (met, pending) with
    | done found =>
      rw [rounds_succ_of_done hround] at hrounds
      cases hrounds
    | again state =>
      rw [rounds_succ_of_again hround] at hrounds
      exact ih hrounds (reaches_of_searchRound hround hbelow)

/-- A forward behind a path of forwards makes a longer path. -/
theorem exists_path_of_reaches (hreach : Relation.ReflTransGen g.Feeds d l) (hnext : g.Feeds l next) :
    ∃ path, (d :: path).IsChain g.Feeds ∧ [l, next] <:+ d :: path := by
  induction hreach generalizing next with
  | refl => exact ⟨[next], by simpa using hnext, List.suffix_refl _⟩
  | @tail b c _ hbc ih =>
    obtain ⟨path, hpath, before, hbefore⟩ := ih hbc
    have hlonger : d :: (path ++ [next]) = (before ++ [b]) ++ [c, next] := by
      rw [← List.cons_append, ← hbefore]
      simp
    refine ⟨path ++ [next], ?_, before ++ [b], hlonger.symm⟩
    rw [hlonger, List.isChain_append_cons_cons, List.append_assoc, List.singleton_append, hbefore]
    exact ⟨hpath, hnext, .singleton next⟩

/-- Kinds only widen. They do so along each chain that tracking finds, with a memory that is right, up to its terminal, and
along every path of forwards below a distribution point; each forward that the search below such a point takes up lies at the
end of one. A kind widens from mutable to read-only and from a hot stream to a stream. -/
theorem track_kinds_widen (v : Vocabulary) (marker : String) (files : List SourceFile) (m : Memo)
    (hm : m.Coherent (build v marker files).1) :
    let g := (build v marker files).1
    (∀ k k' : Kind, k.assignableTo k' = true ↔ k.isReactive = true ∧ Relation.ReflTransGen Kind.Widens k k') ∧
      (∀ chain ∈ ((g.track g.memoUsage).run m).1, g.KindsWiden (chain.links ++ [chain.terminal.link])) ∧
      ∀ d, (g.usageOf d).isDistribution = true →
        (∀ path, (d :: path).IsChain g.Feeds → g.KindsWiden (d :: path)) ∧
        EndsWith g.searchRound ([], [d]) ((g.reachesReader g.memoUsage d).run m).1 ∧
        ∀ n met pending, rounds g.searchRound n ([], [d]) = .again (met, pending) → ∀ l ∈ met, ∀ next, g.Feeds l next →
          ∃ path, (d :: path).IsChain g.Feeds ∧ [l, next] <:+ d :: path := by
  intro g
  have h : g.Lawful := build_lawful v marker files
  refine ⟨fun k k' => Kind.assignableTo_iff_widens, fun chain hc => ?_, fun d hd => ⟨fun path => ?_, ?_, ?_⟩⟩
  · rw [hm.track_run] at hc
    exact h.kindsWiden_of_chain hc
  · exact h.kindsWiden_of_isChain (h.reactive_of_isForwarded (Bool.and_eq_true_iff.1 hd).1)
  · rw [hm.reachesReader_run]
    exact ⟨_, h.search_ends d⟩
  · intro n met pending hrounds l hl next hnext
    have hbelow := reaches_of_rounds (d := d) hrounds (by simp [Relation.ReflTransGen.refl])
    exact exists_path_of_reaches (hbelow l (List.mem_append_left _ hl)) hnext

end Graph

/-- A function that builds UI from one piece of state of the given type. -/
def Sample.declareAs (type name : String) (body : List Stmt) : FunctionDecl :=
  { declare name body with params := [{ name := "count", type := some { name := type } }] }

/-- A root and a panel that may change their state, and a screen that may only read it. The panel hands it on to the screen,
this to a card and a label, and the card to the label, which reads it. -/
def Sample.narrowing : List SourceFile :=
  let pass (next : FunctionDecl) : Stmt := .expr (.callTo next.toFunctionHeader [.positional (.name "count")])
  let label := reader "Label"
  let card := relay "Card" label
  let screen := declare "Screen" [pass card, pass label]
  let panel := declareAs "MutableState" "Panel" [pass screen]
  [⟨"a.kt", [declareAs "MutableState" "Root" [pass panel], panel, screen, card, label]⟩]

theorem Graph.track_kinds_widen_narrowing :
    let g := (build {} "Composable" Sample.narrowing).1
    let m : Memo := {}
    (∃ chain ∈ ((g.track g.memoUsage).run m).1, chain.links = [⟨0, "count"⟩, ⟨1, "count"⟩] ∧
        chain.terminal.link = ⟨2, "count"⟩ ∧ g.KindsWiden [⟨0, "count"⟩, ⟨1, "count"⟩, ⟨2, "count"⟩]) ∧
      (g.usageOf ⟨2, "count"⟩).isDistribution = true ∧ g.KindsWiden [⟨2, "count"⟩, ⟨3, "count"⟩, ⟨4, "count"⟩] ∧
      (g.param? ⟨1, "count"⟩).map Parameter.kind = some .mutableValueHolder ∧
      (g.param? ⟨2, "count"⟩).map Parameter.kind = some .valueHolder := by
  intro g m
  have hg : g.Lawful := build_lawful {} "Composable" Sample.narrowing
  have hm : m.Coherent g := Memo.coherent_new g []
  have hroot : g.Relay ⟨0, "count"⟩ := by
    rw [relay_iff]
    decide +kernel
  have hpanel : g.Relay ⟨1, "count"⟩ := by
    rw [relay_iff]
    decide +kernel
  have hscreen : (g.usageOf ⟨2, "count"⟩).isDistribution = true := by decide +kernel
  have hstop : ¬ g.Relay ⟨2, "count"⟩ := by simp [relay_iff, hscreen]
  have hrun : g.RelayRun ⟨0, "count"⟩ [⟨0, "count"⟩, ⟨1, "count"⟩] ⟨2, "count"⟩ :=
    .step hroot (by decide +kernel) (.step hpanel (by decide +kernel) (.stop _))
  have hentry : g.entryPoint? ⟨0, "count"⟩ = some .root := by decide +kernel
  obtain ⟨hreactive, hchain⟩ := hrun.chain?_eq hg hstop List.mem_cons_self hentry
  have hpath : [⟨2, "count"⟩, ⟨3, "count"⟩, ⟨4, "count"⟩].IsChain g.Feeds := by
    unfold Feeds
    decide +kernel
  obtain ⟨-, hwiden, hbelow⟩ := track_kinds_widen {} "Composable" Sample.narrowing m hm
  have hmem : ⟨⟨[⟨0, "count"⟩, ⟨1, "count"⟩], g.stopAt ⟨2, "count"⟩⟩, .root⟩ ∈ ((g.track g.memoUsage).run m).1 := by
    rw [hm.track_run]
    exact List.mem_filterMap.2 ⟨_, hreactive, hchain⟩
  have hlink := link_stopAt g ⟨2, "count"⟩
  have hkinds := hwiden _ hmem
  rw [hlink] at hkinds
  exact ⟨⟨_, hmem, rfl, hlink, hkinds⟩, hscreen, (hbelow _ hscreen).1 _ hpath, by decide +kernel, by decide +kernel⟩

end PassThrough

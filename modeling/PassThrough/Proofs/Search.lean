import Mathlib.Data.List.Flatten
import PassThrough.Proofs.Forward

/-! The search below a distribution point. It keeps a stack of links and those it has met, takes up each forward at most
once, and answers whether a path of forwards leads through parameters that are not read to one that is. -/

namespace PassThrough
namespace Graph
open Loop
variable {g : Graph} {l : Link}

/-- One round of the search: it takes a link from the stack, passes over it if it was met before, ends if it is read, and
puts what it is forwarded to on the stack otherwise. -/
def searchRound (g : Graph) : List Link × List Link → Round (List Link × List Link) Bool
  | (_, []) => .done false
  | (met, l :: pending) =>
    if l ∈ met then .again (met, pending)
    else if (g.usageOf l).isConsumed then .done true
    else .again (l :: met, ((g.usageOf l).forwards.filterMap g.next?).reverse ++ pending)

/-- All forwards of some links. -/
def forwardsOf (g : Graph) (links : List Link) : List Forward := links.flatMap fun l => (g.usageOf l).forwards

theorem length_forwardsOf_cons (g : Graph) (a : Link) (rest : List Link) :
    (g.forwardsOf (a :: rest)).length = (g.usageOf a).forwards.length + (g.forwardsOf rest).length := by
  rw [forwardsOf, List.flatMap_cons, List.length_append, forwardsOf]

/-- The forwards of a link that is met are spent. -/
theorem length_forwardsOf_without {pool : List Link} (hl : l ∈ pool) :
    (g.forwardsOf (without pool l)).length + (g.usageOf l).forwards.length ≤ (g.forwardsOf pool).length := by
  induction pool with
  | nil => cases hl
  | cons a rest ih =>
    by_cases ha : a = l
    · subst ha
      have hdrop : without (a :: rest) a = without rest a := by simp [without]
      have hrest : (g.forwardsOf (without rest a)).length ≤ (g.forwardsOf rest).length :=
        (List.filter_sublist.flatMap _).length_le
      rw [hdrop, length_forwardsOf_cons]
      omega
    · have hkeep : without (a :: rest) l = a :: without rest l := by simp [without, ha]
      have hrest := ih ((List.mem_cons.1 hl).resolve_left (Ne.symm ha))
      rw [hkeep, length_forwardsOf_cons, length_forwardsOf_cons]
      omega

/-- The rounds of the search come to the answer of the search with a pool, which holds the links not met. -/
theorem Lawful.rounds_searchRound (h : g.Lawful) {all : List Link} (hlinks : g.links ⊆ all) (met pool pending : List Link)
    (hpending : pending ⊆ all) (hpool : ∀ l ∈ all, l ∈ pool ↔ l ∉ met) :
    rounds g.searchRound (pending.length + (g.forwardsOf pool).length + 1) (met, pending) =
      .done (g.readerBelow (m := Id) g.usageOf pool pending) := by
  induction pool, pending using readerBelow.induct g generalizing met with
  | case1 pool =>
    have hround : g.searchRound (met, []) = .done false := rfl
    rw [rounds_succ_of_done hround, readerBelow]
    rfl
  | case2 pool l pending hl ih =>
    obtain ⟨hlall, hrest⟩ := List.cons_subset.1 hpending
    have hnew : l ∉ met := (hpool l hlall).1 hl
    rw [readerBelow_cons, if_pos hl]
    cases hc : (g.usageOf l).isConsumed with
    | true =>
      have hround : g.searchRound (met, l :: pending) = .done true := by simp [searchRound, hnew, hc]
      rw [rounds_succ_of_done hround]
      rfl
    | false =>
      have hround : g.searchRound (met, l :: pending) =
          .again (l :: met, ((g.usageOf l).forwards.filterMap g.next?).reverse ++ pending) := by
        simp [searchRound, hnew, hc]
      have hnexts : ((g.usageOf l).forwards.filterMap g.next?).reverse ++ pending ⊆ all := by
        refine List.append_subset.2 ⟨fun k hk => ?_, hrest⟩
        exact hlinks (h.mem_links_of_feeds (List.mem_reverse.1 hk))
      have hpool' : ∀ k ∈ all, k ∈ without pool l ↔ k ∉ l :: met := by
        intro k hk
        rw [mem_without, hpool k hk, List.mem_cons, not_or, and_comm]
      rw [rounds_succ_of_again hround]
      refine rounds_of_le (ih _ _ hnexts hpool') ?_
      have hspent := length_forwardsOf_without (g := g) hl
      have hle := List.length_filterMap_le g.next? (g.usageOf l).forwards
      rw [List.length_append, List.length_reverse, List.length_cons]
      omega
  | case3 pool l pending hl ih =>
    obtain ⟨hlall, hrest⟩ := List.cons_subset.1 hpending
    have hmet : l ∈ met := by simpa [hl] using hpool l hlall
    have hround : g.searchRound (met, l :: pending) = .again (met, pending) := by simp [searchRound, hmet]
    rw [readerBelow_cons, if_neg hl, List.length_cons, rounds_succ_of_again hround]
    refine rounds_of_le (ih _ hrest hpool) ?_
    omega

/-- The search below a link ends: with one round for the link, one for each forward, and one to see that the stack is empty. -/
theorem Lawful.search_ends (h : g.Lawful) (l : Link) :
    rounds g.searchRound ((g.forwardsOf (l :: g.links)).length + 2) ([], [l]) = .done (g.isReadBelow l) := by
  have hrounds := h.rounds_searchRound (List.subset_cons_self l g.links) [] (l :: g.links) [l] (by simp) (by simp)
  rw [List.length_singleton, Nat.add_comm 1] at hrounds
  exact hrounds

/-- The search below a link, with a memory that is right. It takes up each forward at most once and ends, and it finds a reader
exactly when a path of forwards leads through links that are not read to one that is. So a walk or a chain that ends at a
distribution point ends as distributed if there is such a reader, and as unused otherwise. -/
theorem reachesReader_iff_readBelow (v : Vocabulary) (marker : String) (files : List SourceFile) (m : Memo) (l : Link)
    (hm : m.Coherent (build v marker files).1) :
    let g := (build v marker files).1
    let found := ((g.reachesReader g.memoUsage l).run m).1
    rounds g.searchRound ((g.forwardsOf (l :: g.links)).length + 2) ([], [l]) = .done found ∧
      (found = true ↔ g.ReadBelow l) ∧
      ∀ w : Walk, ((∃ start, w = ((g.follow g.memoUsage start).run m).1) ∨
          ∃ c ∈ ((g.track g.memoUsage).run m).1, w = c.toWalk) →
        w.terminal.link = l → (g.usageOf l).isDistribution = true →
          (w.terminal = .distributed l ↔ g.ReadBelow l) ∧ (w.terminal = .unused l ↔ ¬ g.ReadBelow l) := by
  intro g found
  have h : g.Lawful := build_lawful v marker files
  have hfound : found = g.isReadBelow l := hm.reachesReader_run l
  refine ⟨hfound ▸ h.search_ends l, hfound ▸ h.isReadBelow_iff_readBelow l, ?_⟩
  intro w hw hlink hd
  obtain ⟨start, rfl⟩ : ∃ start, w = g.walk start := by
    rcases hw with ⟨start, rfl⟩ | ⟨c, hc, rfl⟩
    · exact ⟨start, hm.follow_run start⟩
    · rw [hm.track_run] at hc
      obtain ⟨start, -, -, hwalk⟩ := exists_of_mem_chains hc
      exact ⟨start, hwalk⟩
  subst hlink
  exact (h.walksFrom start).fits.of_distribution hd

end Graph

/-- A screen that hands its state on to a card, and to a panel that hands it back; the label below the card reads it. -/
def Sample.looping : List SourceFile :=
  let label := reader "Label"
  let card := relay "Card" label
  let panel := relay "Panel" (reader "Screen")
  let pass (next : FunctionDecl) : Stmt := .expr (.callTo next.toFunctionHeader [.positional (.name "count")])
  let screen := declare "Screen" [pass card, pass panel]
  [⟨"a.kt", [relay "Root" screen, screen, panel, card, label]⟩]

theorem Graph.reachesReader_iff_readBelow_looping :
    let g := (build {} "Composable" Sample.looping).1
    let m : Memo := {}
    (g.usageOf ⟨1, "count"⟩).isDistribution = true ∧ ((g.reachesReader g.memoUsage ⟨1, "count"⟩).run m).1 = true ∧
      ((g.follow g.memoUsage ⟨0, "count"⟩).run m).1.terminal = .distributed ⟨1, "count"⟩ := by
  intro g m
  have hm : m.Coherent g := Memo.coherent_new g []
  have hscreen : (g.usageOf ⟨1, "count"⟩).isDistribution = true := by decide +kernel
  have hcard : g.FeedsUnread ⟨1, "count"⟩ ⟨3, "count"⟩ := ⟨by decide +kernel, by unfold Feeds; decide +kernel⟩
  have hlabel : g.FeedsUnread ⟨3, "count"⟩ ⟨4, "count"⟩ := ⟨by decide +kernel, by unfold Feeds; decide +kernel⟩
  have hread : g.ReadBelow ⟨1, "count"⟩ := ⟨⟨4, "count"⟩, .head hcard (.single hlabel), by decide +kernel⟩
  have hroot : g.Relay ⟨0, "count"⟩ := by
    rw [relay_iff]
    decide +kernel
  have hstop : ¬ g.Relay ⟨1, "count"⟩ := by simp [relay_iff, hscreen]
  have hrun : g.RelayRun ⟨0, "count"⟩ [⟨0, "count"⟩] ⟨1, "count"⟩ := .step hroot (by decide +kernel) (.stop _)
  obtain ⟨-, hfound, hends⟩ := reachesReader_iff_readBelow {} "Composable" Sample.looping m ⟨1, "count"⟩ hm
  have hlink : ((g.follow g.memoUsage ⟨0, "count"⟩).run m).1.terminal.link = ⟨1, "count"⟩ := by
    rw [hm.follow_run, hrun.walk_eq (build_lawful _ _ _) hstop, link_stopAt]
  exact ⟨hscreen, hfound.2 hread, (hends _ (.inl ⟨_, rfl⟩) hlink hscreen).1.2 hread⟩

end PassThrough

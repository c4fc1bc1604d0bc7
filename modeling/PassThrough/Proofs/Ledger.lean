import Mathlib.Algebra.BigOperators.Group.List.Basic
import Mathlib.Algebra.GroupWithZero.Nat
import PassThrough.Proofs.Analysis

/-! Runs of calls to a reporter. Each call adds the findings of those links of its chain that no call before it has seen, so
that the findings are known call by call; and since each link counts once, the totals do not depend on the order of the
calls. -/

namespace PassThrough

namespace Graph
variable {g : Graph}

/-- A walk passes no link twice, also when it comes back to one. -/
theorem walkFrom_links (hg : g.Lawful) (pool : List Link) (l : Link) :
    (g.walkFrom pool l).links.Nodup ∧ ∀ k ∈ (g.walkFrom pool l).links, k ∈ pool := by
  induction pool, l using followFrom.induct with
  | case1 pool l hl ih =>
    by_cases hr : g.Relay l
    · obtain ⟨-, next, -, hs, -⟩ := hg.relay_declared hr
      obtain ⟨hnodup, hpool⟩ := ih next
      rw [walkFrom_of_relay hl hr hs]
      refine ⟨List.nodup_cons.2 ⟨fun hmem => (mem_without.1 (hpool l hmem)).2 rfl, hnodup⟩, ?_⟩
      exact List.forall_mem_cons.2 ⟨hl, fun k hk => (mem_without.1 (hpool k hk)).1⟩
    · rw [walkFrom_of_not_relay hl hr]
      simp
  | case2 pool l hl =>
    rw [walkFrom_eq, if_neg hl]
    simp

/-- The links of a chain are declared and distinct. -/
theorem Lawful.chain_links (h : g.Lawful) {c : Chain} (hc : c ∈ g.chains) :
    c.links.Nodup ∧ ∀ l ∈ c.links, (g.param? l).isSome = true := by
  obtain ⟨l, -, -, hwalk⟩ := exists_of_mem_chains hc
  have hlinks : c.links = (g.walkFrom (l :: g.links) l).links := congrArg Walk.links hwalk
  rw [hlinks]
  refine ⟨(walkFrom_links h _ l).1, fun k hk => ?_⟩
  obtain ⟨⟨start, hrun⟩, -⟩ := h.chain_run hc
  have hrelay := hrun.relay_of_mem k (hlinks ▸ hk)
  obtain ⟨p, hp⟩ := param?_isSome_of_mem_reactiveLinks (h.relay_declared hrelay).1
  rw [hp, Option.isSome_some]

end Graph

namespace Reporter
variable {r : Reporter}

/-- The findings of a call: one for each link of the chain that is not among those seen before and whose function is not
suppressed, in the order of the links. -/
def newFindings (g : Graph) (d : Detection) (seen : List Link) (call : Chain × Option Origin) : List Finding :=
  ((stepsOf g call.1).filter fun x => !seen.contains x.1).filterMap (findingAt? g d (call.1.path g) call.2)

/-- The findings of a run of calls, call by call: what a call has seen before is what the chains of the calls before it
hold. -/
def ledger (g : Graph) (d : Detection) (calls : List (Chain × Option Origin)) : List (List Finding) :=
  (withEarlier [] calls).map fun (earlier, call) => newFindings g d (linksOf earlier) call

private theorem fresh_eq_filter {xs : List (Link × String)} (h : (xs.map Prod.fst).Nodup) (seen : List Link) :
    fresh seen xs = xs.filter fun x => !seen.contains x.1 := by
  induction xs generalizing seen with
  | nil => rfl
  | cons x rest ih =>
    obtain ⟨hx, hrest⟩ := List.nodup_cons.1 h
    have hsame : rest.filter (fun y => !(seen ++ [x.1]).contains y.1) = rest.filter fun y => !seen.contains y.1 := by
      refine List.filter_congr fun y hy => ?_
      have hne : y.1 ≠ x.1 := fun heq => hx (heq ▸ List.mem_map_of_mem hy)
      simp [hne]
    rw [fresh, List.filter_cons]
    cases hseen : seen.contains x.1 with
    | true => simpa using ih hrest seen
    | false => simpa using (ih hrest (seen ++ [x.1])).trans hsame

private theorem newFindings_congr (g : Graph) (d : Detection) {seen seen' : List Link} (h : ∀ l, l ∈ seen ↔ l ∈ seen')
    (call : Chain × Option Origin) : newFindings g d seen call = newFindings g d seen' call := by
  have hcontains : ∀ l, seen.contains l = seen'.contains l := fun l => by
    rw [List.contains_eq_mem, List.contains_eq_mem, decide_eq_decide.2 (h l)]
  simp only [newFindings, hcontains]

/-- What a call adds, for a chain that passes no link twice. -/
theorem added_eq_newFindings (r : Reporter) {c : Chain} (hc : c.links.Nodup) (origin : Option Origin) :
    r.added c origin = newFindings r.graph r.detection r.reported (c, origin) := by
  rw [added, newFindings, fresh_eq_filter (by rwa [map_fst_stepsOf])]

private theorem report_emitted (r : Reporter) (c : Chain) (origin : Option Origin) :
    (r.report c origin).2 = (r.added c origin).length := by
  have hfindings := congrArg Reporter.findings (report_eq r c origin)
  have hemitted : (r.report c origin).2 = (r.report c origin).1.findings.length - r.findings.length := rfl
  rw [hemitted, hfindings, List.length_append, Nat.add_sub_cancel_left]

-- `before` are the calls that led to `r`.
private theorem run_eq_ledger (before calls : List (Chain × Option Origin)) (r : Reporter)
    (hchains : ∀ call ∈ calls, call.1.links.Nodup) (hseen : ∀ l, l ∈ r.reported ↔ l ∈ linksOf before) :
    let entries := (withEarlier before calls).map fun (earlier, call) =>
      newFindings r.graph r.detection (linksOf earlier) call
    (r.run calls).1.findings = r.findings ++ entries.flatten ∧ (r.run calls).2 = entries.map List.length ∧
      (r.run calls).1.reportedChains = r.reportedChains + entries.countP fun found => !found.isEmpty := by
  induction calls generalizing before r with
  | nil => simp [run, withEarlier]
  | cons call rest ih =>
    obtain ⟨c, origin⟩ := call
    obtain ⟨hc, hrest⟩ := List.forall_mem_cons.1 hchains
    have hafter : ∀ l, l ∈ (r.report c origin).1.reported ↔ l ∈ linksOf (before ++ [(c, origin)]) := by
      intro l
      rw [mem_reported_report, hseen]
      simp [linksOf]
    have hadded : r.added c origin = newFindings r.graph r.detection (linksOf before) (c, origin) := by
      rw [added_eq_newFindings r hc, newFindings_congr _ _ hseen]
    obtain ⟨hfindings, hemitted, hreported⟩ := ih (before ++ [(c, origin)]) (r.report c origin).1 hrest hafter
    have hgraph : (r.report c origin).1.graph = r.graph := by rw [report_eq]
    have hdetection : (r.report c origin).1.detection = r.detection := by rw [report_eq]
    rw [hgraph, hdetection] at hfindings hemitted hreported
    simp only [run, withEarlier, List.map_cons, ← hadded]
    refine ⟨?_, ?_, ?_⟩
    · rw [hfindings, report_eq, List.flatten_cons, List.append_assoc]
    · rw [hemitted, report_emitted]
    · rw [hreported, report_eq, List.countP_cons]
      cases (r.added c origin).isEmpty <;> simp
      omega

private theorem fresh_eq_nil {seen : List Link} {xs : List (Link × String)} (h : ∀ x ∈ xs, x.1 ∈ seen) :
    fresh seen xs = [] := by
  induction xs with
  | nil => rfl
  | cons x rest ih =>
    obtain ⟨hx, hrest⟩ := List.forall_mem_cons.1 h
    rw [fresh, if_pos (by simpa using hx), ih hrest]

/-- A chain whose links have all been reported changes nothing. -/
theorem report_eq_self (r : Reporter) (c : Chain) (origin : Option Origin) (h : ∀ l ∈ c.links, l ∈ r.reported) :
    r.report c origin = (r, 0) := by
  have hfresh : fresh r.reported (stepsOf r.graph c) = [] :=
    fresh_eq_nil fun x hx => h x.1 (map_fst_stepsOf r.graph c ▸ List.mem_map_of_mem hx)
  have hadded : r.added c origin = [] := by rw [added, hfresh, List.filterMap_nil]
  refine Prod.ext ?_ (by rw [report_emitted, hadded, List.length_nil])
  rw [report_eq, hfresh, hadded]
  simp

namespace Balanced

/-- Every reported link that is declared counts once, as a finding or as a suppressed one. -/
theorem length_findings_add_suppressed (h : r.Balanced) (hdeclared : ∀ l ∈ r.reported, (r.graph.param? l).isSome = true) :
    r.findings.length + r.suppressed = r.reported.length := by
  have hfindings : r.findings.length = r.reported.countP fun l => !r.graph.isSilenced r.detection.suppressionIds l := by
    rw [← List.length_map (f := Finding.pair), h.findings_eq, List.length_filterMap_eq_countP]
    refine List.countP_congr fun l hl => ?_
    rw [Bool.not_eq_true', ← Bool.not_eq_true, Graph.isSilenced_eq_true_iff, Option.isSome_iff_exists]
    simp only [Graph.pair?_eq_some_iff, hdeclared l hl, true_and]
    constructor
    · rintro ⟨-, hs, -⟩
      exact hs
    · intro hs
      obtain ⟨p, hp⟩ := Option.isSome_iff_exists.1 (hdeclared l hl)
      obtain ⟨node, hn, -⟩ := Graph.param?_eq_some_iff.1 hp
      exact ⟨(node.id, l.param), hs, node, hn, rfl⟩
  rw [hfindings, h.suppressed_eq, Nat.add_comm]
  have hsplit := List.length_eq_countP_add_countP (r.graph.isSilenced r.detection.suppressionIds) (l := r.reported)
  simpa using hsplit.symm

private theorem nodup_pairs (h : r.Balanced) (hg : r.graph.Lawful) : (r.findings.map Finding.pair).Nodup := by
  rw [h.findings_eq]
  exact h.nodup.filterMap fun l l' pair hl hl' =>
    hg.names_unique (Graph.pair?_eq_some_iff.1 hl).2.2 (Graph.pair?_eq_some_iff.1 hl').2.2

/-- Reporters of one graph that have seen the same links have found the same pairs and suppressed as many. -/
theorem perm_pairs {r' : Reporter} (h : r.Balanced) (h' : r'.Balanced) (hgraph : r'.graph = r.graph)
    (hdetection : r'.detection = r.detection) (hmem : ∀ l, l ∈ r'.reported ↔ l ∈ r.reported) :
    (r'.findings.map Finding.pair).Perm (r.findings.map Finding.pair) ∧ r'.suppressed = r.suppressed := by
  have hperm : r'.reported.Perm r.reported := (List.perm_ext_iff_of_nodup h'.nodup h.nodup).2 hmem
  rw [h.findings_eq, h'.findings_eq, h.suppressed_eq, h'.suppressed_eq, hgraph, hdetection]
  exact ⟨hperm.filterMap _, hperm.countP_eq _⟩

end Balanced

/-- The accounts after any run of calls on chains that tracking has found: no parameter has two findings; findings and
suppressed ones together number the distinct links of the chains; which pairs are found and how many are suppressed does not
depend on the order of the calls; the counts returned add up to the number of findings; a chain reported again changes
nothing; the findings are those of the ledger, call by call; and the chains counted are the calls that found something. -/
theorem run_accounts (v : Vocabulary) (marker : String) (files : List SourceFile) (d : Detection)
    (calls : List (Chain × Option Origin)) :
    let built := Graph.build v marker files
    let g := built.1
    let run := Reporter.run { graph := g, detection := d }
    let after := (run calls).1
    let emitted := (run calls).2
    (∀ call ∈ calls, call.1 ∈ ((g.track g.memoUsage).run { errors := built.2 }).1) →
      (after.findings.map Finding.pair).Nodup ∧
      after.findings.length + after.suppressed = (linksOf calls).toFinset.card ∧
      (∀ calls', calls'.Perm calls → ((run calls').1.findings.map Finding.pair).Perm (after.findings.map Finding.pair) ∧
        (run calls').1.suppressed = after.suppressed) ∧
      emitted.sum = after.findings.length ∧
      (∀ call ∈ calls, ∀ origin, after.report call.1 origin = (after, 0)) ∧
      after.findings = (ledger g d calls).flatten ∧ emitted = (ledger g d calls).map List.length ∧
      after.reportedChains = emitted.countP (0 < ·) := by
  intro built g run after emitted hcalls
  have hg : g.Lawful := Graph.build_lawful v marker files
  have hchains : ∀ call ∈ calls, call.1 ∈ g.chains := fun call hc => (hg.track_run built.2).1 ▸ hcalls call hc
  obtain ⟨hb, hgraph, hdetection, hmem⟩ := (balanced_new g d).run calls
  have hreported : ∀ l, l ∈ after.reported ↔ l ∈ linksOf calls := fun l => by simpa using hmem l
  have hdeclared : ∀ l ∈ after.reported, (after.graph.param? l).isSome = true := by
    intro l hl
    obtain ⟨call, hc, hlinks⟩ := List.mem_flatMap.1 ((hreported l).1 hl)
    exact hgraph ▸ (hg.chain_links (hchains call hc)).2 l hlinks
  obtain ⟨hfindings, hemitted, hcount⟩ := run_eq_ledger [] calls { graph := g, detection := d }
    (fun call hc => (hg.chain_links (hchains call hc)).1) (by simp [linksOf])
  have hledger : after.findings = (ledger g d calls).flatten := hfindings.trans (List.nil_append _)
  have hlengths : emitted = (ledger g d calls).map List.length := hemitted
  refine ⟨hb.nodup_pairs (hgraph ▸ hg), ?_, ?_, ?_, ?_, hledger, hlengths, ?_⟩
  · rw [hb.length_findings_add_suppressed hdeclared, ← List.toFinset_card_of_nodup hb.nodup]
    exact congrArg Finset.card (Finset.ext fun l => by simpa using hreported l)
  · intro calls' hperm
    obtain ⟨hb', hgraph', hdetection', hmem'⟩ := (balanced_new g d).run calls'
    refine hb.perm_pairs hb' (hgraph'.trans hgraph.symm) (hdetection'.trans hdetection.symm) fun l => ?_
    rw [hmem', hmem]
    exact or_congr_right (hperm.flatMap_right _).mem_iff
  · rw [hlengths, hledger, List.length_flatten]
  · intro call hc origin
    exact report_eq_self after call.1 origin fun l hl => (hreported l).2 (List.mem_flatMap.2 ⟨call, hc, hl⟩)
  · rw [hlengths, List.countP_map]
    refine (hcount.trans (Nat.zero_add _)).trans (List.countP_congr fun found _ => ?_)
    simp [List.length_pos_iff]

end Reporter

/-- Two screens that hand their state on to one panel, which hands it on to a label. -/
def Sample.sharedPanel : List SourceFile :=
  let label := reader "Label"
  let panel := relay "Panel" label
  [⟨"a.kt", [relay "First" panel, relay "Second" panel, panel, label]⟩]

/-- The chain from one of the two screens to the label. -/
def Sample.screenChain (screen : NodeId) : Chain where
  links := [⟨screen, "count"⟩, ⟨2, "count"⟩]
  terminal := .consumed ⟨3, "count"⟩
  entry := .root

theorem Reporter.run_accounts_shared_panel :
    let built := Graph.build {} "Composable" Sample.sharedPanel
    let calls := [(Sample.screenChain 1, none), (Sample.screenChain 0, none), (Sample.screenChain 1, none)]
    let after := (Reporter.run { graph := built.1, detection := {} } calls).1
    (∀ call ∈ calls, call.1 ∈ ((built.1.track built.1.memoUsage).run { errors := built.2 }).1) ∧
      after.findings.length + after.suppressed = 3 ∧ ∀ origin, after.report (Sample.screenChain 0) origin = (after, 0) := by
  intro built calls after
  have hcalls : ∀ call ∈ calls, call.1 ∈ ((built.1.track built.1.memoUsage).run { errors := built.2 }).1 := by
    decide +kernel
  obtain ⟨-, htotal, -, -, hagain, -⟩ := run_accounts {} "Composable" Sample.sharedPanel {} calls hcalls
  exact ⟨hcalls, htotal.trans (by decide), hagain (Sample.screenChain 0, none) (by decide)⟩

end PassThrough

import Mathlib.Data.List.Nodup
import PassThrough.Analysis

/-! The accounts of a reporter. Each call appends what is fresh in its chain, so after any run the findings and the count
of suppressed ones are read off the list of links reported, in which no link stands twice. -/

namespace PassThrough

/-- The function and the parameter that a finding is about. -/
def Finding.pair (f : Finding) : FunctionId × String := (f.function, f.parameter)

namespace Graph

/-- The link is declared in a function whose findings are suppressed. -/
def isSilenced (g : Graph) (ids : List String) (l : Link) : Bool :=
  (g.node? l.node).any fun node => (node.param? l.param).isSome && node.decl.isSuppressed ids

/-- The function and the parameter to report for a link, if there is something to report. -/
def pair? (g : Graph) (ids : List String) (l : Link) : Option (FunctionId × String) :=
  (g.node? l.node).bind fun node =>
    if (node.param? l.param).isSome && !node.decl.isSuppressed ids then some (node.id, l.param) else none

end Graph

namespace Reporter
variable {r : Reporter} {path : List String} {origin : Option Origin}

/-- The links that were not seen before, each once. -/
def fresh (seen : List Link) : List (Link × String) → List (Link × String)
  | [] => []
  | x :: rest => if seen.contains x.1 then fresh seen rest else x :: fresh (seen ++ [x.1]) rest

theorem fresh_subset (seen : List Link) (xs : List (Link × String)) : ∀ x ∈ fresh seen xs, x ∈ xs := by
  induction xs generalizing seen with
  | nil => simp [fresh]
  | cons x rest ih =>
    intro y hy
    simp only [fresh] at hy
    split at hy
    · exact List.mem_cons_of_mem x (ih _ y hy)
    · rcases List.mem_cons.1 hy with rfl | hy
      · exact List.mem_cons_self
      · exact List.mem_cons_of_mem x (ih _ y hy)

/-- The finding that a fresh link gives. -/
def findingAt? (g : Graph) (d : Detection) (path : List String) (origin : Option Origin) (x : Link × String) :
    Option Finding :=
  (g.node? x.1.node).bind fun node => (node.param? x.1.param).bind fun p =>
    if node.decl.isSuppressed d.suppressionIds then none
    else some ⟨d.severity, p.location, p.name, p.kind, node.id, x.2, path, origin⟩

/-- A run over links appends the findings of the fresh ones and counts those that are silenced. -/
theorem foldl_reportLink (r : Reporter) (path : List String) (origin : Option Origin) (xs : List (Link × String)) :
    xs.foldl (reportLink path origin) r =
      { r with
        reported := r.reported ++ (fresh r.reported xs).map Prod.fst
        findings := r.findings ++ (fresh r.reported xs).filterMap (findingAt? r.graph r.detection path origin)
        suppressed := r.suppressed +
          (fresh r.reported xs).countP fun x => r.graph.isSilenced r.detection.suppressionIds x.1 } := by
  induction xs generalizing r with
  | nil => simp [fresh]
  | cons x rest ih =>
    obtain ⟨l, next⟩ := x
    rw [List.foldl_cons, ih]
    by_cases hseen : l ∈ r.reported
    · simp [reportLink, fresh, hseen]
    · cases hn : r.graph.node? l.node with
      | none => simp [reportLink, fresh, hseen, findingAt?, Graph.isSilenced, hn]
      | some node =>
        cases hp : node.param? l.param with
        | none => simp [reportLink, fresh, hseen, findingAt?, Graph.isSilenced, hn, hp]
        | some p =>
          by_cases hs : node.decl.isSuppressed r.detection.suppressionIds = true
          · simp [reportLink, fresh, hseen, findingAt?, Graph.isSilenced, hn, hp, hs]
            omega
          · simp [reportLink, fresh, hseen, findingAt?, Graph.isSilenced, hn, hp, hs, finding]

/-- The links of a chain with the names of the functions that they lead to. -/
def stepsOf (g : Graph) (c : Chain) : List (Link × String) := c.links.zip (c.path g).tail

theorem map_fst_stepsOf (g : Graph) (c : Chain) : (stepsOf g c).map Prod.fst = c.links := by
  rw [stepsOf, List.map_fst_zip]
  simp [Chain.path]

/-- The findings that a call adds. -/
def added (r : Reporter) (c : Chain) (origin : Option Origin) : List Finding :=
  (fresh r.reported (stepsOf r.graph c)).filterMap (findingAt? r.graph r.detection (c.path r.graph) origin)

/-- What one call does. -/
theorem report_eq (r : Reporter) (c : Chain) (origin : Option Origin) : (r.report c origin).1 =
    { r with
      reported := r.reported ++ (fresh r.reported (stepsOf r.graph c)).map Prod.fst
      findings := r.findings ++ r.added c origin
      suppressed := r.suppressed + (fresh r.reported (stepsOf r.graph c)).countP fun x =>
        r.graph.isSilenced r.detection.suppressionIds x.1
      reportedChains := r.reportedChains + if (r.added c origin).isEmpty then 0 else 1 } := by
  have hfold := foldl_reportLink r (c.path r.graph) origin (stepsOf r.graph c)
  rw [stepsOf] at hfold
  simp only [report, hfold, List.length_append, Nat.add_sub_cancel_left]
  congr 3
  simp [added, stepsOf, List.isEmpty_iff]

private theorem nodup_append_fresh {seen : List Link} (h : seen.Nodup) (xs : List (Link × String)) :
    (seen ++ (fresh seen xs).map Prod.fst).Nodup := by
  induction xs generalizing seen with
  | nil => simpa [fresh] using h
  | cons x rest ih =>
    simp only [fresh]
    split
    · exact ih h
    · rename_i hx
      have hseen : (seen ++ [x.1]).Nodup := by
        rw [List.nodup_append]
        refine ⟨h, by simp, fun a ha b hb heq => hx ?_⟩
        obtain rfl := List.mem_singleton.1 hb
        simpa [heq] using ha
      simpa using ih hseen

private theorem mem_append_fresh (seen : List Link) (xs : List (Link × String)) (l : Link) :
    l ∈ seen ++ (fresh seen xs).map Prod.fst ↔ l ∈ seen ∨ l ∈ xs.map Prod.fst := by
  induction xs generalizing seen with
  | nil => simp [fresh]
  | cons x rest ih =>
    simp only [fresh]
    split
    · rename_i hx
      have hx' : x.1 ∈ seen := by simpa using hx
      rw [ih, List.map_cons, List.mem_cons]
      constructor
      · exact fun h => h.imp_right .inr
      · rintro (h | rfl | h)
        · exact .inl h
        · exact .inl hx'
        · exact .inr h
    · have := ih (seen ++ [x.1])
      simp only [List.append_assoc, List.singleton_append, List.mem_append, List.mem_cons, List.map_cons] at this ⊢
      rw [this]
      tauto

/-- Findings and suppressed ones are accounted for by the links reported, each of which stands once. -/
structure Balanced (r : Reporter) : Prop where
  nodup : r.reported.Nodup
  findings_eq : r.findings.map Finding.pair = r.reported.filterMap (r.graph.pair? r.detection.suppressionIds)
  suppressed_eq : r.suppressed = r.reported.countP (r.graph.isSilenced r.detection.suppressionIds)

theorem balanced_new (g : Graph) (d : Detection) : Balanced { graph := g, detection := d } := ⟨.nil, rfl, rfl⟩

private theorem map_pair_findingAt? (g : Graph) (d : Detection) (path : List String) (origin : Option Origin)
    (x : Link × String) : (findingAt? g d path origin x).map Finding.pair = g.pair? d.suppressionIds x.1 := by
  cases hn : g.node? x.1.node with
  | none => simp [findingAt?, Graph.pair?, hn]
  | some node =>
    cases hp : node.param? x.1.param with
    | none => simp [findingAt?, Graph.pair?, hn, hp]
    | some p =>
      have hname : p.name = x.1.param := by simpa using List.find?_some hp
      simp only [findingAt?, Graph.pair?, hn, hp, Option.bind_some]
      cases node.decl.isSuppressed d.suppressionIds <;> simp [Finding.pair, hname]

theorem Balanced.report (h : r.Balanced) (c : Chain) (origin : Option Origin) : (r.report c origin).1.Balanced := by
  rw [report_eq]
  refine ⟨nodup_append_fresh h.nodup _, ?_, ?_⟩
  · simp only [List.map_append, List.filterMap_append, h.findings_eq, added, List.map_filterMap, List.filterMap_map]
    congr 1
    exact List.filterMap_congr fun x _ => map_pair_findingAt? _ _ _ _ x
  · simp only [List.countP_append, List.countP_map, h.suppressed_eq]
    rfl

theorem mem_reported_report (r : Reporter) (c : Chain) (origin : Option Origin) (l : Link) :
    l ∈ (r.report c origin).1.reported ↔ l ∈ r.reported ∨ l ∈ c.links := by
  rw [report_eq]
  simp only [mem_append_fresh, map_fst_stepsOf]

/-- The reporter after a run of calls, and the counts that the calls return. -/
def run (r : Reporter) : List (Chain × Option Origin) → Reporter × List Nat
  | [] => (r, [])
  | (c, origin) :: rest =>
    let called := r.report c origin
    let after := called.1.run rest
    (after.1, called.2 :: after.2)

/-- The links of the chains of a run of calls. -/
def linksOf (calls : List (Chain × Option Origin)) : List Link := calls.flatMap (·.1.links)

private theorem linksOf_cons (call : Chain × Option Origin) (rest : List (Chain × Option Origin)) :
    linksOf (call :: rest) = call.1.links ++ linksOf rest :=
  List.flatMap_cons

private theorem run_eq_foldl (originOf : Chain → Option Origin) (cs : List Chain) (r : Reporter) :
    (r.run (cs.map fun c => (c, originOf c))).1 = cs.foldl (fun r c => (r.report c (originOf c)).1) r := by
  induction cs generalizing r with
  | nil => rfl
  | cons c rest ih => exact ih (r.report c (originOf c)).1

/-- A run of calls keeps the accounts balanced, and reports the links of its chains. -/
theorem Balanced.run (h : r.Balanced) (calls : List (Chain × Option Origin)) :
    (r.run calls).1.Balanced ∧ (r.run calls).1.graph = r.graph ∧ (r.run calls).1.detection = r.detection ∧
      ∀ l, l ∈ (r.run calls).1.reported ↔ l ∈ r.reported ∨ l ∈ linksOf calls := by
  induction calls generalizing r with
  | nil => exact ⟨h, rfl, rfl, by simp [Reporter.run, linksOf]⟩
  | cons call rest ih =>
    obtain ⟨c, origin⟩ := call
    obtain ⟨hb, hg, hd, hmem⟩ := ih (h.report c origin)
    refine ⟨hb, hg.trans (by rw [report_eq]), hd.trans (by rw [report_eq]), fun l => (hmem l).trans ?_⟩
    rw [mem_reported_report, linksOf_cons, List.mem_append, or_assoc]

/-- Every finding of a run was made for a link of one of its chains. -/
theorem exists_step_of_mem_findings (calls : List (Chain × Option Origin)) (r : Reporter) {f : Finding}
    (hf : f ∈ (r.run calls).1.findings) : f ∈ r.findings ∨ ∃ call ∈ calls, ∃ x ∈ stepsOf r.graph call.1,
      findingAt? r.graph r.detection (call.1.path r.graph) call.2 x = some f := by
  induction calls generalizing r with
  | nil => exact .inl hf
  | cons call rest ih =>
    obtain ⟨c, origin⟩ := call
    have hreport := report_eq r c origin
    rcases ih (r.report c origin).1 hf with hfound | ⟨call, hcall, x, hx, hfound⟩
    · rw [hreport] at hfound
      rcases List.mem_append.1 hfound with hfound | hfound
      · exact .inl hfound
      · obtain ⟨x, hx, hfound⟩ := List.mem_filterMap.1 hfound
        exact .inr ⟨(c, origin), List.mem_cons_self, x, fresh_subset _ _ x hx, hfound⟩
    · rw [hreport] at hx hfound
      exact .inr ⟨call, List.mem_cons_of_mem _ hcall, x, hx, hfound⟩

end Reporter

/-- The calls that an analysis makes: the chains that qualify, each with its origin. -/
def qualifyingCalls (s : Settings) (g : Graph) (cs : List Chain) : List (Chain × Option Origin) :=
  (cs.filter (·.qualifies s.detection.minRelayLinks)).map fun c => (c, g.originOf s.vocabulary c)

theorem reportChains_eq_run (s : Settings) (g : Graph) (cs : List Chain) :
    reportChains s g cs = (Reporter.run { graph := g, detection := s.detection } (qualifyingCalls s g cs)).1 :=
  (Reporter.run_eq_foldl (g.originOf s.vocabulary) _ _).symm

/-- The accounts at the end: the links reported are those of the chains that qualify. -/
theorem reportChains_balanced (s : Settings) (g : Graph) (cs : List Chain) :
    let after := reportChains s g cs
    after.Balanced ∧ after.graph = g ∧ after.detection = s.detection ∧
      ∀ l, l ∈ after.reported ↔ ∃ c ∈ cs, c.qualifies s.detection.minRelayLinks = true ∧ l ∈ c.links := by
  intro after
  have hafter : after = _ := reportChains_eq_run s g cs
  obtain ⟨hb, hg, hd, hmem⟩ := (Reporter.balanced_new g s.detection).run (qualifyingCalls s g cs)
  rw [hafter]
  refine ⟨hb, hg, hd, fun l => (hmem l).trans ?_⟩
  simp [Reporter.linksOf, qualifyingCalls, and_assoc]

end PassThrough

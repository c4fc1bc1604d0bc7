import PassThrough.Proofs.Analysis
import PassThrough.Proofs.CallOrder
import PassThrough.Proofs.Evidence
import PassThrough.Proofs.Representation

/-! The diagnostics of an analysis: one for each declaration that repeats another, and then one for each call whose arguments
do not fit the function that it reaches. All of them come from the building of the graph. -/

namespace PassThrough

/-- What is wrong with a call that reaches one of the functions, when its arguments cannot be bound to the parameters. -/
def rejection? (kept : List (String × FunctionDecl)) (caller : FunctionDecl) (call : CallAt) : Option Diagnostic :=
  match call.target with
  | .unknown => none
  | .resolved f =>
    (kept.find? (·.2.id == f)).bind fun callee =>
      match bindArgs (callee.2.params.map Param.name) call.args with
      | .ok _ => none
      | .error problem => some
          { function := some caller.id
            location := some call.location
            message := "Cannot bind arguments of call to '" ++ callee.2.name ++ "': " ++ problem.message }

/-- The calls that leave the program are no sites, but none of them is rejected. -/
theorem bindDiagnostics_eq (v : Vocabulary) (kept : List (String × FunctionDecl)) (path : String) (d : FunctionDecl) :
    bindDiagnostics (kept.map fun x => Node.ofDecl v x.1 x.2) (Node.ofDecl v path d) =
      d.renderCalls.filterMap (rejection? kept d) := by
  rw [bindDiagnostics, siteCalls, List.filterMap_filter]
  refine List.filterMap_congr fun call _ => ?_
  cases ht : call.target with
  | unknown => simp [CallAt.resolve, rejection?, ht]
  | resolved f =>
    have hfind : (kept.map fun x => Node.ofDecl v x.1 x.2).find? (·.id == f) =
        (kept.find? (·.2.id == f)).map fun x => Node.ofDecl v x.1 x.2 :=
      List.find?_map
    cases hcallee : kept.find? (·.2.id == f) with
    | none => simp [CallAt.resolve, Resolution.isSite, rejection?, ht, hfind, hcallee]
    | some callee =>
      have hnames := Node.paramNames_ofDecl v callee.1 callee.2
      cases hbind : bindArgs (callee.2.params.map Param.name) call.args with
      | ok bindings => simp [CallAt.resolve, rejection?, ht, hfind, hcallee, hnames, hbind]
      | error problem =>
        simp only [CallAt.resolve, Resolution.isSite, rejection?, ht, hfind, hcallee, hnames, hbind, Option.map_some,
          Option.bind_some, if_true]
        rfl

namespace Graph
variable {g : Graph} {n : NodeId} {node : Node}

/-- Every argument at a site with a target is bound. -/
theorem Lawful.unbound_notMem_uses (h : g.Lawful) (hn : g.node? n = some node) (name : String) (kind : Kind)
    (callee : String) : Use.unbound callee ∉ g.uses ⟨n, name⟩ node kind := by
  rw [h.uses_eq hn, List.mem_map]
  rintro ⟨o, ho, hunbound⟩
  rw [h.useOf_eq hn (List.mem_of_mem_filter ho)] at hunbound
  split at hunbound
  · cases hunbound
  · split at hunbound <;> cases hunbound

/-- A usage cannot be worked out exactly when the parameter is not declared. -/
theorem Lawful.classify_eq_error_iff (h : g.Lawful) (hn : g.node? n = some node) (name : String) (problem : UsageProblem) :
    g.classify ⟨n, name⟩ = .error problem ↔ name ∉ node.paramNames ∧ problem = .noParameter node.name name := by
  have hdeclared : node.param? name = none ↔ name ∉ node.paramNames := by
    simp [Node.param?, Node.paramNames]
  cases hp : node.param? name with
  | none =>
    have hclassify : g.classify ⟨n, name⟩ = .error (.noParameter node.name name) := by simp [classify, hn, hp]
    rw [hclassify, Except.error.injEq, eq_comm, iff_and_self]
    exact fun _ => hdeclared.1 hp
  | some p =>
    rw [h.classify_eq_ok hn hp, ← hdeclared, hp]
    simp

/-- The diagnostics of the building of a graph, in the order of the text. -/
theorem build_errors_eq (v : Vocabulary) (marker : String) (files : List SourceFile) :
    let declared := markedFunctions marker files
    let kept := firstDeclarations declared
    (build v marker files).2 = (repeatedDeclarations declared).map (fun x => duplicateDiagnostic x.1 x.2) ++
      kept.flatMap fun x => x.2.renderCalls.filterMap (rejection? kept x.2) := by
  intro declared kept
  have hnodes : (build v marker files).1.nodes = kept.map fun x => Node.ofDecl v x.1 x.2 :=
    addNodes_eq_firstDeclarations v declared
  rw [build_errors, hnodes, addNodes_eq_repeatedDeclarations, List.flatMap_map]
  congr 1
  exact List.flatMap_congr fun x _ => bindDiagnostics_eq v kept x.1 x.2

end Graph

/-- An analysis records one diagnostic for each declaration that repeats another and one for each call, outside callbacks,
whose arguments do not fit the function that it reaches, both in the order of the text. Finding the chains adds none: a
usage can be worked out unless the parameter is not declared, and no argument of a call that reaches a function goes
unbound. -/
theorem analyze_errors_exact (s : Settings) (files : List SourceFile) :
    let declared := markedFunctions s.detection.uiMarker files
    let kept := firstDeclarations declared
    let g := (Graph.build s.vocabulary s.detection.uiMarker files).1
    (analyze s files).errors =
      (repeatedDeclarations declared).map (fun x =>
        ⟨some x.2.id, some (x.2.location.inFile x.1), "Analysis error: duplicate declaration ignored"⟩) ++
      kept.flatMap (fun x => x.2.renderCalls.filterMap (rejection? kept x.2)) ∧
    (∀ d : FunctionDecl, d.ListsCalls d.renderCalls) ∧
    (∀ m : Memo, m.Coherent g → ((g.track g.memoUsage).run m).2.errors = m.errors) ∧
    ∀ (n : NodeId) (node : Node), g.node? n = some node → ∀ name : String,
      ((∃ problem, g.classify ⟨n, name⟩ = .error problem) ↔ name ∉ node.paramNames) ∧
      (∀ callee, g.classify ⟨n, name⟩ ≠ .error (.unbound name callee)) ∧
      ∀ kind callee, Use.unbound callee ∉ g.uses ⟨n, name⟩ node kind := by
  intro declared kept g
  have hg : g.Lawful := Graph.build_lawful s.vocabulary s.detection.uiMarker files
  refine ⟨?_, FunctionDecl.renderCalls_listsCalls, fun m hm => ?_, fun n node hn name => ⟨?_, fun callee => ?_,
    hg.unbound_notMem_uses hn name⟩⟩
  · rw [analyze_eq]
    exact Graph.build_errors_eq s.vocabulary s.detection.uiMarker files
  · exact (hg.closed_declared.asks_track.faithful (fun _ => hg.complaint?_eq_none) m hm).2.2
  · simp only [hg.classify_eq_error_iff hn, exists_and_left, exists_eq, and_true]
  · rw [ne_eq, hg.classify_eq_error_iff hn]
    rintro ⟨-, ⟨⟩⟩

/-- A second `Label` and a call with one argument too many are reported; the same call inside a callback is not. -/
theorem analyze_errors_exact_overloaded_label :
    let label := Sample.reader "Label"
    let call := Expr.callTo label.toFunctionHeader [.positional (.name "count"), .positional (.literal "0")]
    let panel := Sample.declare "Panel" [.expr call, .expr (.block false [.expr call])]
    let files : List SourceFile := [⟨"a.kt", [label, panel]⟩, ⟨"b.kt", [label]⟩]
    let g := (Graph.build {} "Composable" files).1
    (analyze {} files).errors =
      [⟨some label.id, some ⟨"b.kt", 0, 0⟩, "Analysis error: duplicate declaration ignored"⟩,
        ⟨some panel.id, some {}, "Cannot bind arguments of call to 'Label': too many arguments (expected 1)"⟩] ∧
    g.node? 1 = some (Node.ofDecl {} "a.kt" panel) ∧ (∃ problem, g.classify ⟨1, "total"⟩ = .error problem) ∧
      ¬ ∃ problem, g.classify ⟨1, "count"⟩ = .error problem := by
  intro label call panel files g
  obtain ⟨herrors, -, -, hclassify⟩ := analyze_errors_exact {} files
  have hn : g.node? 1 = some (Node.ofDecl {} "a.kt" panel) := rfl
  refine ⟨herrors.trans (by decide +kernel), hn, (hclassify 1 _ hn "total").1.2 (by decide), ?_⟩
  rw [(hclassify 1 _ hn "count").1]
  decide

end PassThrough

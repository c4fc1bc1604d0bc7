import PassThrough.Origin.Scope
import PassThrough.Proofs.Position
import PassThrough.Proofs.Usage

/-! Lexical scope, told from the layers around a place. The walk that looks for the binder of a name finds the innermost
layer that binds it, and a scan of the body passes over an argument exactly where that walk finds a binder. -/

namespace PassThrough

theorem Stmt.isSome_binder? (name : String) (s : Stmt) : (s.binder? name).isSome = s.declares name := by
  cases s with
  | val n delegated initializer location => by_cases h : n = name <;> simp [binder?, declares, h]
  | expr value => rfl
  | nested header body => rfl
  | ret value => rfl

/-- What a layer makes of a name. Of the locals of a block, the last one counts. -/
def Frame.binder? (name : String) : Frame → Option Binder
  | .lambda _ params => if params.contains name then some .inner else none
  | .nested header => if header.declares name then some .inner else none
  | .block earlier => earlier.reverse.findSome? (·.binder? name)
  | _ => none

theorem Frame.isSome_binder? (name : String) (frame : Frame) : (frame.binder? name).isSome = frame.hides name := by
  cases frame with
  | argument call index => rfl
  | operand => rfl
  | lambda uiBuilding params => by_cases h : name ∈ params <;> simp [binder?, hides, h]
  | nested header => by_cases h : header.declares name = true <;> simp [binder?, hides, h]
  | block earlier => simp [binder?, hides, List.isSome_findSome?, Stmt.isSome_binder?]

namespace Scope
variable {name : String} {scope : Option Binder} {around : List Frame} {here : Position}

/-- The binder of a name inside layers, of which the innermost comes first. -/
def innermost? (name : String) (around : List Frame) : Option Binder := around.findSome? (·.binder? name)

private theorem innermost?_append (inner outer : List Frame) :
    innermost? name (inner ++ outer) = (innermost? name inner).or (innermost? name outer) :=
  List.findSome?_append

theorem innermost?_eq_none_iff : innermost? name around = none ↔ ∀ frame ∈ around, frame.hides name = false := by
  rw [innermost?, List.findSome?_eq_none_iff]
  refine forall₂_congr fun frame _ => ?_
  rw [← Frame.isSome_binder?, Option.isSome_eq_false_iff, Option.isNone_iff_eq_none]

private theorem blockBinder_eq (body : List Stmt) (scope : Option Binder) (i : Nat) (steps : Position) :
    blockBinder name scope body i steps =
      body[i]?.bind fun s => stmtBinder name (((Frame.block (body.take i)).binder? name).or scope) s steps := by
  induction body generalizing scope i with
  | nil => simp [blockBinder]
  | cons s rest ih =>
    cases i with
    | zero => simp [blockBinder, Frame.binder?]
    | succ i =>
      rw [blockBinder, ih]
      simp [Frame.binder?, List.findSome?_append, Option.or_assoc]

/-- The binder in force some steps inside what stands at a place. -/
def focusBinder (name : String) (scope : Option Binder) : Focus → Position → Option Binder
  | .expr e, steps => exprBinder name scope e steps
  | .block body, i :: steps => blockBinder name scope body i steps
  | .block _, [] => none

private theorem exprBinder_nil (e : Expr) : exprBinder name scope e [] = scope := by
  cases e <;> simp [exprBinder]

private theorem argBinder_eq (args : List (Argument Expr)) (i : Nat) (steps : Position) :
    argBinder name scope args i steps = args[i]?.bind fun a => exprBinder name scope a.value steps := by
  induction args generalizing i with
  | nil => simp [argBinder]
  | cons a rest ih => cases i <;> simp [argBinder, ih]

private theorem listBinder_eq (parts : List Expr) (i : Nat) (steps : Position) :
    listBinder name scope parts i steps = parts[i]?.bind fun e => exprBinder name scope e steps := by
  induction parts generalizing i with
  | nil => simp [listBinder]
  | cons e rest ih => cases i <;> simp [listBinder, ih]

/-- From the place `p` the walk goes on at `q`, with the binders of the layers between the two in force. -/
def Descends (name : String) (walk : Option Binder → Position → Option Binder) (around : List Frame) (q : Place) : Prop :=
  ∃ layers, q.around = layers ++ around ∧
    ∀ scope steps, walk scope steps = focusBinder name ((innermost? name layers).or scope) q.focus steps

variable (name) in
theorem descends_stmt {body : List Stmt} {i : Nat} {q : Place} (h : stmtPlace? around body i = some q) :
    Descends name (fun scope steps => blockBinder name scope body i steps) around q := by
  obtain ⟨s, hs, hq⟩ := Option.bind_eq_some_iff.1 h
  simp only [Descends, blockBinder_eq, hs, Option.bind_some]
  cases s with
  | val n delegated initializer location =>
    cases initializer with
    | none => cases hq
    | some e =>
      cases hq
      exact ⟨[.block (body.take i)], rfl, fun scope steps => by simp [stmtBinder, innermost?, focusBinder]⟩
  | expr e =>
    cases hq
    exact ⟨[.block (body.take i)], rfl, fun scope steps => by simp [stmtBinder, innermost?, focusBinder]⟩
  | nested header inner =>
    cases hq
    refine ⟨[.nested header, .block (body.take i)], rfl, fun scope steps => ?_⟩
    cases steps with
    | nil => rfl
    | cons j steps =>
      by_cases hd : header.declares name = true <;> simp [stmtBinder, innermost?, focusBinder, Frame.binder?, hd]
  | ret value =>
    cases value with
    | none => cases hq
    | some e =>
      cases hq
      exact ⟨[.block (body.take i)], rfl, fun scope steps => by simp [stmtBinder, innermost?, focusBinder]⟩

theorem descends_operand (e : Expr) {walk : Option Binder → Position → Option Binder}
    (hwalk : ∀ scope steps, walk scope steps = exprBinder name scope e steps) :
    Descends name walk around ⟨.expr e, .operand :: around⟩ :=
  ⟨[.operand], rfl, fun scope steps => by simp [hwalk, focusBinder, innermost?, Frame.binder?]⟩

private theorem descends_lambda {uiBuilding : Bool} {params : List String} {body : List Stmt} {i : Nat} {q : Place}
    (h : stmtPlace? (.lambda uiBuilding params :: around) body i = some q) :
    Descends name (fun scope steps => exprBinder name scope (.lambda uiBuilding params body) (i :: steps)) around q := by
  obtain ⟨layers, haround, hwalk⟩ := descends_stmt name h
  refine ⟨layers ++ [.lambda uiBuilding params], by simp [haround], fun scope steps => ?_⟩
  have hinner : ((Frame.lambda uiBuilding params).binder? name).or scope =
      if params.contains name then some .inner else scope := by
    by_cases hc : name ∈ params <;> simp [Frame.binder?, hc]
  rw [innermost?_append, Option.or_assoc]
  simp only [exprBinder, innermost?, List.findSome?_singleton, hinner] at hwalk ⊢
  exact hwalk _ steps

variable (name) in
/-- One step inwards: the walk takes the binders of the layers that the step enters. -/
theorem descends_step {p q : Place} {i : Nat} (h : p.step? here i = some q) :
    Descends name (fun scope steps => focusBinder name scope p.focus (i :: steps)) p.around q := by
  obtain ⟨focus, around⟩ := p
  cases focus with
  | block body => exact descends_stmt name h
  | expr e =>
    cases e with
    | ident n location => cases h
    | literal value => cases h
    | call callee target receiver args location =>
      cases i with
      | zero =>
        cases receiver with
        | none => cases h
        | some receiver =>
          cases h
          exact descends_operand receiver fun _ _ => rfl
      | succ i =>
        have hargs : argPlace? here around args i = some q := by cases receiver <;> exact h
        obtain ⟨a, ha, rfl⟩ := Option.map_eq_some_iff.1 hargs
        refine ⟨[.argument here i], rfl, fun scope steps => ?_⟩
        cases receiver <;> simp [focusBinder, exprBinder, argBinder_eq, ha, innermost?, Frame.binder?]
    | member receiver n location =>
      rcases i with _ | i
      · cases h
        exact descends_operand receiver fun _ _ => rfl
      · cases h
    | template parts =>
      obtain ⟨e, he, rfl⟩ := Option.map_eq_some_iff.1 h
      exact descends_operand e fun _ _ => by simp [focusBinder, exprBinder, listBinder_eq, he]
    | lambda uiBuilding params body => exact descends_lambda h
    | binary op lhs rhs =>
      rcases i with _ | _ | i
      · cases h
        exact descends_operand lhs fun _ _ => rfl
      · cases h
        exact descends_operand rhs fun _ _ => rfl
      · cases h
    | branch condition thenBranch elseBranch =>
      rcases i with _ | _ | _ | i
      · cases h
        exact descends_operand condition fun _ _ => rfl
      · cases h
        exact ⟨[], rfl, fun _ steps => by cases steps <;> rfl⟩
      · cases h
        exact ⟨[], rfl, fun _ steps => by cases steps <;> rfl⟩
      · cases h
    | other children =>
      obtain ⟨e, he, rfl⟩ := Option.map_eq_some_iff.1 h
      exact descends_operand e fun _ _ => by simp [focusBinder, exprBinder, listBinder_eq, he]

variable (name) in
private theorem focusBinder_placeAt? (f : FunctionDecl) (position : Position) {p : Place} (h : f.placeAt? position = some p)
    (steps : Position) : focusBinder name none (.block f.body) (position.reverse ++ steps) =
      focusBinder name (innermost? name p.around) p.focus steps := by
  induction position generalizing p steps with
  | nil =>
    cases h
    rfl
  | cons i here ih =>
    obtain ⟨outer, houter, hstep⟩ := Option.bind_eq_some_iff.1 h
    obtain ⟨layers, haround, hwalk⟩ := descends_step name hstep
    rw [List.reverse_cons, List.append_assoc, List.singleton_append, ih houter, haround, innermost?_append]
    exact hwalk _ steps

end Scope

/-- The walk for the binder of a name finds the innermost layer that binds it. -/
theorem FunctionDecl.binderAt_eq_innermost? (f : FunctionDecl) {position : Position} {e : Expr} {around : List Frame}
    (h : f.placeAt? position = some ⟨.expr e, around⟩) (name : String) :
    f.binderAt position name = Scope.innermost? name around := by
  have hwalk := Scope.focusBinder_placeAt? name f position h []
  rw [List.append_nil] at hwalk
  refine Eq.trans ?_ (hwalk.trans (Scope.exprBinder_nil e))
  unfold binderAt
  cases position.reverse <;> rfl

/-- The call at a position takes the name directly as its argument with this number. -/
def FunctionDecl.TakesName (f : FunctionDecl) (call : Position) (index : Nat) (name : String) : Prop :=
  ∃ callee target receiver args location around a,
    f.placeAt? call = some ⟨.expr (.call callee target receiver args location), around⟩ ∧ args[index]? = some a ∧
      a.value.ident? = some name

namespace Graph
variable {g : Graph} {n : NodeId} {node : Node} {site : CallSite} {name : String}

/-- The forward that a site makes of its argument with this number: the parameter bound there accepts the kind. -/
def forwardOf? (g : Graph) (kind : Kind) (argument : CallSite × Nat) : Option Forward :=
  argument.1.target.bind fun f => (argument.1.paramOf? argument.2).bind fun param =>
    ((g.find? f).bind (·.param? param)).bind fun q =>
      if kind.assignableTo q.kind then some ⟨argument.1.id, param⟩ else none

/-- The arguments at sites that visibly are the name, in the order of the text. -/
def visibleArguments (g : Graph) (n : NodeId) (f : FunctionDecl) (name : String) : List (CallSite × Nat) :=
  (f.visible name).filterMap fun o => g.siteAround? n o.around

/-- A site is found again by its position. -/
theorem Lawful.find?_position (h : g.Lawful) (hn : g.node? n = some node) (hs : site ∈ g.sitesOf n) :
    (g.sitesOf n).find? (·.position == site.position) = some site := by
  have hnodup : ((g.sitesOf n).map CallSite.position).Nodup := by
    have hpositions : (g.sitesOf n).map CallSite.position = (siteCalls g.nodes node).map CallAt.position := by
      rw [h.sitesOf_eq hn, sitesOfNode]
      exact List.ext_getElem? fun index => by simp [CallSite.of, Function.comp_def]
    rw [hpositions]
    exact node.decl.renderCalls_nodup.sublist (List.filter_sublist.map _)
  cases hf : (g.sitesOf n).find? (·.position == site.position) with
  | none => simpa using List.find?_eq_none.1 hf site hs
  | some found =>
    have hpos : found.position = site.position := by simpa using List.find?_some hf
    rw [List.inj_on_of_nodup_map hnodup (List.mem_of_find?_eq_some hf) hs hpos]

theorem mem_of_siteAround? {around : List Frame} {index : Nat} (h : g.siteAround? n around = some (site, index)) :
    site ∈ g.sitesOf n ∧ ∃ outer, around = .argument site.position index :: outer := by
  cases around with
  | nil => cases h
  | cons frame outer =>
    cases frame with
    | argument call i =>
      obtain ⟨found, hf, heq⟩ := Option.map_eq_some_iff.1 h
      cases heq
      have hpos : site.position = call := by simpa using List.find?_some hf
      exact ⟨List.mem_of_find?_eq_some hf, outer, by rw [hpos]⟩
    | operand => cases h
    | lambda uiBuilding params => cases h
    | nested header => cases h
    | block earlier => cases h

/-- An argument is visibly the name iff the call takes the name there and nothing binds the name at the call. -/
theorem Lawful.mem_visibleArguments (h : g.Lawful) (hn : g.node? n = some node) {index : Nat} :
    (site, index) ∈ g.visibleArguments n node.decl name ↔ site ∈ g.sitesOf n ∧
      node.decl.TakesName site.position index name ∧ node.decl.binderAt site.position name = none := by
  rw [visibleArguments, List.mem_filterMap]
  constructor
  · rintro ⟨o, ho, hsite⟩
    obtain ⟨hocc, hvisible⟩ := List.mem_filter.1 ho
    obtain ⟨hs, outer, haround⟩ := mem_of_siteAround? hsite
    obtain ⟨rfl, location, hp⟩ := FunctionDecl.mem_occurrences_iff.1 hocc
    rw [haround] at hp
    obtain ⟨callee, target, receiver, args, location, a, -, ha, hv, hcall⟩ := node.decl.placeAt?_argument hp
    refine ⟨hs, ⟨callee, target, receiver, args, location, outer, a, hcall, ha, by rw [hv]; rfl⟩, ?_⟩
    rw [node.decl.binderAt_eq_innermost? hcall, Scope.innermost?_eq_none_iff]
    simp only [Occurrence.isVisible, haround, List.all_cons, Bool.and_eq_true, List.all_eq_true, Bool.not_eq_true'] at hvisible
    exact hvisible.2
  · rintro ⟨hs, ⟨callee, target, receiver, args, location, around, a, hcall, ha, hv⟩, hbinder⟩
    rw [node.decl.binderAt_eq_innermost? hcall, Scope.innermost?_eq_none_iff] at hbinder
    obtain ⟨place, hvalue⟩ : ∃ place, a.value = .ident name place := by
      cases hval : a.value <;> simp_all [Expr.ident?]
    have hp : node.decl.placeAt? ((index + 1) :: site.position) =
        some ⟨.expr (.ident name place), .argument site.position index :: around⟩ := by
      rw [node.decl.placeAt?_cons hcall, ← hvalue]
      cases receiver <;> simp [Place.step?, argPlace?, ha]
    refine ⟨⟨name, _, _⟩, List.mem_filter.2 ⟨FunctionDecl.mem_occurrences_iff.2 ⟨rfl, place, hp⟩, ?_⟩, ?_⟩
    · simpa [Occurrence.isVisible, Frame.hides] using hbinder
    · simp [siteAround?, h.find?_position hn hs]

private theorem nodup_visibleArguments (g : Graph) (n : NodeId) (f : FunctionDecl) (name : String) :
    (g.visibleArguments n f name).Nodup := by
  have hpositions : ((f.visible name).map Occurrence.position).Nodup :=
    (f.occurrences_nodup name).sublist (List.filter_sublist.map _)
  have hposition : ∀ o ∈ f.visible name, ∀ x, g.siteAround? n o.around = some x →
      o.position = (x.2 + 1) :: x.1.position := by
    rintro o ho ⟨site, index⟩ hsite
    obtain ⟨-, location, hp⟩ := FunctionDecl.mem_occurrences_iff.1 (List.mem_of_mem_filter ho)
    obtain ⟨-, outer, haround⟩ := mem_of_siteAround? hsite
    rw [haround] at hp
    obtain ⟨-, -, -, -, -, -, hpos, -⟩ := f.placeAt?_argument hp
    exact hpos
  refine List.pairwise_filterMap.2 ((List.pairwise_map.1 hpositions).imp_of_mem ?_)
  rintro o o' ho ho' hne x hx _ hx' rfl
  exact hne ((hposition o ho x hx).trans (hposition o' ho' x hx').symm)

/-- The two analyses of scope agree with the layers around a call. At a call site the binder of a name is that of the
innermost layer that binds it, and there is none iff no layer does. The arguments that count as forwards or dead ends of a
parameter are those that are its bare name at a call where the name has no binder, each once. -/
theorem binderAt_innermost_and_classify_arguments (v : Vocabulary) (marker : String) (files : List SourceFile)
    (n : NodeId) (node : Node) (hn : (build v marker files).1.node? n = some node) :
    let g := (build v marker files).1
    (∀ site ∈ g.sitesOf n, ∃ callee target receiver args location around,
      node.decl.placeAt? site.position = some ⟨.expr (.call callee target receiver args location), around⟩ ∧
        ∀ name, node.decl.binderAt site.position name = Scope.innermost? name around ∧
          (node.decl.binderAt site.position name = none ↔ ∀ frame ∈ around, frame.hides name = false)) ∧
      ∀ name p, node.param? name = some p → ∃ (u : Usage) (arguments : List (CallSite × Nat)), g.classify ⟨n, name⟩ = .ok u ∧
        u.forwards = arguments.filterMap (g.forwardOf? p.kind) ∧
        u.deadEnds = arguments.countP (fun a => (g.forwardOf? p.kind a).isNone) ∧ arguments.Nodup ∧
        ∀ site index, (site, index) ∈ arguments ↔ site ∈ g.sitesOf n ∧
          node.decl.TakesName site.position index name ∧ node.decl.binderAt site.position name = none := by
  intro g
  have h : g.Lawful := build_lawful v marker files
  refine ⟨fun site hs => ?_, fun name p hp => ?_⟩
  · rw [h.sitesOf_eq hn, sitesOfNode, List.mem_mapIdx] at hs
    obtain ⟨index, hindex, rfl⟩ := hs
    obtain ⟨receiver, around, hplace, -⟩ :=
      node.decl.renderCalls_placeAt? (List.mem_of_mem_filter (List.getElem_mem hindex))
    refine ⟨_, _, receiver, _, _, around, hplace, fun name => ?_⟩
    have hbinder := node.decl.binderAt_eq_innermost? hplace name
    exact ⟨hbinder, by rw [← Scope.innermost?_eq_none_iff, ← hbinder]; rfl⟩
  · have hn' : g.node? (Link.mk n name).node = some node := hn
    refine ⟨_, g.visibleArguments n node.decl name, h.classify_eq_ok hn' hp, ?_, ?_,
      g.nodup_visibleArguments n node.decl name, fun site index => h.mem_visibleArguments hn⟩
    · rw [h.ofUses_forwards hn', visibleArguments, List.filterMap_filterMap]
      rfl
    · refine (h.count_deadEnd hn' p.kind).trans ?_
      rw [visibleArguments, List.countP_filterMap]
      refine List.countP_congr fun o _ => ?_
      have hforward : g.forwardAt? n p.kind o = (g.siteAround? n o.around).bind (g.forwardOf? p.kind) := rfl
      rw [hforward]
      cases g.siteAround? n o.around <;> simp

end Graph

/-- Hands `count` on to `next`, and then, where a local has taken the name, hands on the local. -/
def Sample.rebinding (name : String) (next : FunctionDecl) : FunctionDecl :=
  declare name [.expr (.callTo next.toFunctionHeader [.positional (.name "count")]), .bind "count" (.literal "0"),
    .expr (.block true [.expr (.callTo next.toFunctionHeader [.positional (.name "count")])])]

theorem Graph.classify_arguments_rebinding :
    let panel := Sample.rebinding "Panel" (Sample.reader "Label")
    let g := (Graph.build {} "Composable" [⟨"a.kt", [panel, Sample.reader "Label"]⟩]).1
    ∃ (u : Usage) (arguments : List (CallSite × Nat)), g.classify ⟨0, "count"⟩ = .ok u ∧
      u.forwards = arguments.filterMap (g.forwardOf? .valueHolder) ∧
      (∀ site index, (site, index) ∈ arguments → site.id = ⟨0, 0⟩) ∧ (g.sitesOf 0).map CallSite.id = [⟨0, 0⟩, ⟨0, 1⟩] := by
  intro panel g
  obtain ⟨-, hclassify⟩ := binderAt_innermost_and_classify_arguments {} "Composable"
    [⟨"a.kt", [panel, Sample.reader "Label"]⟩] 0 (Node.ofDecl {} "a.kt" panel) rfl
  obtain ⟨u, arguments, hu, hforwards, -, -, hmem⟩ := hclassify "count" ⟨"count", some "State", .valueHolder, ⟨"a.kt", 0, 0⟩⟩ rfl
  refine ⟨u, arguments, hu, hforwards, fun site index h => ?_, by decide +kernel⟩
  have hfree : ∀ site ∈ g.sitesOf 0, (panel.binderAt site.position "count").isNone = true → site.id = ⟨0, 0⟩ := by
    decide +kernel
  obtain ⟨hs, -, hbinder⟩ := (hmem site index).1 h
  exact hfree site hs (Option.isNone_iff_eq_none.2 hbinder)

end PassThrough

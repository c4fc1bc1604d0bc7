import PassThrough.Origin.Resolve
import PassThrough.Proofs.Scope

/-! Aliases on the way back to an origin. A local that is in scope at a call is declared before the call in a block around
it. From a local with the initializer `x` the walk goes on at the parameter `x` of the caller, and this is what `x` means
at the declaration as long as nothing binds it there. The walk does not ask whether that is so. -/

namespace PassThrough

private theorem Stmt.eq_val_of_binder? {name : String} {s : Stmt} {delegated : Bool} {initializer : Option Expr}
    {location : Location}
    (h : s.binder? name = some (.val delegated initializer location)) : s = .val name delegated initializer location := by
  cases s with
  | val n d e l =>
    by_cases hn : n = name
    · simp_all [binder?]
    · simp [binder?, hn] at h
  | expr value => cases h
  | nested header body => cases h
  | ret value => cases h

/-- A local in force stands in a block, and neither the layers inside that block nor its later statements bind the name. -/
theorem Scope.innermost?_eq_val {name : String} {around : List Frame} {delegated : Bool} {initializer : Option Expr}
    {location : Location} (h : innermost? name around = some (.val delegated initializer location)) :
    ∃ inner before later outer,
      around = inner ++ .block (before ++ .val name delegated initializer location :: later) :: outer ∧
        (∀ frame ∈ inner, frame.hides name = false) ∧ ∀ s ∈ later, s.declares name = false := by
  obtain ⟨inner, frame, outer, rfl, hframe, hinner⟩ := List.findSome?_eq_some_iff.1 h
  have hhides : ∀ layer ∈ inner, layer.hides name = false := by
    intro layer hlayer
    rw [← Frame.isSome_binder?, hinner layer hlayer]
    rfl
  cases frame with
  | argument call index => cases hframe
  | operand => cases hframe
  | lambda uiBuilding params => by_cases hc : name ∈ params <;> simp [Frame.binder?, hc] at hframe
  | nested header => by_cases hc : header.declares name = true <;> simp [Frame.binder?, hc] at hframe
  | block earlier =>
    obtain ⟨later, s, before, hsplit, hs, hlater⟩ := List.findSome?_eq_some_iff.1 hframe
    obtain rfl := Stmt.eq_val_of_binder? hs
    refine ⟨inner, before.reverse, later.reverse, outer, ?_, hhides, fun s hmem => ?_⟩
    · rw [← List.reverse_reverse earlier, hsplit]
      simp
    · rw [← Stmt.isSome_binder?, hlater s (List.mem_reverse.1 hmem)]
      rfl

section Declaration
variable {earlier before later : List Stmt} {outer : List Frame} {n : String} {delegated : Bool} {e : Expr}
  {location : Location}

private theorem stmtPlace?_declaration {around : List Frame} {body : List Stmt} {i : Nat} {q : Place}
    (h : stmtPlace? around body i = some q) (hlayer : (.block earlier :: outer) <:+ q.around)
    (hval : earlier = before ++ .val n delegated (some e) location :: later) :
    (.block earlier :: outer) <:+ around ∨
      stmtPlace? around body before.length = some ⟨.expr e, .block before :: outer⟩ := by
  obtain ⟨s, hs, hq⟩ := Option.bind_eq_some_iff.1 h
  have hblock : (.block earlier :: outer) <:+ .block (body.take i) :: around := by
    cases s with
    | val n delegated initializer location =>
      cases initializer with
      | none => cases hq
      | some e =>
        cases hq
        exact hlayer
    | expr e =>
      cases hq
      exact hlayer
    | nested header inner =>
      cases hq
      rcases List.suffix_cons_iff.1 hlayer with heq | hlayer
      · cases heq
      · exact hlayer
    | ret value =>
      cases value with
      | none => cases hq
      | some e =>
        cases hq
        exact hlayer
  rcases List.suffix_cons_iff.1 hblock with heq | hlayer
  · right
    obtain ⟨htake, rfl⟩ : earlier = body.take i ∧ outer = around := by simpa using heq
    have hbody : body = before ++ .val n delegated (some e) location :: (later ++ body.drop i) := by
      rw [← List.cons_append, ← List.append_assoc, ← hval, htake, List.take_append_drop]
    rw [hbody, stmtPlace?_append]
    rfl
  · exact .inl hlayer

/-- A step that enters a block could as well have gone to a local declared in it so far. -/
theorem Place.step?_declaration {here : Position} {p q : Place} {i : Nat} (h : p.step? here i = some q)
    (hlayer : (.block earlier :: outer) <:+ q.around)
    (hval : earlier = before ++ .val n delegated (some e) location :: later) :
    (.block earlier :: outer) <:+ p.around ∨
      p.step? here before.length = some ⟨.expr e, .block before :: outer⟩ := by
  have hskip : ∀ (frame : Frame) (around : List Frame), (∀ statements, frame ≠ .block statements) →
      (.block earlier :: outer) <:+ frame :: around → (.block earlier :: outer) <:+ around := by
    intro frame around hframe hsuffix
    rcases List.suffix_cons_iff.1 hsuffix with heq | hsuffix
    · exact absurd (List.cons.inj heq).1.symm (hframe earlier)
    · exact hsuffix
  have hoperand : ∀ around, (.block earlier :: outer) <:+ .operand :: around → (.block earlier :: outer) <:+ around :=
    fun around => hskip .operand around (by simp)
  obtain ⟨focus, around⟩ := p
  cases focus with
  | block body => exact stmtPlace?_declaration h hlayer hval
  | expr value =>
    cases value with
    | ident n location => cases h
    | literal value => cases h
    | call callee target receiver args location =>
      cases i with
      | zero =>
        cases receiver with
        | none => cases h
        | some receiver =>
          cases h
          exact .inl (hoperand around hlayer)
      | succ i =>
        have hargs : argPlace? here around args i = some q := by cases receiver <;> exact h
        obtain ⟨a, -, rfl⟩ := Option.map_eq_some_iff.1 hargs
        exact .inl (hskip _ around (by simp) hlayer)
    | member receiver n location =>
      rcases i with _ | i
      · cases h
        exact .inl (hoperand around hlayer)
      · cases h
    | template parts =>
      obtain ⟨part, -, rfl⟩ := Option.map_eq_some_iff.1 h
      exact .inl (hoperand around hlayer)
    | lambda uiBuilding params body =>
      exact (stmtPlace?_declaration h hlayer hval).imp_left (hskip _ around (by simp))
    | binary op lhs rhs =>
      rcases i with _ | _ | i
      · cases h
        exact .inl (hoperand around hlayer)
      · cases h
        exact .inl (hoperand around hlayer)
      · cases h
    | branch condition thenBranch elseBranch =>
      rcases i with _ | _ | _ | i
      · cases h
        exact .inl (hoperand around hlayer)
      · cases h
        exact .inl hlayer
      · cases h
        exact .inl hlayer
      · cases h
    | other children =>
      obtain ⟨part, -, rfl⟩ := Option.map_eq_some_iff.1 h
      exact .inl (hoperand around hlayer)

/-- The initializer of a local in a block around a place has a place of its own, behind the statements before the local. -/
theorem FunctionDecl.placeAt?_declaration (f : FunctionDecl) {position : Position} {p : Place}
    (h : f.placeAt? position = some p) (hlayer : (.block earlier :: outer) <:+ p.around)
    (hval : earlier = before ++ .val n delegated (some e) location :: later) :
    ∃ declaration, f.placeAt? declaration = some ⟨.expr e, .block before :: outer⟩ := by
  induction position generalizing p with
  | nil =>
    cases h
    simpa using hlayer.length_le
  | cons i here ih =>
    obtain ⟨q, hq, hstep⟩ := Option.bind_eq_some_iff.1 h
    rcases Place.step?_declaration hstep hlayer hval with hlayer | hdeclaration
    · exact ih hq hlayer
    · exact ⟨before.length :: here, (f.placeAt?_cons hq _).trans hdeclaration⟩

end Declaration

namespace Graph

theorem outerParam_eq_outer_iff {caller : Node} {x p : String} :
    outerParam caller x = .outer p ↔ p = x ∧ (caller.param? x).isSome = true := by
  rw [outerParam]
  cases hx : caller.param? x with
  | none => simp
  | some q =>
    have hname : q.name = x := by simpa using List.find?_some hx
    simp [hname, eq_comm]

private theorem originStep_ident {g : Graph} (v : Vocabulary) {s : SiteId} {site : CallSite} {caller : Node}
    {param a : String} {place : Location} (hs : g.site? s = some site) (hn : g.node? s.caller = some caller)
    (ha : site.argument? param = some (.ident a place)) : g.originStep v s param = nameStep v caller site a := by
  simp [originStep, hs, hn, ha, Vocabulary.creationKind, Expr.ident?]

/-- What the walk makes of an alias. Let the argument at a site be a local `a` with the initializer `x`. The walk goes on
at the parameter `x` of the caller if there is one, whatever binds `x` at the declaration of `a`. That declaration stands
before the call in a block around it, with nothing in between that binds `a`. There `x` means the parameter iff no layer
around the declaration binds it, which is so if nothing binds it at the call. -/
theorem originStep_alias (v : Vocabulary) (marker : String) (files : List SourceFile) (s : SiteId) (site : CallSite)
    (caller : Node) (param a x : String) (place source location : Location)
    (hs : (build v marker files).1.site? s = some site) (hn : (build v marker files).1.node? s.caller = some caller)
    (ha : site.argument? param = some (.ident a place))
    (hbinder : caller.decl.binderAt site.position a = some (.val false (some (.ident x source)) location)) :
    (∀ p, (build v marker files).1.originStep v s param = .outer p ↔ p = x ∧ (caller.param? x).isSome = true) ∧
      ∃ call inner before later outer declaration,
        caller.decl.placeAt? site.position = some ⟨.expr call,
          inner ++ .block (before ++ .val a false (some (.ident x source)) location :: later) :: outer⟩ ∧
        (∀ frame ∈ inner, frame.hides a = false) ∧ (∀ s ∈ later, s.declares a = false) ∧
        caller.decl.placeAt? declaration = some ⟨.expr (.ident x source), .block before :: outer⟩ ∧
        (caller.decl.binderAt declaration x = none ↔ ∀ frame ∈ .block before :: outer, frame.hides x = false) ∧
        (caller.decl.binderAt site.position x = none → caller.decl.binderAt declaration x = none) := by
  have hlawful := build_lawful v marker files
  refine ⟨fun p => ?_, ?_⟩
  · rw [originStep_ident v hs hn ha, ← outerParam_eq_outer_iff]
    simp [nameStep, hbinder, Vocabulary.creationKind, Expr.ident?]
  · obtain ⟨node, call, hnode, hcall, rfl⟩ := hlawful.site?_eq_some_iff.1 hs
    obtain rfl : node = caller := Option.some.inj (hnode.symm.trans hn)
    obtain ⟨receiver, around, hplace, -⟩ :=
      node.decl.renderCalls_placeAt? (List.mem_of_mem_filter (List.mem_of_getElem? hcall))
    rw [show (CallSite.of _ s.caller s.index call).position = call.position from rfl] at hbinder ⊢
    rw [node.decl.binderAt_eq_innermost? hplace] at hbinder
    obtain ⟨inner, before, later, outer, rfl, hinner, hlater⟩ := Scope.innermost?_eq_val hbinder
    obtain ⟨declaration, hdecl⟩ := node.decl.placeAt?_declaration hplace (List.suffix_append _ _) rfl
    refine ⟨_, inner, before, later, outer, declaration, hplace, hinner, hlater, hdecl, ?_, fun hfree => ?_⟩
    · rw [node.decl.binderAt_eq_innermost? hdecl, Scope.innermost?_eq_none_iff]
    · rw [node.decl.binderAt_eq_innermost? hplace, Scope.innermost?_eq_none_iff] at hfree
      rw [node.decl.binderAt_eq_innermost? hdecl, Scope.innermost?_eq_none_iff]
      -- the block of the declaration holds more statements at the call than at the declaration
      have hblock : (Frame.block before).hides x = false := by
        have := hfree _ (List.mem_append_right inner List.mem_cons_self)
        simp_all [Frame.hides]
      exact List.forall_mem_cons.2 ⟨hblock, fun frame hframe =>
        hfree frame (List.mem_append_right inner (List.mem_cons_of_mem _ hframe))⟩

end Graph

namespace Sample

/-- Hands on an alias of `count` from inside a content lambda with these parameters. -/
def aliasing (params : List String) : FunctionDecl :=
  declare "Panel" [.expr (.libraryCall "Column" [.trailingLambda (.lambda true params [.bind "alias" (.name "count"),
    .expr (.callTo (reader "Label").toFunctionHeader [.positional (.name "alias")])])])]

/-- Makes a value of its own and hands it to the panel. -/
def creator (panel : FunctionDecl) : FunctionDecl :=
  { name := "Screen", annotations := [{ name := "Composable" }]
    body := [.bind "count" (.libraryCall "mutableStateOf" []),
      .expr (.callTo panel.toFunctionHeader [.positional (.name "count")])] }

def aliasingFile (params : List String) : SourceFile :=
  ⟨"a.kt", [reader "Label", aliasing params, creator (aliasing params)]⟩

end Sample

namespace Graph

theorem originStep_alias_plain :
    let panel := Sample.aliasing []
    (build {} "Composable" [Sample.aliasingFile []]).1.originStep {} ⟨1, 0⟩ "count" = .outer "count" ∧
      ∃ before outer declaration, panel.placeAt? declaration = some ⟨.expr (.name "count"), .block before :: outer⟩ ∧
        panel.binderAt declaration "count" = none := by
  intro panel
  obtain ⟨hstep, call, inner, before, later, outer, declaration, -, -, -, hdecl, -, hfree⟩ :=
    originStep_alias {} "Composable" [Sample.aliasingFile []] ⟨1, 0⟩
      ⟨⟨1, 0⟩, "Label", some ⟨"Label", ["State"]⟩, [⟨"count", .name "alias"⟩], [1, 1, 0], {}⟩
      (Node.ofDecl {} "a.kt" panel) "count" "alias" "count" {} {} {} rfl rfl rfl rfl
  exact ⟨(hstep "count").2 ⟨rfl, rfl⟩, before, outer, declaration, hdecl, hfree rfl⟩

/-- Where a content lambda has a parameter `count` of its own, the alias stands for that one. The walk still goes on at the
parameter of the panel and ends at the value that the panel is given. -/
theorem originStep_alias_captured :
    let panel := Sample.aliasing ["count"]
    let g := (build {} "Composable" [Sample.aliasingFile ["count"]]).1
    panel.placeAt? [0, 1, 0] = some ⟨.expr (.name "count"), [.block [], .lambda true ["count"], .argument [0] 0, .block []]⟩ ∧
      panel.binderAt [0, 1, 0] "count" = some .inner ∧ g.originStep {} ⟨1, 0⟩ "count" = .outer "count" ∧
      g.originAt {} ⟨1, 0⟩ "count" = some ⟨some "count", ⟨"Screen", []⟩, .directCreation, {}⟩ := by
  refine ⟨rfl, rfl, rfl, ?_⟩
  decide +kernel

end Graph
end PassThrough

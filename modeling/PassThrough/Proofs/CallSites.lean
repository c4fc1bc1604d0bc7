import Mathlib.Data.List.Forall2
import PassThrough.Proofs.CallOrder
import PassThrough.Proofs.Tables

/-! The call sites of a function. They stand for the calls of its body that lie outside every callback and do not leave the
program, one for each and in the order of the text, and a call is found again by its position alone: another call with the
same text has another site. -/

namespace PassThrough

/-- The call stands in the body at its position, inside these layers. -/
def FunctionDecl.HoldsCall (f : FunctionDecl) (call : CallAt) (around : List Frame) : Prop :=
  ∃ receiver, f.placeAt? call.position =
    some ⟨.expr (.call call.callee call.target receiver call.args call.location), around⟩

/-- The position determines the call and the layers around it. -/
theorem FunctionDecl.HoldsCall.unique {f : FunctionDecl} {call other : CallAt} {around around' : List Frame}
    (h : f.HoldsCall call around) (h' : f.HoldsCall other around') (hpos : call.position = other.position) :
    call = other ∧ around = around' := by
  obtain ⟨position, callee, target, args, location⟩ := call
  obtain ⟨position', callee', target', args', location'⟩ := other
  obtain ⟨receiver, hplace⟩ := h
  obtain ⟨receiver', hplace'⟩ := h'
  obtain rfl : position = position' := hpos
  have heq := Option.some.inj (hplace.symm.trans hplace')
  simp only [Place.mk.injEq, Focus.expr.injEq, Expr.call.injEq] at heq
  obtain ⟨⟨rfl, rfl, -, rfl, rfl⟩, rfl⟩ := heq
  exact ⟨rfl, rfl⟩

namespace Graph
variable {g : Graph} {n : NodeId} {node : Node} {call : CallAt} {site : CallSite}

/-- The target is not known, or it is a function of the graph. -/
def Keeps (g : Graph) : Target → Prop
  | .unknown => True
  | .resolved f => ∃ node ∈ g.nodes, node.id = f

/-- The call reaches a function of the graph, and this is how its arguments are bound there. -/
structure Binds (g : Graph) (call : CallAt) (f : FunctionId) (bindings : List Binding) : Prop where
  target_eq : call.target = .resolved f
  bound : ∃ callee ∈ g.nodes, callee.id = f ∧ bindArgs callee.paramNames call.args = .ok bindings

/-- The site stands for the call. It has a target exactly when the arguments can be bound, and then it has their bindings. -/
structure Records (g : Graph) (site : CallSite) (call : CallAt) : Prop where
  position_eq : site.position = call.position
  callee_eq : site.callee = call.callee
  location_eq : site.location = call.location
  target_iff : ∀ f, site.target = some f ↔ ∃ bindings, g.Binds call f bindings
  bindings_eq : ∀ f bindings, g.Binds call f bindings → site.bindings = bindings
  unbound : site.target = none → site.bindings = []

namespace Lawful

theorem find?_nodes_eq_some_iff (h : g.Lawful) {f : FunctionId} :
    g.nodes.find? (·.id == f) = some node ↔ node ∈ g.nodes ∧ node.id = f := by
  refine h.find?_eq_some_iff.trans ⟨?_, ?_⟩
  · rintro ⟨n, hn, hid⟩
    exact ⟨List.mem_of_getElem? hn, hid⟩
  · rintro ⟨hmem, hid⟩
    obtain ⟨n, hn⟩ := List.mem_iff_getElem?.1 hmem
    exact ⟨n, hn, hid⟩

/-- A call is a site unless it leaves the program. -/
theorem isSite_resolve_iff (h : g.Lawful) (call : CallAt) : (call.resolve g.nodes).isSite = true ↔ g.Keeps call.target := by
  cases ht : call.target with
  | unknown => simp [CallAt.resolve, ht, Resolution.isSite, Keeps]
  | resolved f =>
    cases hf : g.nodes.find? (·.id == f) with
    | none =>
      have hnone : ∀ node ∈ g.nodes, node.id ≠ f := by simpa using hf
      simpa [CallAt.resolve, ht, hf, Resolution.isSite, Keeps] using hnone
    | some node =>
      have hkept : ∃ node ∈ g.nodes, node.id = f := ⟨node, h.find?_nodes_eq_some_iff.1 hf⟩
      cases hb : bindArgs node.paramNames call.args <;>
        simpa [CallAt.resolve, ht, hf, hb, Resolution.isSite, Keeps] using hkept

private theorem resolve_eq_bound_iff (h : g.Lawful) (call : CallAt) (f : FunctionId) (bindings : List Binding) :
    call.resolve g.nodes = .bound f bindings ↔ g.Binds call f bindings := by
  constructor
  · intro hr
    rw [CallAt.resolve] at hr
    cases ht : call.target with
    | unknown => simp [ht] at hr
    | resolved f' =>
      simp only [ht] at hr
      cases hf : g.nodes.find? (·.id == f') with
      | none => simp [hf] at hr
      | some node =>
        obtain ⟨hmem, hid⟩ := h.find?_nodes_eq_some_iff.1 hf
        cases hb : bindArgs node.paramNames call.args with
        | error problem => simp [hf, hb] at hr
        | ok bs =>
          obtain ⟨rfl, rfl⟩ : f' = f ∧ bs = bindings := by simpa [hf, hb] using hr
          exact ⟨ht, node, hmem, hid, hb⟩
  · rintro ⟨ht, callee, hmem, hid, hb⟩
    have hf := h.find?_nodes_eq_some_iff.2 ⟨hmem, hid⟩
    simp [CallAt.resolve, ht, hf, hb]

private theorem records_of (h : g.Lawful) (n : NodeId) (index : Nat) (call : CallAt) :
    g.Records (CallSite.of g.nodes n index call) call where
  position_eq := rfl
  callee_eq := rfl
  location_eq := rfl
  target_iff := by
    intro f
    simp only [← h.resolve_eq_bound_iff, CallSite.of]
    cases call.resolve g.nodes <;> simp
  bindings_eq := by
    intro f bindings hb
    rw [← h.resolve_eq_bound_iff] at hb
    simp only [CallSite.of, hb]
  unbound := by
    simp only [CallSite.of]
    cases call.resolve g.nodes <;> simp

/-- The calls of a function that are sites, told from its body. -/
theorem mem_siteCalls_iff (h : g.Lawful) (node : Node) (call : CallAt) : call ∈ siteCalls g.nodes node ↔
    ∃ around, node.decl.HoldsCall call around ∧ Rendered around ∧ g.Keeps call.target := by
  rw [siteCalls, List.mem_filter, h.isSite_resolve_iff, (node.decl.renderCalls_listsCalls).mem_iff]
  constructor
  · rintro ⟨⟨receiver, around, hr, hplace⟩, hkept⟩
    exact ⟨around, ⟨receiver, hplace⟩, hr, hkept⟩
  · rintro ⟨around, ⟨receiver, hplace⟩, hr, hkept⟩
    exact ⟨⟨receiver, around, hr, hplace⟩, hkept⟩

private theorem forall₂_records (h : g.Lawful) (hn : g.node? n = some node) :
    List.Forall₂ g.Records (g.sitesOf n) (siteCalls g.nodes node) := by
  rw [h.sitesOf_eq hn, sitesOfNode, List.forall₂_iff_get]
  refine ⟨List.length_mapIdx, fun i hi hi' => ?_⟩
  simp only [List.get_eq_getElem, List.getElem_mapIdx]
  exact h.records_of n i _

/-- A site is looked up by the position of its call. -/
theorem siteAt?_eq_some_iff (h : g.Lawful) {body : NodeId} (hn : g.node? body = some node) (m : NodeId)
    (position : Position) :
    g.siteAt? m body position = some site ↔ m = body ∧ site ∈ g.sitesOf m ∧ site.position = position := by
  rw [siteAt?]
  split
  · rename_i hm
    subst hm
    constructor
    · intro hf
      exact ⟨rfl, List.mem_of_find?_eq_some hf, by simpa using List.find?_some hf⟩
    · rintro ⟨-, hs, rfl⟩
      exact h.find?_position hn hs
  · rename_i hm
    simp [hm]

/-- Each site stands for a call that is one, and each such call has a site. -/
theorem mem_sitesOf_iff (h : g.Lawful) (hn : g.node? n = some node) :
    site ∈ g.sitesOf n ↔ ∃ index call, (siteCalls g.nodes node)[index]? = some call ∧
      site = CallSite.of g.nodes n index call := by
  rw [h.sitesOf_eq hn, sitesOfNode, List.mem_iff_getElem?]
  refine exists_congr fun index => ?_
  rw [List.getElem?_mapIdx, Option.map_eq_some_iff]
  exact exists_congr fun call => and_congr_right fun _ => eq_comm

/-- The site found at the position of a call stands for that call. -/
theorem records_of_position (h : g.Lawful) (hn : g.node? n = some node) {around : List Frame}
    (hcall : node.decl.HoldsCall call around) (hs : site ∈ g.sitesOf n) (hpos : site.position = call.position) :
    g.Records site call ∧ Rendered around ∧ g.Keeps call.target := by
  obtain ⟨index, other, hother, rfl⟩ := (h.mem_sitesOf_iff hn).1 hs
  obtain ⟨around', hholds, hr, hkept⟩ := (h.mem_siteCalls_iff node other).1 (List.mem_of_getElem? hother)
  obtain ⟨rfl, rfl⟩ := hholds.unique hcall hpos
  exact ⟨h.records_of n index other, hr, hkept⟩

private theorem exists_site_of_call (h : g.Lawful) (hn : g.node? n = some node) {around : List Frame}
    (hcall : node.decl.HoldsCall call around) (hr : Rendered around) (hkept : g.Keeps call.target) :
    ∃ site ∈ g.sitesOf n, site.position = call.position := by
  have hmem := (h.mem_siteCalls_iff node call).2 ⟨around, hcall, hr, hkept⟩
  obtain ⟨index, hindex⟩ := List.mem_iff_getElem?.1 hmem
  exact ⟨_, (h.mem_sitesOf_iff hn).2 ⟨index, call, hindex, rfl⟩, rfl⟩

end Lawful

/-- Call sites are exact. The sites of a function stand one by one for the calls of its body that lie outside every callback
and whose target is not known or a function of the graph, in the order of the text. A call of any body, wherever it stands, is
found among the sites of a function exactly when it is one of them, and what is found stands for that very call: calls at two
positions have two sites. -/
theorem sitesOf_record_rendered_calls (v : Vocabulary) (marker : String) (files : List SourceFile) :
    let g := (build v marker files).1
    (∀ n node, g.node? n = some node → ∃ calls : List CallAt,
      (∀ call, call ∈ calls ↔ ∃ around, node.decl.HoldsCall call around ∧ Rendered around ∧ g.Keeps call.target) ∧
      (calls.map CallAt.position).Pairwise Position.Before ∧ List.Forall₂ g.Records (g.sitesOf n) calls) ∧
    ∀ (m body : NodeId) (node : Node) (call : CallAt) (around : List Frame), g.node? body = some node →
      node.decl.HoldsCall call around →
        ((g.siteAt? m body call.position).isSome = true ↔ m = body ∧ Rendered around ∧ g.Keeps call.target) ∧
        (∀ site, g.siteAt? m body call.position = some site ↔ m = body ∧ site ∈ g.sitesOf m ∧ g.Records site call) ∧
        ∀ position site site', position ≠ call.position → g.siteAt? m body call.position = some site →
          g.siteAt? m body position = some site' → site.id ≠ site'.id := by
  intro g
  have h : g.Lawful := build_lawful v marker files
  refine ⟨fun n node hn => ⟨siteCalls g.nodes node, h.mem_siteCalls_iff node, ?_, h.forall₂_records hn⟩, ?_⟩
  · exact node.decl.renderCalls_listsCalls.ordered.sublist (List.filter_sublist.map _)
  · intro m body node call around hn hcall
    refine ⟨?_, fun site => ?_, fun position site site' hne hs hs' hid => ?_⟩
    · rw [Option.isSome_iff_exists]
      constructor
      · rintro ⟨site, hs⟩
        obtain ⟨rfl, hmem, hpos⟩ := (h.siteAt?_eq_some_iff hn m call.position).1 hs
        exact ⟨rfl, (h.records_of_position hn hcall hmem hpos).2⟩
      · rintro ⟨rfl, hr, hkept⟩
        obtain ⟨site, hmem, hpos⟩ := h.exists_site_of_call hn hcall hr hkept
        exact ⟨site, (h.siteAt?_eq_some_iff hn m call.position).2 ⟨rfl, hmem, hpos⟩⟩
    · rw [h.siteAt?_eq_some_iff hn]
      constructor
      · rintro ⟨rfl, hmem, hpos⟩
        exact ⟨rfl, hmem, (h.records_of_position hn hcall hmem hpos).1⟩
      · rintro ⟨rfl, hmem, hrecords⟩
        exact ⟨rfl, hmem, hrecords.position_eq⟩
    · obtain ⟨rfl, -⟩ := (h.siteAt?_eq_some_iff hn m call.position).1 hs
      -- sites with one number are one site, which has one position
      obtain ⟨hsite, -, hpos⟩ := h.site?_of_siteAt? hs
      obtain ⟨hsite', -, hpos'⟩ := h.site?_of_siteAt? hs'
      rw [hid, hsite'] at hsite
      obtain rfl := Option.some.inj hsite
      exact hne (hpos'.symm.trans hpos)

end Graph

/-- Calls `Label(count)` twice in a row and once more when it is clicked. -/
def Sample.repeating : List SourceFile :=
  let label := reader "Label"
  let call := Expr.callTo label.toFunctionHeader [.positional (.name "count")]
  [⟨"a.kt", [declare "Panel" [.expr call, .expr call,
    .expr (.libraryCall "Button" [.named "onClick" (.block false [.expr call])])], label]⟩]

theorem Graph.sitesOf_record_rendered_calls_repeating :
    let g := (Graph.build {} "Composable" Sample.repeating).1
    ∃ first second, g.siteAt? 0 0 [0] = some first ∧ g.siteAt? 0 0 [1] = some second ∧ first.id ≠ second.id ∧
      g.siteAt? 1 0 [0] = none ∧ g.siteAt? 0 0 [0, 1, 2] = none := by
  intro g
  let call (position : Position) : CallAt :=
    ⟨position, "Label", .resolved ⟨"Label", ["State"]⟩, [.positional (.name "count")], {}⟩
  have hkept : ∀ position, g.Keeps (call position).target := by
    intro position
    exact ⟨_, List.mem_cons_of_mem _ List.mem_cons_self, rfl⟩
  obtain ⟨-, hlookup⟩ := sitesOf_record_rendered_calls {} "Composable" Sample.repeating
  have hfirst := fun m => hlookup m 0 _ (call [0]) [.block []] rfl ⟨none, rfl⟩
  have hsecond := hlookup 0 0 _ (call [1]) _ rfl ⟨none, rfl⟩
  have hclicked := hlookup 0 0 _ (call [0, 1, 2]) _ rfl ⟨none, rfl⟩
  obtain ⟨first, hf⟩ := Option.isSome_iff_exists.1 ((hfirst 0).1.2 ⟨rfl, by simp [Rendered, Frame.isCallback], hkept _⟩)
  obtain ⟨second, hs⟩ := Option.isSome_iff_exists.1 (hsecond.1.2 ⟨rfl, by simp [Rendered, Frame.isCallback], hkept _⟩)
  refine ⟨first, second, hf, hs, (hfirst 0).2.2 [1] first second (by decide) hf hs, ?_, ?_⟩
  · rw [← Option.not_isSome_iff_eq_none]
    exact fun hsome => absurd ((hfirst 1).1.1 hsome).1 (by decide)
  · rw [← Option.not_isSome_iff_eq_none]
    intro hsome
    have hrendered := (hclicked.1.1 hsome).2.1
    simp [Rendered, Frame.isCallback] at hrendered

end PassThrough

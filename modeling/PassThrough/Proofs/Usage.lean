import Mathlib.Data.Finset.Card
import Mathlib.Data.Finset.Dedup
import PassThrough.Proofs.Occurrence
import PassThrough.Source.Builder

/-! What a scan of a body finds, and the usage that follows from it. The main statement gives the usage of a
parameter in terms of its visible occurrences. -/

namespace PassThrough

/-- A recorded site is a call of the body, made outside callbacks, at the position of the site. -/
theorem Graph.Lawful.siteAt?_eq_some {g : Graph} (h : g.Lawful) {n : NodeId} {node : Node} {here : Position}
    {site : CallSite} (hn : g.node? n = some node) (hs : g.siteAt? n n here = some site) :
    ∃ call receiver around index, site = CallSite.of g.nodes n index call ∧ g.site? ⟨n, index⟩ = some site ∧ Rendered around ∧
      node.decl.placeAt? here = some ⟨.expr (.call call.callee call.target receiver call.args call.location), around⟩ := by
  simp only [siteAt?, if_true] at hs
  have hpos : site.position = here := by simpa using List.find?_some hs
  obtain ⟨index, hi⟩ := List.mem_iff_getElem?.1 (List.mem_of_find?_eq_some hs)
  have hsite : g.site? ⟨n, index⟩ = some site := hi
  obtain ⟨node', call, hn', hc, rfl⟩ := h.site?_eq_some_iff.1 hsite
  obtain rfl : node = node' := Option.some.inj (hn.symm.trans hn')
  have hmem : call ∈ node.decl.renderCalls := List.mem_of_mem_filter (List.mem_of_getElem? hc)
  obtain ⟨receiver, around, hp, hr⟩ := node.decl.renderCalls_placeAt? hmem
  refine ⟨call, receiver, around, index, rfl, hsite, hr, ?_⟩
  rwa [← hpos]

namespace Scan
variable (c : Scan)

/-- What is known of the place that a scan has come to. -/
structure At (node : Node) (callback : Bool) (around : List Frame) : Prop where
  lawful : c.graph.Lawful
  node_eq : c.graph.node? c.node = some node
  visible : ∀ frame ∈ around, frame.hides c.param = false
  callback_iff : callback = false ↔ Rendered around

variable {c} {node : Node} {callback : Bool} {around : List Frame}

theorem At.push (h : c.At node callback around) {frame : Frame} (hv : frame.hides c.param = false)
    (hc : frame.isCallback = false) : c.At node callback (frame :: around) where
  lawful := h.lawful
  node_eq := h.node_eq
  visible := List.forall_mem_cons.2 ⟨hv, h.visible⟩
  callback_iff := by simp [rendered_cons, hc, h.callback_iff]

private theorem At.pushLambda (h : c.At node callback around) (uiBuilding : Bool) {params : List String}
    (hv : params.contains c.param = false) :
    c.At node (callback || !uiBuilding) (.lambda uiBuilding params :: around) where
  lawful := h.lawful
  node_eq := h.node_eq
  visible := List.forall_mem_cons.2 ⟨hv, h.visible⟩
  callback_iff := by simp [rendered_cons, Frame.isCallback, ← h.callback_iff, and_comm]

/-- Inside a callback no site is recorded, so asking for one there changes nothing. -/
theorem At.site_eq (h : c.At node callback around) {here : Position} {focus : Focus}
    (hp : node.decl.placeAt? here = some ⟨focus, around⟩) :
    (if callback then none else c.graph.siteAt? c.node c.node here) = c.graph.siteAt? c.node c.node here := by
  cases hc : callback with
  | false => rfl
  | true =>
    cases hs : c.graph.siteAt? c.node c.node here with
    | none => rfl
    | some site =>
      obtain ⟨_, _, around', _, -, -, hr, hp'⟩ := h.lawful.siteAt?_eq_some h.node_eq hs
      obtain ⟨-, rfl⟩ : _ ∧ around = around' := by simpa using hp.symm.trans hp'
      exact absurd (h.callback_iff.2 hr) (by simp [hc])

private theorem usesOf_hidden {os : List Occurrence} {frame : Frame} {around : List Frame}
    (hs : Inside (frame :: around) os) (hh : frame.hides c.param = true) : c.usesOf os = [] :=
  c.usesOf_eq_nil fun o ho => ⟨frame, (hs o ho).subset List.mem_cons_self, hh⟩

-- The scan carries a flag where the occurrences carry layers; `At` ties the two together.
mutual
theorem exprUses_eq (node : Node) (callback : Bool) (here : Position) (around : List Frame) :
    ∀ e : Expr, c.At node callback around → node.decl.placeAt? here = some ⟨.expr e, around⟩ →
      (e.ident?.isSome → c.graph.siteAround? c.node around = none) →
      c.exprUses callback here e = c.usesOf (e.names here around)
  | .ident name _, h, _, hd => by
    simp only [exprUses, Expr.names, usesOf_singleton c h.visible, useOf, hd rfl]
  | .literal _, _, _, _ => by simp [exprUses, Expr.names, usesOf]
  | .call _ _ none args _, h, hp, _ => by
    simp only [exprUses, Expr.names, h.site_eq hp]
    exact argUses_eq node callback here around [] args h (fun i => node.decl.placeAt?_cons hp (i + 1))
  | .call _ _ (some receiver) args _, h, hp, _ => by
    simp only [exprUses, Expr.names, usesOf_append, h.site_eq hp]
    congr 1
    · exact exprUses_eq node callback _ _ receiver (h.push rfl rfl) (node.decl.placeAt?_cons hp 0) (fun _ => rfl)
    · exact argUses_eq node callback here around [] args h (fun i => node.decl.placeAt?_cons hp (i + 1))
  | .member receiver _ _, h, hp, _ => by
    simp only [exprUses, Expr.names]
    exact exprUses_eq node callback _ _ receiver (h.push rfl rfl) (node.decl.placeAt?_cons hp 0) (fun _ => rfl)
  | .template parts, h, hp, _ => by
    simp only [exprUses, Expr.names]
    exact listUses_eq node callback here around [] parts h (fun i => node.decl.placeAt?_cons hp i)
  | .lambda uiBuilding params body, h, hp, _ => by
    simp only [exprUses, Expr.names]
    split
    · rename_i hh
      have hf : (Frame.lambda uiBuilding params).hides c.param = true := hh
      exact (usesOf_hidden (namesOfBlock_inside here _ [] body) hf).symm
    · rename_i hh
      exact blockUses_eq node _ here _ [] body (h.pushLambda uiBuilding (by simpa using hh)) rfl
        (fun i => node.decl.placeAt?_cons hp i)
  | .binary _ lhs rhs, h, hp, _ => by
    simp only [exprUses, Expr.names, usesOf_append]
    congr 1
    · exact exprUses_eq node callback _ _ lhs (h.push rfl rfl) (node.decl.placeAt?_cons hp 0) (fun _ => rfl)
    · exact exprUses_eq node callback _ _ rhs (h.push rfl rfl) (node.decl.placeAt?_cons hp 1) (fun _ => rfl)
  | .branch condition thenBranch elseBranch, h, hp, _ => by
    simp only [exprUses, Expr.names, usesOf_append]
    congr 1
    · congr 1
      · exact exprUses_eq node callback _ _ condition (h.push rfl rfl) (node.decl.placeAt?_cons hp 0) (fun _ => rfl)
      · exact blockUses_eq node callback _ around [] thenBranch h rfl
          (fun i => node.decl.placeAt?_cons (node.decl.placeAt?_cons hp 1) i)
    · exact blockUses_eq node callback _ around [] elseBranch h rfl
        (fun i => node.decl.placeAt?_cons (node.decl.placeAt?_cons hp 2) i)
  | .other children, h, hp, _ => by
    simp only [exprUses, Expr.names]
    exact listUses_eq node callback here around [] children h (fun i => node.decl.placeAt?_cons hp i)
theorem argUses_eq (node : Node) (callback : Bool) (here : Position) (around : List Frame) :
    ∀ earlier args : List (Argument Expr), c.At node callback around →
      (∀ i, node.decl.placeAt? ((i + 1) :: here) = argPlace? here around (earlier ++ args) i) →
      c.argUses callback (c.graph.siteAt? c.node c.node here) here earlier.length args =
        c.usesOf (namesOfArgs here around earlier.length args)
  | _, [], _, _ => by simp [argUses, namesOfArgs, usesOf]
  | earlier, ⟨name, trailing, value⟩ :: rest, h, hp => by
    simp only [argUses, namesOfArgs, usesOf_append]
    have hfirst := (hp earlier.length).trans (argPlace?_append here around earlier _ rest)
    have harg : c.At node callback (.argument here earlier.length :: around) := h.push rfl rfl
    have hrest := argUses_eq node callback here around (earlier ++ [⟨name, trailing, value⟩]) rest h (by simpa using hp)
    rw [List.length_append, List.length_singleton] at hrest
    congr 1
    cases hs : c.graph.siteAt? c.node c.node here with
    | none =>
      exact exprUses_eq node callback _ _ value harg hfirst (fun _ => by rw [siteAround?_argument, hs]; rfl)
    | some site =>
      cases hv : value.ident? with
      | none => exact exprUses_eq node callback _ _ value harg hfirst (by simp [hv])
      | some x =>
        obtain ⟨location, rfl⟩ : ∃ location, value = .ident x location := by
          cases value <;> simp_all [Expr.ident?]
        simp only [Expr.names, usesOf_singleton c harg.visible, useOf, siteAround?_argument, hs, Option.map_some]
theorem listUses_eq (node : Node) (callback : Bool) (here : Position) (around : List Frame) :
    ∀ earlier parts : List Expr, c.At node callback around →
      (∀ i, node.decl.placeAt? (i :: here) = partPlace? around (earlier ++ parts) i) →
      c.listUses callback here earlier.length parts = c.usesOf (namesOfExprs here around earlier.length parts)
  | _, [], _, _ => by simp [listUses, namesOfExprs, usesOf]
  | earlier, e :: rest, h, hp => by
    simp only [listUses, namesOfExprs, usesOf_append]
    have hfirst := (hp earlier.length).trans (partPlace?_append around earlier e rest)
    have hrest := listUses_eq node callback here around (earlier ++ [e]) rest h (by simpa using hp)
    rw [List.length_append, List.length_singleton] at hrest
    rw [hrest, exprUses_eq node callback _ _ e (h.push rfl rfl) hfirst (fun _ => rfl)]
theorem stmtUses_eq (node : Node) (callback : Bool) (here : Position) (around : List Frame) :
    ∀ s : Stmt, c.At node callback around → node.decl.placeAt? here = s.place? around →
      c.graph.siteAround? c.node around = none → c.stmtUses callback here s = c.usesOf (s.names here around)
  | .val _ _ none _, _, _, _ => by simp [stmtUses, Stmt.names, usesOf]
  | .val _ _ (some e) _, h, hp, hd => by
    simp only [stmtUses, Stmt.names]
    exact exprUses_eq node callback here around e h hp (fun _ => hd)
  | .expr e, h, hp, hd => by
    simp only [stmtUses, Stmt.names]
    exact exprUses_eq node callback here around e h hp (fun _ => hd)
  | .nested header body, h, hp, _ => by
    simp only [stmtUses, Stmt.names]
    split
    · rename_i hh
      have hf : (Frame.nested header).hides c.param = true := hh
      exact (usesOf_hidden (namesOfBlock_inside here _ [] body) hf).symm
    · rename_i hh
      have hf : (Frame.nested header).hides c.param = false := by simpa [Frame.hides] using hh
      exact blockUses_eq node callback here _ [] body (h.push hf rfl) rfl
        (fun i => node.decl.placeAt?_cons hp i)
  | .ret none, _, _, _ => by simp [stmtUses, Stmt.names, usesOf]
  | .ret (some e), h, hp, hd => by
    simp only [stmtUses, Stmt.names]
    exact exprUses_eq node callback here around e h hp (fun _ => hd)
theorem blockUses_eq (node : Node) (callback : Bool) (here : Position) (around : List Frame) :
    ∀ earlier body : List Stmt, c.At node callback around → (earlier.any (·.declares c.param)) = false →
      (∀ i, node.decl.placeAt? (i :: here) = stmtPlace? around (earlier ++ body) i) →
      c.blockUses callback here earlier.length body = c.usesOf (namesOfBlock here around earlier body)
  | _, [], _, _, _ => by simp [blockUses, namesOfBlock, usesOf]
  | earlier, s :: rest, h, he, hp => by
    simp only [blockUses, namesOfBlock, usesOf_append]
    have hfirst := (hp earlier.length).trans (stmtPlace?_append around earlier s rest)
    have hf : (Frame.block earlier).hides c.param = false := he
    rw [stmtUses_eq node callback _ _ s (h.push hf rfl) hfirst rfl]
    congr 1
    split
    · rename_i hs
      refine (c.usesOf_eq_nil fun o ho => ?_).symm
      obtain ⟨later, hl⟩ := block_mem_around ho
      exact ⟨_, hl, by simp [Frame.hides, hs]⟩
    · rename_i hs
      have hrest := blockUses_eq node callback here around (earlier ++ [s]) rest h (by simp [he, hs]) (by simpa using hp)
      rwa [List.length_append, List.length_singleton] at hrest
end

end Scan

theorem Usage.ofUses_consumed_iff (g : Graph) (uses : List Use) :
    (Usage.ofUses g uses).classification = .consumed ↔ Use.read ∈ uses := by
  by_cases hr : Use.read ∈ uses
  · simp [Usage.ofUses, hr]
  · simp only [Usage.ofUses, List.contains_eq_mem, hr, decide_false, Bool.false_eq_true, if_false, iff_false]
    split <;> simp

/-- The occurrences of a name in the body that nothing around them binds. -/
def FunctionDecl.visible (f : FunctionDecl) (name : String) : List Occurrence :=
  (f.occurrences name).filter Occurrence.isVisible

namespace Graph
variable {g : Graph} {n : NodeId} {node : Node} {l : Link}

/-- The forward made by an occurrence: its site has a target, and the parameter bound there accepts the kind. -/
def forwardAt? (g : Graph) (n : NodeId) (kind : Kind) (o : Occurrence) : Option Forward :=
  (g.siteAround? n o.around).bind fun (site, index) =>
    site.target.bind fun f => (site.paramOf? index).bind fun param =>
      ((g.find? f).bind (·.param? param)).bind fun q =>
        if kind.assignableTo q.kind then some ⟨site.id, param⟩ else none

/-- The scan finds the visible occurrences, in the order of the text. -/
theorem Lawful.uses_eq (h : g.Lawful) (hn : g.node? l.node = some node) (kind : Kind) :
    g.uses l node kind = (node.decl.visible l.param).map (Scan.useOf ⟨g, l.node, l.param, kind⟩) := by
  have hat : Scan.At ⟨g, l.node, l.param, kind⟩ node false [] := ⟨h, hn, by simp, by simp [Rendered]⟩
  have hb := Scan.blockUses_eq node false [] [] [] node.decl.body hat rfl (fun _ => rfl)
  simpa only [uses, List.length_nil, Scan.usesOf, FunctionDecl.visible, FunctionDecl.occurrences, List.filter_filter]
    using hb

/-- The argument occurrences of a body are arguments of calls made outside callbacks. -/
theorem Lawful.siteAround?_eq_some (h : g.Lawful) (hn : g.node? n = some node) {name : String} {o : Occurrence}
    (ho : o ∈ node.decl.occurrences name) {site : CallSite} {index : Nat}
    (hs : g.siteAround? n o.around = some (site, index)) :
    Rendered o.around ∧ g.site? site.id = some site ∧ site.id.caller = n ∧
      (∀ f, site.target = some f → ∃ binding, site.bindings[index]? = some binding ∧ binding.value.ident? = some o.name) := by
  obtain ⟨location, hp⟩ := node.decl.placeAt?_of_mem_occurrences ho
  cases hf : o.around with
  | nil => simp [hf, siteAround?] at hs
  | cons frame around =>
    cases frame with
    | argument call _ =>
      rw [hf, Scan.siteAround?_argument ⟨g, n, name, .plain⟩, Option.map_eq_some_iff] at hs
      obtain ⟨_, hs, heq⟩ := hs
      cases heq
      rw [hf] at hp
      obtain ⟨callee, target, receiver, args, place, a, -, ha, hv, hcall⟩ := node.decl.placeAt?_argument hp
      obtain ⟨c, receiver', around', k, rfl, hsite, hr, hcall'⟩ := h.siteAt?_eq_some hn hs
      have heq := Option.some.inj (hcall.symm.trans hcall')
      simp only [Place.mk.injEq, Focus.expr.injEq, Expr.call.injEq] at heq
      obtain ⟨⟨rfl, rfl, rfl, rfl, rfl⟩, rfl⟩ := heq
      refine ⟨rendered_cons.2 ⟨rfl, hr⟩, hsite, rfl, fun f hf => ?_⟩
      obtain ⟨_, callee, -, -, hb⟩ := h.target_eq_some (s := ⟨n, k⟩) hf
      have hvals := congrArg (fun es => es[index]?) (bindArgsFrom_values _ _ _ _ hb)
      simp only [List.getElem?_map, ha, Option.map_some, Option.map_eq_some_iff] at hvals
      obtain ⟨binding, hbind, hval⟩ := hvals
      exact ⟨binding, hbind, by rw [hval, hv]; rfl⟩
    | operand => simp [hf, siteAround?] at hs
    | lambda uiBuilding params => simp [hf, siteAround?] at hs
    | nested header => simp [hf, siteAround?] at hs
    | block earlier => simp [hf, siteAround?] at hs

/-- An occurrence reads the parameter, unless it is an argument at a site: then it forwards it or leads nowhere. -/
theorem Lawful.useOf_eq (h : g.Lawful) (hn : g.node? n = some node) {name : String} {o : Occurrence}
    (ho : o ∈ node.decl.occurrences name) (param : String) (kind : Kind) :
    Scan.useOf ⟨g, n, param, kind⟩ o =
      if (g.siteAround? n o.around).isNone then .read
      else match g.forwardAt? n kind o with
        | some f => .forward f
        | none => .deadEnd := by
  cases hs : g.siteAround? n o.around with
  | none => simp [Scan.useOf, hs]
  | some found =>
    obtain ⟨site, index⟩ := found
    obtain ⟨-, -, -, hbound⟩ := h.siteAround?_eq_some hn ho hs
    simp only [Scan.useOf, hs, Scan.argumentUse, forwardAt?, Option.bind_some, Option.isNone_some, Bool.false_eq_true,
      if_false]
    cases ht : site.target with
    | none => rfl
    | some f =>
      obtain ⟨binding, hb, -⟩ := hbound f ht
      have hp : site.paramOf? index = some binding.param := by simp [CallSite.paramOf?, hb]
      simp only [hp, Option.bind_some]
      cases (g.find? f).bind (·.param? binding.param) with
      | none => rfl
      | some q =>
        simp only [Option.bind_some]
        split <;> rfl

private theorem filterMap_congr_map {α β γ : Type} {as : List α} {f : α → β} {p : β → Option γ} {q : α → Option γ}
    (h : ∀ a ∈ as, p (f a) = q a) : (as.map f).filterMap p = as.filterMap q := by
  rw [List.filterMap_map]
  exact List.filterMap_congr h

/-- A declared parameter is always classified: no argument at a site with a target goes unbound. -/
theorem Lawful.classify_eq_ok (h : g.Lawful) (hn : g.node? l.node = some node) {p : Parameter}
    (hp : node.param? l.param = some p) : g.classify l = .ok (Usage.ofUses g (g.uses l node p.kind)) := by
  have hunbound : (g.uses l node p.kind).filterMap Use.unbound? = [] := by
    rw [h.uses_eq hn, filterMap_congr_map (q := fun _ => none)]
    · simp
    · intro o ho
      rw [h.useOf_eq hn (List.mem_of_mem_filter ho)]
      split
      · rfl
      · split <;> rfl
  simp [classify, hn, hp, hunbound]

theorem Lawful.ofUses_forwards (h : g.Lawful) (hn : g.node? l.node = some node) (kind : Kind) :
    (Usage.ofUses g (g.uses l node kind)).forwards = (node.decl.visible l.param).filterMap (g.forwardAt? l.node kind) := by
  rw [Usage.ofUses, h.uses_eq hn]
  refine filterMap_congr_map fun o ho => ?_
  rw [h.useOf_eq hn (List.mem_of_mem_filter ho)]
  cases hs : g.siteAround? l.node o.around with
  | none => simp [forwardAt?, hs, Use.forward?]
  | some found => cases g.forwardAt? l.node kind o <;> simp [Use.forward?]

theorem Lawful.read_mem_uses_iff (h : g.Lawful) (hn : g.node? l.node = some node) (kind : Kind) :
    Use.read ∈ g.uses l node kind ↔ ∃ o ∈ node.decl.visible l.param, g.siteAround? l.node o.around = none := by
  rw [h.uses_eq hn, List.mem_map]
  refine exists_congr fun o => and_congr_right fun ho => ?_
  rw [h.useOf_eq hn (List.mem_of_mem_filter ho)]
  cases g.siteAround? l.node o.around with
  | none => simp
  | some found => cases g.forwardAt? l.node kind o <;> simp

theorem Lawful.count_deadEnd (h : g.Lawful) (hn : g.node? l.node = some node) (kind : Kind) :
    (g.uses l node kind).count .deadEnd = (node.decl.visible l.param).countP fun o =>
      (g.siteAround? l.node o.around).isSome && (g.forwardAt? l.node kind o).isNone := by
  rw [h.uses_eq hn, List.count, List.countP_map]
  refine List.countP_congr fun o ho => ?_
  rw [Function.comp_apply, h.useOf_eq hn (List.mem_of_mem_filter ho)]
  cases g.siteAround? l.node o.around with
  | none => simp
  | some found => cases g.forwardAt? l.node kind o <;> simp

theorem nodup_eraseDups {α : Type} [DecidableEq α] (as : List α) : as.eraseDups.Nodup := by
  induction hn : as.length using Nat.strong_induction_on generalizing as with
  | _ n ih =>
    cases as with
    | nil => simp
    | cons a rest =>
      have hlen : (rest.filter fun b => !b == a).length < n := by
        have := List.length_filter_le (fun b => !b == a) rest
        simp only [List.length_cons] at hn
        omega
      rw [List.eraseDups_cons, List.nodup_cons, List.mem_eraseDups]
      exact ⟨by simp, ih _ hlen _ rfl⟩

theorem length_reached (g : Graph) (forwards : List Forward) : (g.reached forwards).length =
    (forwards.filterMap fun f => (g.site? f.site).bind CallSite.target).toFinset.card := by
  rw [reached, ← List.toFinset_card_of_nodup (nodup_eraseDups _)]
  congr 1
  ext f
  simp

/-- The usage of a declared parameter, told from its visible occurrences. It is consumed iff one of them is no argument
at a call site; the forwards are the arguments at sites with a target that accept its kind, in the order of the text;
the dead ends are the other arguments. Arguments at call sites never lie in callbacks. -/
theorem classify_eq_visible_occurrences (v : Vocabulary) (marker : String) (files : List SourceFile)
    (n : NodeId) (node : Node) (name : String) (p : Parameter)
    (hn : (build v marker files).1.node? n = some node) (hp : node.param? name = some p) :
    let g := (build v marker files).1
    ∃ u, g.classify ⟨n, name⟩ = .ok u ∧
      (u.classification = .consumed ↔ ∃ o ∈ node.decl.visible name, g.siteAround? n o.around = none) ∧
      (u.classification ≠ .consumed →
        u.classification = match u.forwards with
          | first :: _ => .forwarded first
          | [] => .unused) ∧
      u.forwards = (node.decl.visible name).filterMap (g.forwardAt? n p.kind) ∧
      u.deadEnds = (node.decl.visible name).countP (fun o =>
        (g.siteAround? n o.around).isSome && (g.forwardAt? n p.kind o).isNone) ∧
      u.fanOut = (u.forwards.filterMap fun f => (g.site? f.site).bind CallSite.target).toFinset.card ∧
      ∀ o ∈ node.decl.occurrences name, (g.siteAround? n o.around).isSome → Rendered o.around := by
  intro g
  have h : g.Lawful := build_lawful v marker files
  have hn' : g.node? (Link.mk n name).node = some node := hn
  refine ⟨_, h.classify_eq_ok hn' hp, ?_, ?_, h.ofUses_forwards hn' p.kind, h.count_deadEnd hn' p.kind,
    length_reached g _, ?_⟩
  · exact (Usage.ofUses_consumed_iff g _).trans (h.read_mem_uses_iff hn' p.kind)
  · rw [ne_eq, Usage.ofUses_consumed_iff]
    intro hr
    cases hf : (g.uses ⟨n, name⟩ node p.kind).filterMap Use.forward? with
    | nil => simp [Usage.ofUses, hr, hf]
    | cons first rest => simp [Usage.ofUses, hr, hf]
  · intro o ho hs
    obtain ⟨⟨site, index⟩, hs⟩ := Option.isSome_iff_exists.1 hs
    exact (h.siteAround?_eq_some hn ho hs).1

end Graph

namespace Sample

/-- A function that builds UI from one piece of state. -/
def declare (name : String) (body : List Stmt) : FunctionDecl :=
  { name, annotations := [{ name := "Composable" }]
    params := [{ name := "count", type := some { name := "State" } }], body }

def reader (name : String) : FunctionDecl := declare name [.expr (.memberOf (.name "count") "value")]

def relay (name : String) (next : FunctionDecl) : FunctionDecl :=
  declare name [.expr (.callTo next.toFunctionHeader [.positional (.name "count")])]

/-- Hands `count` on to `next`; where the name occurs again, a lambda or a local has taken it. -/
def shadowing (name : String) (next : FunctionDecl) : FunctionDecl :=
  declare name [.expr (.callTo next.toFunctionHeader [.positional (.name "count")]),
    .expr (.lambda true ["count"] [.expr (.name "count")]), .bind "count" (.literal "0"), .expr (.name "count")]

end Sample

theorem Graph.classify_shadowing_count :
    ∃ u, (Graph.build {} "Composable"
        [⟨"a.kt", [Sample.shadowing "Panel" (Sample.reader "Label"), Sample.reader "Label"]⟩]).1.classify
        ⟨0, "count"⟩ = .ok u ∧
      u.classification = .forwarded ⟨⟨0, 0⟩, "count"⟩ ∧ u.forwards = [⟨⟨0, 0⟩, "count"⟩] ∧ u.deadEnds = 0 := by
  obtain ⟨u, hu, hconsumed, hclass, hforwards, hdead, -⟩ := Graph.classify_eq_visible_occurrences {} "Composable"
    [⟨"a.kt", [Sample.shadowing "Panel" (Sample.reader "Label"), Sample.reader "Label"]⟩] 0
    (Node.ofDecl {} "a.kt" (Sample.shadowing "Panel" (Sample.reader "Label"))) "count"
    ⟨"count", some "State", .valueHolder, ⟨"a.kt", 0, 0⟩⟩ rfl rfl
  have hforwards : u.forwards = [⟨⟨0, 0⟩, "count"⟩] := hforwards.trans (by decide +kernel)
  have hread : u.classification ≠ .consumed := by
    rw [ne_eq, hconsumed]
    decide +kernel
  refine ⟨u, hu, ?_, hforwards, hdead.trans (by decide +kernel)⟩
  rw [hclass hread, hforwards]

end PassThrough

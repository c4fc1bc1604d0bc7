import PassThrough.Proofs.Memo
import PassThrough.Proofs.Tables

/-! Usages worked out over tables. The scan of a body counts the callbacks that it is in, goes on where the parameter is hidden
and looks up a site for every call outside callbacks. It raises no fault and finds the uses of the parameter. -/

namespace PassThrough

theorem mapM_eq_pure {α β : Type} {f : α → Except Fault β} {g : α → β} {as : List α} (h : ∀ a ∈ as, f a = pure (g a)) :
    as.mapM f = pure (as.map g) := by
  induction as with
  | nil => rfl
  | cons a rest ih =>
    obtain ⟨ha, hrest⟩ := List.forall_mem_cons.1 h
    rw [List.mapM_cons, ha, pure_bind, ih hrest, pure_bind, List.map_cons]

/-- The parameter that a scan over tables looks for. -/
structure Scanner where
  tables : Tables
  node : NodeId
  param : String
  kind : Kind

namespace Scanner

/-- What it means to pass the parameter as an argument at a site. -/
def argumentUse (c : Scanner) (site : CallSite) (argument : Nat) : Except Fault Use :=
  match site.target with
  | none => pure .deadEnd
  | some f =>
    match site.paramOf? argument with
    | none => pure (.unbound site.callee)
    | some p => do
      let callee ← c.tables.findNode f
      match callee.bind (·.param? p) with
      | some q => pure (if c.kind.assignableTo q.kind then .forward ⟨site.id, p⟩ else .deadEnd)
      | none => pure .deadEnd

/-- The site for the call at a place, looked up outside callbacks only. -/
def siteOf (c : Scanner) (depth : Nat) (here : Position) : Except Fault (Option CallSite) :=
  if depth = 0 then c.tables.siteFor c.node here else pure none

/-- The number of callbacks around, after the innermost is left. -/
def leave : Nat → Except Fault Nat
  | 0 => throw .depth
  | depth + 1 => pure depth

def refers (c : Scanner) (hidden : Bool) (name : String) : Bool := !hidden && name == c.param

mutual
/-- The uses in an expression and the number of callbacks around when it is left. -/
def exprUses (c : Scanner) (hidden : Bool) (depth : Nat) (here : Position) : Expr → Except Fault (List Use × Nat)
  | .ident name _ => pure (if c.refers hidden name then [.read] else [], depth)
  | .literal _ => pure ([], depth)
  | .call _ _ none args _ => do
    let site ← c.siteOf depth here
    argUses c hidden depth site here 0 args
  | .call _ _ (some receiver) args _ => do
    let site ← c.siteOf depth here
    let first ← exprUses c hidden depth (0 :: here) receiver
    let rest ← argUses c hidden first.2 site here 0 args
    pure (first.1 ++ rest.1, rest.2)
  | .member receiver _ _ => exprUses c hidden depth (0 :: here) receiver
  | .template parts => listUses c hidden depth here 0 parts
  | .lambda uiBuilding params body =>
    if params.contains c.param then pure ([], depth)
    else if uiBuilding then blockUses c hidden depth here 0 body
    else do
      let inside ← blockUses c hidden (depth + 1) here 0 body
      let depth ← leave inside.2
      pure (inside.1, depth)
  | .binary _ lhs rhs => do
    let first ← exprUses c hidden depth (0 :: here) lhs
    let rest ← exprUses c hidden first.2 (1 :: here) rhs
    pure (first.1 ++ rest.1, rest.2)
  | .branch condition thenBranch elseBranch => do
    let first ← exprUses c hidden depth (0 :: here) condition
    let yes ← blockUses c hidden first.2 (1 :: here) 0 thenBranch
    let no ← blockUses c hidden yes.2 (2 :: here) 0 elseBranch
    pure (first.1 ++ yes.1 ++ no.1, no.2)
  | .other children => listUses c hidden depth here 0 children
def argUses (c : Scanner) (hidden : Bool) (depth : Nat) (site : Option CallSite) (here : Position) (i : Nat) :
    List (Argument Expr) → Except Fault (List Use × Nat)
  | [] => pure ([], depth)
  | ⟨_, _, value⟩ :: rest => do
    let first ← match site, value.ident? with
      | some s, some name =>
        if c.refers hidden name then do
          let use ← c.argumentUse s i
          pure ([use], depth)
        else exprUses c hidden depth ((i + 1) :: here) value
      | _, _ => exprUses c hidden depth ((i + 1) :: here) value
    let later ← argUses c hidden first.2 site here (i + 1) rest
    pure (first.1 ++ later.1, later.2)
def listUses (c : Scanner) (hidden : Bool) (depth : Nat) (here : Position) (i : Nat) :
    List Expr → Except Fault (List Use × Nat)
  | [] => pure ([], depth)
  | e :: rest => do
    let first ← exprUses c hidden depth (i :: here) e
    let later ← listUses c hidden first.2 here (i + 1) rest
    pure (first.1 ++ later.1, later.2)
def stmtUses (c : Scanner) (hidden : Bool) (depth : Nat) (here : Position) : Stmt → Except Fault (List Use × Nat)
  | .val _ _ none _ => pure ([], depth)
  | .val _ _ (some e) _ => exprUses c hidden depth here e
  | .expr e => exprUses c hidden depth here e
  | .nested header body =>
    if header.declares c.param then pure ([], depth) else blockUses c hidden depth here 0 body
  | .ret none => pure ([], depth)
  | .ret (some e) => exprUses c hidden depth here e
/-- The statements after a local of the same name are scanned too, with the parameter hidden. -/
def blockUses (c : Scanner) (hidden : Bool) (depth : Nat) (here : Position) (i : Nat) :
    List Stmt → Except Fault (List Use × Nat)
  | [] => pure ([], depth)
  | s :: rest => do
    let first ← stmtUses c hidden depth (i :: here) s
    let later ← blockUses c (hidden || s.declares c.param) first.2 here (i + 1) rest
    pure (first.1 ++ later.1, later.2)
end

/-- The same search without tables. -/
def scan (c : Scanner) : Scan := ⟨c.tables.toGraph, c.node, c.param, c.kind⟩

variable {c : Scanner}

private theorem argumentUse_eq (h : c.tables.Sound) (site : CallSite) (argument : Nat) :
    c.argumentUse site argument = pure (c.scan.argumentUse site argument) := by
  unfold argumentUse Scan.argumentUse
  cases site.target with
  | none => rfl
  | some f =>
    dsimp only
    cases site.paramOf? argument with
    | none => rfl
    | some p =>
      simp only [h.findNode_eq, pure_bind, scan]
      cases (c.tables.find? f).bind (·.param? p) <;> rfl

private theorem siteOf_eq (h : c.tables.Sound) (depth : Nat) (here : Position) : c.siteOf depth here =
    pure (if depth != 0 then none else c.scan.graph.siteAt? c.scan.node c.scan.node here) := by
  rw [siteOf, h.siteFor_eq]
  cases depth <;> rfl

-- A scan leaves as many callbacks as it enters, so that the counter of each part is the one it started with.
mutual
theorem exprUses_eq (h : c.tables.Sound) (hidden : Bool) (depth : Nat) (here : Position) : ∀ e : Expr,
    c.exprUses hidden depth here e = pure (if hidden then [] else c.scan.exprUses (depth != 0) here e, depth)
  | .ident name _ => by
    have hparam : c.scan.param = c.param := rfl
    cases hidden <;> simp [exprUses, Scan.exprUses, refers, hparam]
  | .literal _ => by simp [exprUses, Scan.exprUses]
  | .call _ _ none args _ => by
    rw [exprUses, siteOf_eq h, pure_bind, argUses_eq h hidden depth _ here 0 args, Scan.exprUses]
  | .call _ _ (some receiver) args _ => by
    rw [exprUses, siteOf_eq h, pure_bind, exprUses_eq h hidden depth _ receiver, pure_bind,
      argUses_eq h hidden depth _ here 0 args, pure_bind, Scan.exprUses]
    cases hidden <;> rfl
  | .member receiver _ _ => by rw [exprUses, exprUses_eq h hidden depth _ receiver, Scan.exprUses]
  | .template parts => by rw [exprUses, listUses_eq h hidden depth here 0 parts, Scan.exprUses]
  | .lambda uiBuilding params body => by
    have hparam : c.scan.param = c.param := rfl
    rw [exprUses, Scan.exprUses, hparam]
    cases params.contains c.param with
    | true => simp
    | false =>
      cases uiBuilding with
      | true => simpa using blockUses_eq h hidden depth here 0 body
      | false =>
        rw [if_neg (by simp), if_neg (by simp), blockUses_eq h hidden (depth + 1) here 0 body, pure_bind]
        simp [leave]
  | .binary _ lhs rhs => by
    rw [exprUses, exprUses_eq h hidden depth _ lhs, pure_bind, exprUses_eq h hidden depth _ rhs, pure_bind, Scan.exprUses]
    cases hidden <;> rfl
  | .branch condition thenBranch elseBranch => by
    rw [exprUses, exprUses_eq h hidden depth _ condition, pure_bind, blockUses_eq h hidden depth _ 0 thenBranch, pure_bind,
      blockUses_eq h hidden depth _ 0 elseBranch, pure_bind, Scan.exprUses]
    cases hidden <;> rfl
  | .other children => by rw [exprUses, listUses_eq h hidden depth here 0 children, Scan.exprUses]
theorem argUses_eq (h : c.tables.Sound) (hidden : Bool) (depth : Nat) (site : Option CallSite) (here : Position) (i : Nat) :
    ∀ args : List (Argument Expr), c.argUses hidden depth site here i args =
      pure (if hidden then [] else c.scan.argUses (depth != 0) site here i args, depth)
  | [] => by simp [argUses, Scan.argUses]
  | ⟨_, _, value⟩ :: rest => by
    have hparam : c.scan.param = c.param := rfl
    have hvalue := exprUses_eq h hidden depth ((i + 1) :: here) value
    cases site with
    | none =>
      simp only [argUses, Scan.argUses, hvalue, pure_bind, argUses_eq h hidden depth none here (i + 1) rest]
      cases hidden <;> rfl
    | some s =>
      cases hname : value.ident? with
      | none =>
        simp only [argUses, Scan.argUses, hname, hvalue, pure_bind, argUses_eq h hidden depth (some s) here (i + 1) rest]
        cases hidden <;> rfl
      | some name =>
        obtain ⟨location, rfl⟩ : ∃ location, value = .ident name location := by
          cases value <;> simp_all [Expr.ident?]
        simp only [argUses, Scan.argUses, hname, hvalue, Scan.exprUses, hparam, refers]
        cases hidden with
        | true => simp [argUses_eq h true depth (some s) here (i + 1) rest]
        | false =>
          by_cases hn : name = c.param
          · simp [hn, argumentUse_eq h, argUses_eq h false depth (some s) here (i + 1) rest]
          · simp [hn, argUses_eq h false depth (some s) here (i + 1) rest]
theorem listUses_eq (h : c.tables.Sound) (hidden : Bool) (depth : Nat) (here : Position) (i : Nat) : ∀ parts : List Expr,
    c.listUses hidden depth here i parts = pure (if hidden then [] else c.scan.listUses (depth != 0) here i parts, depth)
  | [] => by simp [listUses, Scan.listUses]
  | e :: rest => by
    rw [listUses, exprUses_eq h hidden depth _ e, pure_bind, listUses_eq h hidden depth here (i + 1) rest, pure_bind,
      Scan.listUses]
    cases hidden <;> rfl
theorem stmtUses_eq (h : c.tables.Sound) (hidden : Bool) (depth : Nat) (here : Position) : ∀ s : Stmt,
    c.stmtUses hidden depth here s = pure (if hidden then [] else c.scan.stmtUses (depth != 0) here s, depth)
  | .val _ _ none _ => by simp [stmtUses, Scan.stmtUses]
  | .val _ _ (some e) _ => by rw [stmtUses, exprUses_eq h hidden depth here e, Scan.stmtUses]
  | .expr e => by rw [stmtUses, exprUses_eq h hidden depth here e, Scan.stmtUses]
  | .nested header body => by
    have hparam : c.scan.param = c.param := rfl
    rw [stmtUses, Scan.stmtUses, hparam]
    cases header.declares c.param with
    | true => simp
    | false => simpa using blockUses_eq h hidden depth here 0 body
  | .ret none => by simp [stmtUses, Scan.stmtUses]
  | .ret (some e) => by rw [stmtUses, exprUses_eq h hidden depth here e, Scan.stmtUses]
theorem blockUses_eq (h : c.tables.Sound) (hidden : Bool) (depth : Nat) (here : Position) (i : Nat) : ∀ body : List Stmt,
    c.blockUses hidden depth here i body = pure (if hidden then [] else c.scan.blockUses (depth != 0) here i body, depth)
  | [] => by simp [blockUses, Scan.blockUses]
  | s :: rest => by
    have hparam : c.scan.param = c.param := rfl
    rw [blockUses, stmtUses_eq h hidden depth _ s, pure_bind, blockUses_eq h (hidden || s.declares c.param) depth here (i + 1) rest,
      pure_bind, Scan.blockUses, hparam]
    cases hidden <;> cases s.declares c.param <;> simp
end

end Scanner

/-- A forward names a site that the graph has. -/
theorem Graph.Lawful.site?_of_mem_forwards {g : Graph} (h : g.Lawful) {l : Link} {f : Forward}
    (hf : f ∈ (g.usageOf l).forwards) : ∃ site, g.site? f.site = some site := by
  obtain ⟨-, next, -, -, hnext, -⟩ := h.next?_of_mem_forwards hf
  obtain ⟨n, hcallee, -⟩ := Option.map_eq_some_iff.1 hnext
  obtain ⟨site, hs, -⟩ := Option.bind_eq_some_iff.1 hcallee
  exact ⟨site, hs⟩

namespace Tables

/-- What a function does with one of its parameters. The sites of the forwards are visited once more, for their targets. -/
def classify (t : Tables) (l : Link) : Except Fault (Except UsageProblem Usage) := do
  let node ← t.nodeAt l.node
  match node.param? l.param with
  | none => pure (.error (.noParameter node.name l.param))
  | some p => do
    let found ← Scanner.blockUses ⟨t, l.node, l.param, p.kind⟩ false 0 [] 0 node.decl.body
    match (found.1.filterMap Use.unbound?).getLast? with
    | some callee => pure (.error (.unbound l.param callee))
    | none => do
      let forwards := found.1.filterMap Use.forward?
      let targets ← forwards.mapM fun f => CallSite.target <$> t.siteAt f.site
      pure (.ok
        { classification :=
            if found.1.contains .read then .consumed
            else match forwards with
              | f :: _ => .forwarded f
              | [] => .unused
          forwards
          fanOut := (targets.filterMap id).eraseDups.length
          deadEnds := found.1.count .deadEnd })

theorem Sound.classify_eq {t : Tables} (h : t.Sound) {l : Link} {node : Node} (hn : t.node? l.node = some node) :
    t.classify l = pure (t.toGraph.classify l) := by
  cases hp : node.param? l.param with
  | none => simp only [classify, nodeAt_eq hn, pure_bind, Graph.classify, hn, hp]
  | some p =>
    have hscan : Scanner.blockUses ⟨t, l.node, l.param, p.kind⟩ false 0 [] 0 node.decl.body =
        pure (t.uses l node p.kind, 0) := Scanner.blockUses_eq h false 0 [] 0 node.decl.body
    simp only [classify, nodeAt_eq hn, pure_bind, Graph.classify, hn, hp, hscan]
    cases hunbound : ((t.uses l node p.kind).filterMap Use.unbound?).getLast? with
    | some callee => rfl
    | none =>
      have htargets : ∀ f ∈ (t.uses l node p.kind).filterMap Use.forward?,
          CallSite.target <$> t.siteAt f.site = pure ((t.site? f.site).bind CallSite.target) := by
        intro f hf
        have hmem : f ∈ (t.usageOf l).forwards := by
          rw [h.lawful.usageOf_eq hn hp]
          exact hf
        obtain ⟨site, hs⟩ := h.lawful.site?_of_mem_forwards hmem
        rw [siteAt_eq hs, hs, map_pure, Option.bind_some]
      simp only [mapM_eq_pure htargets, pure_bind, List.filterMap_map, Function.id_comp]
      rfl

end Tables
end PassThrough

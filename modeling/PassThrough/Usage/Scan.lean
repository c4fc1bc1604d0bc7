import PassThrough.Usage.Basic

/-! Finding the uses of a parameter in the body of its function. A reference is a use only where no
local, lambda parameter or local-function parameter of the same name hides the parameter. -/

namespace PassThrough

/-- The parameter that a scan looks for. -/
structure Scan where
  graph : Graph
  node : NodeId
  param : String
  kind : Kind

namespace Scan

/-- What it means to pass the parameter as an argument at a call site. -/
def argumentUse (c : Scan) (site : CallSite) (argument : Nat) : Use :=
  match site.target with
  | none => .deadEnd
  | some f =>
    match site.paramOf? argument with
    | none => .unbound site.callee
    | some p =>
      match (c.graph.find? f).bind (·.param? p) with
      | some q => if c.kind.assignableTo q.kind then .forward ⟨site.id, p⟩ else .deadEnd
      | none => .deadEnd

mutual
/-- The uses in an expression, in the order of the text. Inside a callback no call is a site. -/
def exprUses (c : Scan) (callback : Bool) (here : Position) : Expr → List Use
  | .ident name _ => if name = c.param then [.read] else []
  | .literal _ => []
  | .call _ _ none args _ =>
    argUses c callback (if callback then none else c.graph.siteAt? c.node c.node here) here 0 args
  | .call _ _ (some receiver) args _ =>
    exprUses c callback (0 :: here) receiver ++
      argUses c callback (if callback then none else c.graph.siteAt? c.node c.node here) here 0
        args
  | .member receiver _ _ => exprUses c callback (0 :: here) receiver
  | .template parts => listUses c callback here 0 parts
  | .lambda uiBuilding params body =>
    if params.contains c.param then [] else blockUses c (callback || !uiBuilding) here 0 body
  | .binary _ lhs rhs =>
    exprUses c callback (0 :: here) lhs ++ exprUses c callback (1 :: here) rhs
  | .branch condition thenBranch elseBranch =>
    exprUses c callback (0 :: here) condition ++ blockUses c callback (1 :: here) 0 thenBranch ++
      blockUses c callback (2 :: here) 0 elseBranch
  | .other children => listUses c callback here 0 children
/-- The uses in the arguments of a call from number `i` on, which is a site if one is given. -/
def argUses (c : Scan) (callback : Bool) (site : Option CallSite) (here : Position) (i : Nat) :
    List (Argument Expr) → List Use
  | [] => []
  | ⟨_, _, value⟩ :: rest =>
    (match site, value.ident? with
      | some s, some name => if name = c.param then [c.argumentUse s i] else []
      | _, _ => exprUses c callback ((i + 1) :: here) value) ++
      argUses c callback site here (i + 1) rest
def listUses (c : Scan) (callback : Bool) (here : Position) (i : Nat) : List Expr → List Use
  | [] => []
  | e :: rest => exprUses c callback (i :: here) e ++ listUses c callback here (i + 1) rest
def stmtUses (c : Scan) (callback : Bool) (here : Position) : Stmt → List Use
  | .val _ _ none _ => []
  | .val _ _ (some e) _ => exprUses c callback here e
  | .expr e => exprUses c callback here e
  | .nested header body =>
    if header.declares c.param then [] else blockUses c callback here 0 body
  | .ret none => []
  | .ret (some e) => exprUses c callback here e
/-- The uses in a block from statement `i` on. A local of the same name hides the parameter in all
statements after its own. -/
def blockUses (c : Scan) (callback : Bool) (here : Position) (i : Nat) : List Stmt → List Use
  | [] => []
  | s :: rest =>
    stmtUses c callback (i :: here) s ++
      if s.declares c.param then [] else blockUses c callback here (i + 1) rest
end

end Scan

namespace Use

def forward? : Use → Option Forward
  | .forward f => some f
  | _ => none

def unbound? : Use → Option String
  | .unbound callee => some callee
  | _ => none

end Use

/-- The functions reached by the forwards, each once. -/
def Graph.reached (g : Graph) (forwards : List Forward) : List FunctionId :=
  (forwards.filterMap fun f => (g.site? f.site).bind CallSite.target).eraseDups

/-- Reading counts most: any read makes the parameter consumed, else the first forward makes it
forwarded. -/
def Usage.ofUses (g : Graph) (uses : List Use) : Usage :=
  let forwards := uses.filterMap Use.forward?
  { classification :=
      if uses.contains .read then .consumed
      else match forwards with
        | f :: _ => .forwarded f
        | [] => .unused
    forwards
    fanOut := (g.reached forwards).length
    deadEnds := uses.count .deadEnd }

namespace Graph

/-- The uses of a parameter of the given kind. -/
def uses (g : Graph) (l : Link) (node : Node) (kind : Kind) : List Use :=
  Scan.blockUses ⟨g, l.node, l.param, kind⟩ false [] 0 node.decl.body

/-- What a function does with one of its parameters. -/
def classify (g : Graph) (l : Link) : Except UsageProblem Usage :=
  match g.node? l.node with
  | none => .error (.noParameter "" l.param)
  | some node =>
    match node.param? l.param with
    | none => .error (.noParameter node.name l.param)
    | some p =>
      let uses := g.uses l node p.kind
      match (uses.filterMap Use.unbound?).getLast? with
      | some callee => .error (.unbound l.param callee)
      | none => .ok (Usage.ofUses g uses)

end Graph
end PassThrough

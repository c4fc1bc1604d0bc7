import PassThrough.Failure
import PassThrough.Graph.Binding
import PassThrough.Reactive.Vocabulary
import PassThrough.Source.Walk

/-! Call graphs of UI-building functions. -/

namespace PassThrough

/-- The number of a function in its graph. -/
abbrev NodeId := Nat

structure Parameter where
  name : String
  typeName : Option String
  kind : Kind
  location : Location
  deriving DecidableEq, Repr

structure Node where
  id : FunctionId
  params : List Parameter
  decl : FunctionDecl
  location : Location

namespace Node

def name (n : Node) : String := n.id.name

def paramNames (n : Node) : List String := n.params.map Parameter.name

def param? (n : Node) (name : String) : Option Parameter :=
  n.params.find? (·.name == name)

def reactiveParams (n : Node) : List Parameter := n.params.filter (·.kind.isReactive)

end Node

/-- The number of a call site among those of its caller. -/
structure SiteId where
  caller : NodeId
  index : Nat
  deriving DecidableEq, Repr

/-- A call made while the caller builds its UI, to another function of the graph or, without a
target, to one that is not known. -/
structure CallSite where
  id : SiteId
  callee : String
  target : Option FunctionId
  bindings : List Binding
  position : Position
  location : Location

namespace CallSite

/-- The argument bound to a parameter of the function called. -/
def argument? (s : CallSite) (param : String) : Option Expr :=
  (s.bindings.find? (·.param == param)).map Binding.value

/-- The parameter to which the argument with this number is bound. -/
def paramOf? (s : CallSite) (argument : Nat) : Option String :=
  s.bindings[argument]?.map Binding.param

end CallSite

/-- A parameter of a function of the graph. -/
structure Link where
  node : NodeId
  param : String
  deriving DecidableEq, Repr

/-- Functions in declaration order, with the call sites of each and the sites that reach each. -/
structure Graph where
  nodes : List Node := []
  sites : List (List CallSite) := []
  incoming : List (List SiteId) := []

namespace Graph

def node? (g : Graph) (n : NodeId) : Option Node := g.nodes[n]?

def idOf? (g : Graph) (f : FunctionId) : Option NodeId := g.nodes.findIdx? (·.id == f)

def find? (g : Graph) (f : FunctionId) : Option Node := g.nodes.find? (·.id == f)

/-- The call sites of a function in the order of its text. -/
def sitesOf (g : Graph) (n : NodeId) : List CallSite := g.sites[n]?.getD []

def site? (g : Graph) (s : SiteId) : Option CallSite := (g.sitesOf s.caller)[s.index]?

/-- The site of `n` for the call that stands at a position in the body of `body`. -/
def siteAt? (g : Graph) (n body : NodeId) (position : Position) : Option CallSite :=
  if n = body then (g.sitesOf n).find? (·.position == position) else none

/-- The call sites that reach a function, by caller and then in the order of the text. -/
def incomingOf (g : Graph) (n : NodeId) : List SiteId := g.incoming[n]?.getD []

def callee? (g : Graph) (s : SiteId) : Option NodeId :=
  (g.site? s).bind fun site => site.target.bind g.idOf?

def argument? (g : Graph) (s : SiteId) (param : String) : Option Expr :=
  (g.site? s).bind (·.argument? param)

def param? (g : Graph) (l : Link) : Option Parameter :=
  (g.node? l.node).bind (·.param? l.param)

def nameOf (g : Graph) (n : NodeId) : String :=
  match g.node? n with
  | some node => node.name
  | none => ""

def siteCount (g : Graph) : Nat := g.sites.flatten.length

def unresolvedCount (g : Graph) : Nat := g.sites.flatten.countP (·.target.isNone)

/-- The callers of a function; a caller stands once for a run of its sites. -/
def callers (g : Graph) (n : NodeId) : List NodeId :=
  ((g.incomingOf n).map SiteId.caller).eraseReps

/-- The functions that a function calls, each once, by first call. -/
def callees (g : Graph) (n : NodeId) : List NodeId :=
  ((g.sitesOf n).filterMap fun s => g.callee? s.id).eraseDups

/-- All declared parameters, by function and then in declaration order. -/
def links (g : Graph) : List Link :=
  g.nodes.zipIdx.flatMap fun (node, i) => node.params.map fun p => ⟨i, p.name⟩

def reactiveLinks (g : Graph) : List Link :=
  g.nodes.zipIdx.flatMap fun (node, i) => node.reactiveParams.map fun p => ⟨i, p.name⟩

end Graph
end PassThrough

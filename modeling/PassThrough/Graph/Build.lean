import PassThrough.Graph.Basic

/-! Building the call graph of a program: first the functions, so that calls may reach functions
declared later, then the call sites of each. -/

namespace PassThrough

/-- The functions that carry the marker, each with the path of its file. -/
def markedFunctions (marker : String) (files : List SourceFile) : List (String × FunctionDecl) :=
  files.flatMap fun file =>
    (file.functions.filter (·.isMarked marker)).map fun f => (file.path, f)

def Node.ofDecl (v : Vocabulary) (path : String) (f : FunctionDecl) : Node where
  id := f.id
  params := f.params.map fun p =>
    { name := p.name, typeName := p.type.map TypeRef.name, kind := v.kindOf p.type,
      location := p.location.inFile path }
  decl := f
  location := f.location.inFile path

def duplicateDiagnostic (path : String) (f : FunctionDecl) : Diagnostic :=
  (Diagnostic.ofFailure f.id (.analysis "duplicate declaration ignored")).atLocation
    (f.location.inFile path)

/-- Adds the functions to `nodes`, except those declared before. -/
def addNodes (v : Vocabulary) (nodes : List Node) :
    List (String × FunctionDecl) → List Node × List Diagnostic
  | [] => (nodes, [])
  | (path, f) :: rest =>
    if nodes.any (·.id == f.id) then
      let (nodes, errors) := addNodes v nodes rest
      (nodes, duplicateDiagnostic path f :: errors)
    else addNodes v (nodes ++ [Node.ofDecl v path f]) rest

/-- What becomes of a call: it is a site whose arguments are bound or could not be, or a site with
an unknown target, or no site because it leaves the program. -/
inductive Resolution where
  | outside
  | unknown
  | bound (target : FunctionId) (bindings : List Binding)
  | rejected (callee : String) (problem : BindProblem)

def CallAt.resolve (nodes : List Node) (call : CallAt) : Resolution :=
  match call.target with
  | .unknown => .unknown
  | .resolved f =>
    match nodes.find? (·.id == f) with
    | none => .outside
    | some node =>
      match bindArgs node.paramNames call.args with
      | .ok bindings => .bound f bindings
      | .error problem => .rejected node.name problem

def Resolution.isSite : Resolution → Bool
  | .outside => false
  | _ => true

def CallSite.of (nodes : List Node) (caller : NodeId) (index : Nat) (call : CallAt) : CallSite :=
  let (target, bindings) :=
    match call.resolve nodes with
    | .bound f bindings => (some f, bindings)
    | _ => (none, [])
  { id := ⟨caller, index⟩, callee := call.callee, target, bindings, position := call.position,
    location := call.location }

/-- The calls of a function that are call sites. -/
def siteCalls (nodes : List Node) (node : Node) : List CallAt :=
  node.decl.renderCalls.filter fun call => (call.resolve nodes).isSite

def sitesOfNode (nodes : List Node) (caller : NodeId) (node : Node) : List CallSite :=
  (siteCalls nodes node).mapIdx fun index call => CallSite.of nodes caller index call

/-- One diagnostic for each call whose arguments cannot be bound. -/
def bindDiagnostics (nodes : List Node) (node : Node) : List Diagnostic :=
  (siteCalls nodes node).filterMap fun call =>
    match call.resolve nodes with
    | .rejected callee problem =>
      some ((Diagnostic.ofFailure node.id (.binding callee problem.message)).atLocation
        call.location)
    | _ => none

/-- The call graph of the functions that carry the marker, and what was wrong with them. -/
def Graph.build (v : Vocabulary) (marker : String) (files : List SourceFile) :
    Graph × List Diagnostic :=
  let (nodes, duplicates) := addNodes v [] (markedFunctions marker files)
  let sites := nodes.mapIdx fun i node => sitesOfNode nodes i node
  let calls := sites.flatten
  let incoming := nodes.map fun node =>
    (calls.filter (·.target == some node.id)).map CallSite.id
  ({ nodes, sites, incoming }, duplicates ++ nodes.flatMap (bindDiagnostics nodes))

end PassThrough

import PassThrough.Source.Basic

/-! Short forms for writing programs by hand. -/

namespace PassThrough

namespace Argument
variable {ε : Type}

def positional (value : ε) : Argument ε := { value }
def named (name : String) (value : ε) : Argument ε := { name := some name, value }
def trailingLambda (value : ε) : Argument ε := { trailing := true, value }

end Argument

namespace Expr

def name (n : String) : Expr := .ident n {}

/-- A call that reaches `f`. -/
def callTo (f : FunctionHeader) (args : List (Argument Expr)) : Expr :=
  .call f.name (.resolved f.id) none args {}

/-- A call to a function outside the program. -/
def libraryCall (callee : String) (args : List (Argument Expr)) : Expr :=
  .call callee (.resolved ⟨callee, []⟩) none args {}

def methodCall (receiver : Expr) (callee : String) (args : List (Argument Expr)) : Expr :=
  .call callee (.resolved ⟨callee, []⟩) (some receiver) args {}

def unresolvedCall (callee : String) (args : List (Argument Expr)) : Expr :=
  .call callee .unknown none args {}

def memberOf (receiver : Expr) (name : String) : Expr := .member receiver name {}

def block (uiBuilding : Bool) (body : List Stmt) : Expr := .lambda uiBuilding [] body

end Expr

namespace Stmt

def bind (name : String) (initializer : Expr) : Stmt := .val name false (some initializer) {}
def delegate (name : String) (initializer : Expr) : Stmt := .val name true (some initializer) {}

end Stmt

end PassThrough

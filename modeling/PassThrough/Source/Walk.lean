import PassThrough.Source.Basic

/-! Pre-order traversal: the parts of a program in the order of its text, and the calls of a body
with the positions at which they stand. -/

namespace PassThrough

/-- A place in a function body: the steps that lead to it, the last one first. A step is the number
of a statement in its block or of a child in its expression. -/
abbrev Position := List Nat

/-- A call expression and its place. -/
structure CallAt where
  position : Position
  callee : String
  target : Target
  args : List (Argument Expr)
  location : Location

mutual
/-- The calls of an expression, an outer call before the calls inside it; without those inside
callbacks unless `callbacks` asks for them. -/
def Expr.calls (callbacks : Bool) (here : Position) : Expr → List CallAt
  | .ident _ _ => []
  | .literal _ => []
  | .call callee target none args location =>
    ⟨here, callee, target, args, location⟩ :: callsOfArgs callbacks here 1 args
  | .call callee target (some receiver) args location =>
    ⟨here, callee, target, args, location⟩ ::
      (receiver.calls callbacks (0 :: here) ++ callsOfArgs callbacks here 1 args)
  | .member receiver _ _ => receiver.calls callbacks (0 :: here)
  | .template parts => callsOfExprs callbacks here 0 parts
  | .lambda uiBuilding _ body =>
    if uiBuilding || callbacks then callsOfBlock callbacks here 0 body else []
  | .binary _ lhs rhs => lhs.calls callbacks (0 :: here) ++ rhs.calls callbacks (1 :: here)
  | .branch condition thenBranch elseBranch =>
    condition.calls callbacks (0 :: here) ++ callsOfBlock callbacks (1 :: here) 0 thenBranch ++
      callsOfBlock callbacks (2 :: here) 0 elseBranch
  | .other children => callsOfExprs callbacks here 0 children
def callsOfArgs (callbacks : Bool) (here : Position) (i : Nat) :
    List (Argument Expr) → List CallAt
  | [] => []
  | ⟨_, _, value⟩ :: rest =>
    value.calls callbacks (i :: here) ++ callsOfArgs callbacks here (i + 1) rest
def callsOfExprs (callbacks : Bool) (here : Position) (i : Nat) : List Expr → List CallAt
  | [] => []
  | e :: rest => e.calls callbacks (i :: here) ++ callsOfExprs callbacks here (i + 1) rest
def Stmt.calls (callbacks : Bool) (here : Position) : Stmt → List CallAt
  | .val _ _ none _ => []
  | .val _ _ (some e) _ => e.calls callbacks here
  | .expr e => e.calls callbacks here
  | .nested _ body => callsOfBlock callbacks here 0 body
  | .ret none => []
  | .ret (some e) => e.calls callbacks here
def callsOfBlock (callbacks : Bool) (here : Position) (i : Nat) : List Stmt → List CallAt
  | [] => []
  | s :: rest => s.calls callbacks (i :: here) ++ callsOfBlock callbacks here (i + 1) rest
end

namespace FunctionDecl

/-- The calls made while the function builds its UI: those outside every callback. -/
def renderCalls (f : FunctionDecl) : List CallAt := callsOfBlock false [] 0 f.body

def allCalls (f : FunctionDecl) : List CallAt := callsOfBlock true [] 0 f.body

end FunctionDecl

/-- What a traversal meets. -/
inductive Part where
  | function (header : FunctionHeader)
  | block (size : Nat)
  | stmt (value : Stmt)
  | argument (name : Option String)
  | expr (value : Expr)

mutual
def Expr.parts : Expr → List Part
  | .ident name location => [.expr (.ident name location)]
  | .literal value => [.expr (.literal value)]
  | .call callee target none args location =>
    .expr (.call callee target none args location) :: partsOfArgs args
  | .call callee target (some receiver) args location =>
    .expr (.call callee target (some receiver) args location) ::
      (receiver.parts ++ partsOfArgs args)
  | .member receiver name location => .expr (.member receiver name location) :: receiver.parts
  | .template parts => .expr (.template parts) :: partsOfExprs parts
  | .lambda uiBuilding params body =>
    .expr (.lambda uiBuilding params body) :: .block body.length :: partsOfStmts body
  | .binary op lhs rhs => .expr (.binary op lhs rhs) :: (lhs.parts ++ rhs.parts)
  | .branch condition thenBranch elseBranch =>
    .expr (.branch condition thenBranch elseBranch) ::
      (condition.parts ++ .block thenBranch.length :: partsOfStmts thenBranch ++
        .block elseBranch.length :: partsOfStmts elseBranch)
  | .other children => .expr (.other children) :: partsOfExprs children
def partsOfArgs : List (Argument Expr) → List Part
  | [] => []
  | ⟨name, _, value⟩ :: rest => .argument name :: (value.parts ++ partsOfArgs rest)
def partsOfExprs : List Expr → List Part
  | [] => []
  | e :: rest => e.parts ++ partsOfExprs rest
def Stmt.parts : Stmt → List Part
  | .val name delegated none location => [.stmt (.val name delegated none location)]
  | .val name delegated (some e) location =>
    .stmt (.val name delegated (some e) location) :: e.parts
  | .expr e => .stmt (.expr e) :: e.parts
  | .nested header body =>
    .stmt (.nested header body) :: .function header :: .block body.length :: partsOfStmts body
  | .ret none => [.stmt (.ret none)]
  | .ret (some e) => .stmt (.ret (some e)) :: e.parts
def partsOfStmts : List Stmt → List Part
  | [] => []
  | s :: rest => s.parts ++ partsOfStmts rest
end

/-- Everything in the function, each part before what it holds. -/
def FunctionDecl.parts (f : FunctionDecl) : List Part :=
  .function f.toFunctionHeader :: .block f.body.length :: partsOfStmts f.body

end PassThrough

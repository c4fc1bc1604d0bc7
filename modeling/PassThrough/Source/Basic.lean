import PassThrough.Text.Trim

/-! Declarative UI programs as a resolver hands them over: source files with functions, whose bodies
are small statement and expression trees. -/

namespace PassThrough

structure Location where
  file : String := ""
  line : Nat := 0
  column : Nat := 0
  deriving DecidableEq, Repr, Inhabited

def Location.text (l : Location) : String :=
  l.file ++ ":" ++ toString l.line ++ ":" ++ toString l.column

/-- Fills in the file when the location names none. -/
def Location.inFile (l : Location) (path : String) : Location :=
  if l.file = "" then { l with file := path } else l

structure Annotation where
  name : String
  arguments : List String := []
  deriving DecidableEq, Repr

/-- The name without a leading `@` and without its package. -/
def Annotation.simpleName (a : Annotation) : String :=
  String.ofList (Text.lastSegment (a.name.toList.dropWhile (· == '@')))

/-- A type as it is written, with the supertypes that the resolver knows. -/
structure TypeRef where
  name : String
  supertypes : List String := []
  deriving DecidableEq, Repr

/-- A declared parameter. The type is missing when it did not resolve. -/
structure Param where
  name : String
  type : Option TypeRef := none
  location : Location := {}
  deriving DecidableEq, Repr

def Param.typeLabel (p : Param) : String :=
  match p.type with
  | some t => t.name
  | none => "?"

/-- A function is known by its name and the types of its parameters, so that overloads differ. -/
structure FunctionId where
  name : String
  signature : List String
  deriving DecidableEq, Repr

def FunctionId.text (f : FunctionId) : String :=
  f.name ++ "(" ++ ", ".intercalate f.signature ++ ")"

/-- What the resolver says about the function that a call reaches. -/
inductive Target where
  | resolved (id : FunctionId)
  | unknown
  deriving DecidableEq, Repr

structure Argument (ε : Type) where
  name : Option String := none
  trailing : Bool := false
  value : ε
  deriving DecidableEq, Repr

/-- All of a function but its body. -/
structure FunctionHeader where
  name : String
  annotations : List Annotation := []
  params : List Param := []
  location : Location := {}
  deriving DecidableEq, Repr

mutual
/-- A lambda builds UI (`uiBuilding`) or is a callback. `other` stands for every expression of which
only the children matter. -/
inductive Expr where
  | ident (name : String) (location : Location)
  | literal (value : String)
  | call (callee : String) (target : Target) (receiver : Option Expr) (args : List (Argument Expr))
      (location : Location)
  | member (receiver : Expr) (name : String) (location : Location)
  | template (parts : List Expr)
  | lambda (uiBuilding : Bool) (params : List String) (body : List Stmt)
  | binary (op : String) (lhs rhs : Expr)
  | branch (condition : Expr) (thenBranch elseBranch : List Stmt)
  | other (children : List Expr)
/-- `val` declares a local, which a delegate may hold; `nested` declares a local function. -/
inductive Stmt where
  | val (name : String) (delegated : Bool) (initializer : Option Expr) (location : Location)
  | expr (value : Expr)
  | nested (header : FunctionHeader) (body : List Stmt)
  | ret (value : Option Expr)
end

instance : Inhabited Expr := ⟨.literal ""⟩
instance : Inhabited Stmt := ⟨.ret none⟩

structure FunctionDecl extends FunctionHeader where
  body : List Stmt := []

/-- One parsed and resolved source file. -/
structure SourceFile where
  path : String
  functions : List FunctionDecl := []

namespace FunctionHeader

def signature (f : FunctionHeader) : List String := f.params.map Param.typeLabel

def id (f : FunctionHeader) : FunctionId := ⟨f.name, f.signature⟩

def isMarked (f : FunctionHeader) (marker : String) : Bool :=
  f.annotations.any (·.simpleName == marker)

def param? (f : FunctionHeader) (name : String) : Option Param :=
  f.params.find? (·.name == name)

def declares (f : FunctionHeader) (name : String) : Bool :=
  f.params.any (·.name == name)

end FunctionHeader

namespace Expr

def ident? : Expr → Option String
  | .ident name _ => some name
  | _ => none

def location? : Expr → Option Location
  | .ident _ l => some l
  | .call _ _ _ _ l => some l
  | .member _ _ l => some l
  | _ => none

end Expr

/-- Whether the statement declares a local of this name. -/
def Stmt.declares (name : String) : Stmt → Bool
  | .val n _ _ _ => n == name
  | _ => false

end PassThrough

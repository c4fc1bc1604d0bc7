import PassThrough.Source.Basic

/-! Binding the arguments of a call to the parameters of the function that it reaches. -/

namespace PassThrough

structure Binding where
  param : String
  value : Expr

inductive BindProblem where
  | noParameter (name : String)
  | tooMany (expected : Nat)
  | boundTwice (param : String)
  deriving DecidableEq, Repr

def BindProblem.message : BindProblem → String
  | .noParameter name => "no parameter named '" ++ name ++ "'"
  | .tooMany expected => "too many arguments (expected " ++ toString expected ++ ")"
  | .boundTwice param => "parameter '" ++ param ++ "' bound twice"

/-- The argument takes the next parameter in order. -/
def Argument.isPlain {ε : Type} (a : Argument ε) : Bool := !a.trailing && a.name.isNone

/-- The parameter that an argument is meant for, when `next` plain arguments came before it: the
last one for a trailing lambda, the named one for a named argument, else the next one. -/
def Argument.aim? {ε : Type} (params : List String) (next : Nat) (a : Argument ε) :
    Option String :=
  if a.trailing then params.getLast?
  else match a.name with
    | some name => if params.contains name then some name else none
    | none => params[next]?

def Argument.missing {ε : Type} (params : List String) (a : Argument ε) : BindProblem :=
  match a.name with
  | some name => .noParameter name
  | none => .tooMany params.length

/-- Binds `args` after `next` plain arguments and with the parameters of `bound` taken. -/
def bindArgsFrom (params : List String) (next : Nat) (bound : List String) :
    List (Argument Expr) → Except BindProblem (List Binding)
  | [] => .ok []
  | a :: rest =>
    match a.aim? params next with
    | none => .error (a.missing params)
    | some p =>
      if bound.contains p then .error (.boundTwice p)
      else
        match bindArgsFrom params (if a.isPlain then next + 1 else next) (p :: bound) rest with
        | .ok bindings => .ok (⟨p, a.value⟩ :: bindings)
        | .error problem => .error problem

/-- One binding for each argument, in the order of the arguments. -/
def bindArgs (params : List String) (args : List (Argument Expr)) :
    Except BindProblem (List Binding) :=
  bindArgsFrom params 0 [] args

end PassThrough

import PassThrough.Graph.Basic
import PassThrough.Reactive.Creation

/-! Where a reactive value comes from. -/

namespace PassThrough

/-- A function creates the value, in a local (`holder`) or inline. -/
structure Origin where
  holder : Option String
  function : FunctionId
  kind : CreationKind
  location : Location
  deriving DecidableEq, Repr

/-- What a name stands for inside a body, other than a parameter of the function: a local, or a
parameter of a lambda or local function around the place. -/
inductive Binder where
  | val (delegated : Bool) (initializer : Option Expr) (location : Location)
  | inner

/-- What the statement adds for a name to the scope of the statements after it. -/
def Stmt.binder? (name : String) : Stmt → Option Binder
  | .val n delegated initializer location =>
    if n = name then some (.val delegated initializer location) else none
  | _ => none

end PassThrough

import PassThrough.Graph.Basic

/-! What a function does with one of its parameters. -/

namespace PassThrough

/-- The parameter is handed on unchanged at a call site, to a parameter of the function called. -/
structure Forward where
  site : SiteId
  param : String
  deriving DecidableEq, Repr

inductive UsageClass where
  | consumed
  | unused
  | forwarded (first : Forward)
  deriving DecidableEq, Repr

/-- `fanOut` counts the distinct functions to which the parameter is forwarded, `deadEnds` the
calls that take it and lead nowhere. -/
structure Usage where
  classification : UsageClass := .unused
  forwards : List Forward := []
  fanOut : Nat := 0
  deadEnds : Nat := 0
  deriving DecidableEq, Repr

namespace Usage

def isConsumed (u : Usage) : Bool := u.classification == .consumed

/-- The forward that a chain follows. -/
def forward? (u : Usage) : Option Forward :=
  match u.classification with
  | .forwarded f => some f
  | _ => none

def isForwarded (u : Usage) : Bool := u.forward?.isSome

/-- Handed on unchanged to two functions or more. -/
def isDistribution (u : Usage) : Bool := u.isForwarded && u.fanOut > 1

end Usage

/-- One visible reference to the parameter. -/
inductive Use where
  | read
  | forward (f : Forward)
  | deadEnd
  | unbound (callee : String)
  deriving DecidableEq, Repr

inductive UsageProblem where
  | noParameter (function param : String)
  | unbound (param callee : String)
  deriving DecidableEq, Repr

def UsageProblem.message : UsageProblem → String
  | .noParameter function param => "'" ++ function ++ "' has no parameter '" ++ param ++ "'"
  | .unbound param callee =>
    "argument '" ++ param ++ "' of call to '" ++ callee ++ "' has no parameter binding"

def UsageProblem.failure (p : UsageProblem) : Failure := .analysis p.message

end PassThrough

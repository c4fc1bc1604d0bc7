import PassThrough.Reactive.Vocabulary

/-! Expressions that bring a reactive container into being. -/

namespace PassThrough

inductive CreationKind where
  | directCreation
  | collectedFromStream
  deriving DecidableEq, Repr

def CreationKind.text : CreationKind → String
  | .directCreation => "direct-creation"
  | .collectedFromStream => "collected-from-stream"

namespace Vocabulary

/-- A call on a receiver that turns a stream into a value holder. -/
def isCollection (v : Vocabulary) : Expr → Bool
  | .call callee _ (some _) _ _ => v.collectionOperations.contains callee
  | _ => false

mutual
/-- How the expression creates a container, if it does. A memoising call creates what its last
lambda with a result creates. -/
def creationKind (v : Vocabulary) : Expr → Option CreationKind
  | .call callee _ receiver args _ =>
    if receiver.isSome && v.collectionOperations.contains callee then some .collectedFromStream
    else if v.creationFunctions.contains callee then some .directCreation
    else if v.memoWrappers.contains callee then (creationOfArgs v args).getD none
    else none
  | _ => none
/-- The creation kind of the last argument that is a lambda with a result. -/
def creationOfArgs (v : Vocabulary) : List (Argument Expr) → Option (Option CreationKind)
  | [] => none
  | ⟨_, _, value⟩ :: rest =>
    match creationOfArgs v rest with
    | some k => some k
    | none => creationOfLambda v value
def creationOfLambda (v : Vocabulary) : Expr → Option (Option CreationKind)
  | .lambda _ _ body => creationOfBody v body
  | _ => none
/-- The result of a body is its final expression or returned value. -/
def creationOfBody (v : Vocabulary) : List Stmt → Option (Option CreationKind)
  | [] => none
  | [s] => creationOfResult v s
  | _ :: s :: rest => creationOfBody v (s :: rest)
def creationOfResult (v : Vocabulary) : Stmt → Option (Option CreationKind)
  | .expr e => some (creationKind v e)
  | .ret (some e) => some (creationKind v e)
  | _ => none
end

end Vocabulary
end PassThrough

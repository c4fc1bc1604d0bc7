import PassThrough.Origin.Basic

/-! Lexical scope: the innermost binder of a name at a place in a body. The place is given by the
steps that lead to it, the first one first. -/

namespace PassThrough.Scope

mutual
/-- The binder in force at a place inside an expression, where `scope` is the one in force at the
expression. -/
def exprBinder (name : String) (scope : Option Binder) : Expr → Position → Option Binder
  | _, [] => scope
  | .call _ _ (some receiver) _ _, 0 :: steps => exprBinder name scope receiver steps
  | .call _ _ _ args _, (i + 1) :: steps => argBinder name scope args i steps
  | .member receiver _ _, 0 :: steps => exprBinder name scope receiver steps
  | .template parts, i :: steps => listBinder name scope parts i steps
  | .lambda _ params body, i :: steps =>
    blockBinder name (if params.contains name then some .inner else scope) body i steps
  | .binary _ lhs _, 0 :: steps => exprBinder name scope lhs steps
  | .binary _ _ rhs, 1 :: steps => exprBinder name scope rhs steps
  | .branch condition _ _, 0 :: steps => exprBinder name scope condition steps
  | .branch _ thenBranch _, 1 :: i :: steps => blockBinder name scope thenBranch i steps
  | .branch _ _ elseBranch, 2 :: i :: steps => blockBinder name scope elseBranch i steps
  | .other children, i :: steps => listBinder name scope children i steps
  | _, _ :: _ => none
def argBinder (name : String) (scope : Option Binder) :
    List (Argument Expr) → Nat → Position → Option Binder
  | [], _, _ => none
  | ⟨_, _, value⟩ :: _, 0, steps => exprBinder name scope value steps
  | _ :: rest, i + 1, steps => argBinder name scope rest i steps
def listBinder (name : String) (scope : Option Binder) :
    List Expr → Nat → Position → Option Binder
  | [], _, _ => none
  | e :: _, 0, steps => exprBinder name scope e steps
  | _ :: rest, i + 1, steps => listBinder name scope rest i steps
def stmtBinder (name : String) (scope : Option Binder) : Stmt → Position → Option Binder
  | .val _ _ (some e) _, steps => exprBinder name scope e steps
  | .val _ _ none _, _ => none
  | .expr e, steps => exprBinder name scope e steps
  | .nested header body, i :: steps =>
    blockBinder name (if header.declares name then some .inner else scope) body i steps
  | .nested _ _, [] => none
  | .ret (some e), steps => exprBinder name scope e steps
  | .ret none, _ => none
/-- Inside statement `i` of a block: the locals before it are in scope, the last one first. -/
def blockBinder (name : String) (scope : Option Binder) :
    List Stmt → Nat → Position → Option Binder
  | [], _, _ => none
  | s :: _, 0, steps => stmtBinder name scope s steps
  | s :: rest, i + 1, steps => blockBinder name ((s.binder? name).or scope) rest i steps
end

end PassThrough.Scope

namespace PassThrough

/-- The binder of a name in force at a place of the body; `none` if the name is free there or stands
for a parameter of the function. -/
def FunctionDecl.binderAt (f : FunctionDecl) (position : Position) (name : String) :
    Option Binder :=
  match position.reverse with
  | i :: steps => Scope.blockBinder name none f.body i steps
  | [] => none

end PassThrough

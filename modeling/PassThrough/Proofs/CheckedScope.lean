import PassThrough.Origin.Scope

/-! Scope found by a visit of the whole body. The visit keeps a stack of the binders of the name, cuts it back where it
leaves a block, a lambda or a local function, and stops at the call that it looks for. It finds what the walk along the
position of the call finds: whatever does not lie on the way to the call leaves no trace on the stack. -/

namespace PassThrough

/-- A visit for the binder of a name at a call. -/
structure ScopeFinder where
  name : String
  call : Position

namespace ScopeFinder

/-- The binders of the name in scope, the innermost last, and the one in force at the call once the call is reached. -/
structure State where
  scope : List Binder := []
  found : Option (Option Binder) := none

namespace State

def push (st : State) (binder : Option Binder) : State := { st with scope := st.scope ++ binder.toList }

/-- Visits the inside of something that may bind the name, and then cuts the stack back to what it was. -/
def within (st : State) (binder : Option Binder) (visit : State → State) : State :=
  let left := visit (st.push binder)
  { left with scope := left.scope.take st.scope.length }

end State

/-- What a list of parameters binds the name to, if the name is one of them. -/
def inner? (shadows : Bool) : Option Binder := if shadows then some .inner else none

/-- At the call the visit takes the innermost binder, and from then on it goes into nothing. -/
def unlessReached (c : ScopeFinder) (here : Position) (st inside : State) : State :=
  if st.found.isSome then st
  else if here = c.call then { st with found := some st.scope.getLast? }
  else inside

mutual
def visitExpr (c : ScopeFinder) (here : Position) (st : State) (e : Expr) : State :=
  c.unlessReached here st <|
    match e with
    | .ident _ _ => st
    | .literal _ => st
    | .call _ _ none args _ => visitArgs c here 1 st args
    | .call _ _ (some receiver) args _ => visitArgs c here 1 (visitExpr c (0 :: here) st receiver) args
    | .member receiver _ _ => visitExpr c (0 :: here) st receiver
    | .template parts => visitList c here 0 st parts
    | .lambda _ params body =>
      st.within (inner? (params.contains c.name)) fun st => st.within none fun st => visitStmts c here 0 st body
    | .binary _ lhs rhs => visitExpr c (1 :: here) (visitExpr c (0 :: here) st lhs) rhs
    | .branch condition thenBranch elseBranch =>
      ((visitExpr c (0 :: here) st condition).within none fun st => visitStmts c (1 :: here) 0 st thenBranch).within none
        fun st => visitStmts c (2 :: here) 0 st elseBranch
    | .other children => visitList c here 0 st children
def visitArgs (c : ScopeFinder) (here : Position) (i : Nat) (st : State) : List (Argument Expr) → State
  | [] => st
  | ⟨_, _, value⟩ :: rest => visitArgs c here (i + 1) (visitExpr c (i :: here) st value) rest
def visitList (c : ScopeFinder) (here : Position) (i : Nat) (st : State) : List Expr → State
  | [] => st
  | e :: rest => visitList c here (i + 1) (visitExpr c (i :: here) st e) rest
def visitStmt (c : ScopeFinder) (here : Position) (st : State) : Stmt → State
  | .val _ _ none _ => st
  | .val _ _ (some e) _ => visitExpr c here st e
  | .expr e => visitExpr c here st e
  | .nested header body =>
    st.within (inner? (header.declares c.name)) fun st => st.within none fun st => visitStmts c here 0 st body
  | .ret none => st
  | .ret (some e) => visitExpr c here st e
/-- The statements of a block. A local comes into scope behind its own statement. -/
def visitStmts (c : ScopeFinder) (here : Position) (i : Nat) (st : State) : List Stmt → State
  | [] => st
  | s :: rest =>
    if st.found.isSome then st
    else visitStmts c here (i + 1) ((visitStmt c (i :: here) st s).push (s.binder? c.name)) rest
end

end ScopeFinder

/-- The binder of a name in force at a place of the body, by a visit that stops there. -/
def FunctionDecl.findBinder (f : FunctionDecl) (call : Position) (name : String) : Option Binder :=
  (ScopeFinder.State.within {} none fun st => ScopeFinder.visitStmts ⟨name, call⟩ [] 0 st f.body).found.join

namespace ScopeFinder
variable {c : ScopeFinder} {here steps : Position} {i j : Nat} {st inside : State} {visit : State → State}

/-- The visit does not come to the call: it finds nothing and leaves what is on the stack where it is. -/
def Misses (visit : State → State) : Prop := ∀ st, ∃ pushed, visit st = { st with scope := st.scope ++ pushed }

private theorem Misses.found_eq (h : Misses visit) (st : State) : (visit st).found = st.found := by
  obtain ⟨pushed, hvisit⟩ := h st
  rw [hvisit]

private theorem Misses.within_eq (h : Misses visit) (st : State) (binder : Option Binder) : st.within binder visit = st := by
  obtain ⟨pushed, hvisit⟩ := h (st.push binder)
  rw [State.within, hvisit]
  simp [State.push]

private theorem Misses.within (h : Misses visit) (binder : Option Binder) : Misses fun st => st.within binder visit :=
  fun st => ⟨[], by simp [h.within_eq]⟩

private theorem unlessReached_eq_self (h : ¬ here <:+ c.call) (hinside : inside = st) :
    c.unlessReached here st inside = st := by
  have hne : here ≠ c.call := fun heq => h (heq ▸ List.suffix_refl _)
  simp [unlessReached, hne, hinside]

private theorem not_suffix_child (h : ¬ here <:+ c.call) (i : Nat) : ¬ (i :: here) <:+ c.call :=
  fun hchild => h ((List.suffix_cons i here).trans hchild)

-- Of all parts only the statements of a block leave something on the stack, which is cut off behind the block.
mutual
private theorem visitExpr_missed (here : Position) (h : ¬ here <:+ c.call) (st : State) :
    ∀ e : Expr, c.visitExpr here st e = st
  | .ident _ _ => by
    rw [visitExpr]
    exact unlessReached_eq_self h rfl
  | .literal _ => by
    rw [visitExpr]
    exact unlessReached_eq_self h rfl
  | .call _ _ none args _ => by
    rw [visitExpr]
    exact unlessReached_eq_self h (visitArgs_missed here 1 (fun j _ => not_suffix_child h j) st args)
  | .call _ _ (some receiver) args _ => by
    rw [visitExpr, visitExpr_missed (0 :: here) (not_suffix_child h 0) st receiver]
    exact unlessReached_eq_self h (visitArgs_missed here 1 (fun j _ => not_suffix_child h j) st args)
  | .member receiver _ _ => by
    rw [visitExpr]
    exact unlessReached_eq_self h (visitExpr_missed (0 :: here) (not_suffix_child h 0) st receiver)
  | .template parts => by
    rw [visitExpr]
    exact unlessReached_eq_self h (visitList_missed here 0 (fun j _ => not_suffix_child h j) st parts)
  | .lambda _ params body => by
    have hbody := visitStmts_missed here 0 (fun j _ => not_suffix_child h j) body
    rw [visitExpr]
    exact unlessReached_eq_self h ((hbody.within none).within_eq st _)
  | .binary _ lhs rhs => by
    rw [visitExpr, visitExpr_missed (0 :: here) (not_suffix_child h 0) st lhs]
    exact unlessReached_eq_self h (visitExpr_missed (1 :: here) (not_suffix_child h 1) st rhs)
  | .branch condition thenBranch elseBranch => by
    have hthen := visitStmts_missed (1 :: here) 0 (fun j _ => not_suffix_child (not_suffix_child h 1) j) thenBranch
    have helse := visitStmts_missed (2 :: here) 0 (fun j _ => not_suffix_child (not_suffix_child h 2) j) elseBranch
    rw [visitExpr, visitExpr_missed (0 :: here) (not_suffix_child h 0) st condition, hthen.within_eq]
    exact unlessReached_eq_self h (helse.within_eq st none)
  | .other children => by
    rw [visitExpr]
    exact unlessReached_eq_self h (visitList_missed here 0 (fun j _ => not_suffix_child h j) st children)
private theorem visitArgs_missed (here : Position) (i : Nat) (h : ∀ j, i ≤ j → ¬ (j :: here) <:+ c.call) (st : State) :
    ∀ args : List (Argument Expr), c.visitArgs here i st args = st
  | [] => by rw [visitArgs]
  | ⟨_, _, value⟩ :: rest => by
    rw [visitArgs, visitExpr_missed (i :: here) (h i (Nat.le_refl i)) st value]
    exact visitArgs_missed here (i + 1) (fun j hj => h j (Nat.le_of_succ_le hj)) st rest
private theorem visitList_missed (here : Position) (i : Nat) (h : ∀ j, i ≤ j → ¬ (j :: here) <:+ c.call) (st : State) :
    ∀ parts : List Expr, c.visitList here i st parts = st
  | [] => by rw [visitList]
  | e :: rest => by
    rw [visitList, visitExpr_missed (i :: here) (h i (Nat.le_refl i)) st e]
    exact visitList_missed here (i + 1) (fun j hj => h j (Nat.le_of_succ_le hj)) st rest
private theorem visitStmt_missed (here : Position) (h : ¬ here <:+ c.call) (st : State) :
    ∀ s : Stmt, c.visitStmt here st s = st
  | .val _ _ none _ => by rw [visitStmt]
  | .val _ _ (some e) _ => by rw [visitStmt, visitExpr_missed here h st e]
  | .expr e => by rw [visitStmt, visitExpr_missed here h st e]
  | .nested header body => by
    have hbody := visitStmts_missed here 0 (fun j _ => not_suffix_child h j) body
    rw [visitStmt]
    exact (hbody.within none).within_eq st _
  | .ret none => by rw [visitStmt]
  | .ret (some e) => by rw [visitStmt, visitExpr_missed here h st e]
private theorem visitStmts_missed (here : Position) (i : Nat) (h : ∀ j, i ≤ j → ¬ (j :: here) <:+ c.call) :
    ∀ body : List Stmt, Misses fun st => c.visitStmts here i st body
  | [], st => ⟨[], by simp [visitStmts]⟩
  | s :: rest, st => by
    obtain ⟨pushed, hrest⟩ := visitStmts_missed here (i + 1) (fun j hj => h j (Nat.le_of_succ_le hj)) rest
      (st.push (s.binder? c.name))
    simp only [visitStmts, visitStmt_missed (i :: here) (h i (Nat.le_refl i)) st s, hrest]
    by_cases hfound : st.found.isSome = true
    · exact ⟨[], by simp [hfound]⟩
    · exact ⟨(s.binder? c.name).toList ++ pushed, by simp [hfound, State.push]⟩
end

/-- The first step towards the call leads to the child in which it lies. -/
theorem call_in_child (h : c.call = (i :: steps).reverse ++ here) : c.call = steps.reverse ++ i :: here := by
  simpa using h

private theorem not_suffix_sibling (h : c.call = (i :: steps).reverse ++ here) (hne : j ≠ i) : ¬ (j :: here) <:+ c.call := by
  intro hj
  have hi : (i :: here) <:+ c.call := ⟨_, (call_in_child h).symm⟩
  have hsame := (List.suffix_of_suffix_length_le hj hi (by simp)).eq_of_length (by simp)
  exact hne (List.cons.inj hsame).1

private theorem not_suffix_of_call (h : c.call = here) (j : Nat) : ¬ (j :: here) <:+ c.call := by
  intro hj
  have hlength := hj.length_le
  rw [h, List.length_cons] at hlength
  omega

private theorem misses_sibling (h : c.call = (i :: steps).reverse ++ here) (j : Nat) (hne : j ≠ i) (body : List Stmt) :
    Misses fun st => c.visitStmts (j :: here) 0 st body :=
  visitStmts_missed (j :: here) 0 (fun k _ => not_suffix_child (not_suffix_sibling h hne) k) body

private theorem misses_of_call (h : c.call = here) (body : List Stmt) : Misses fun st => c.visitStmts here 0 st body :=
  visitStmts_missed here 0 (fun j _ => not_suffix_of_call h j) body

private theorem unlessReached_call (h : c.call = here) (scope : List Binder) (inside : State) :
    (c.unlessReached here ⟨scope, none⟩ inside).found.join = scope.getLast? := by
  simp [unlessReached, h]

private theorem unlessReached_inside (h : c.call = (i :: steps).reverse ++ here) (scope : List Binder) (inside : State) :
    c.unlessReached here ⟨scope, none⟩ inside = inside := by
  have hne : here ≠ c.call := fun heq => not_suffix_of_call heq.symm i ⟨_, (call_in_child h).symm⟩
  simp [unlessReached, hne]

private theorem within_none_found (st : State) (visit : State → State) :
    (st.within none visit).found = (visit st).found := by
  simp [State.within, State.push]

private theorem within_found (st : State) (binder : Option Binder) (visit : State → State) :
    (st.within binder fun st => st.within none visit).found = (visit (st.push binder)).found :=
  within_none_found (st.push binder) visit

private theorem getLast?_push (scope : List Binder) (binder : Option Binder) :
    (scope ++ binder.toList).getLast? = binder.or scope.getLast? := by
  cases binder <;> simp

private theorem inner?_or (shadows : Bool) (scope : Option Binder) :
    (inner? shadows).or scope = if shadows then some .inner else scope := by
  cases shadows <;> rfl

-- The steps lead on from `here` to the call, the first one first, as the walk along the position takes them. Of the children
-- of a place the visit misses all but the one on the way, and where no child has the number of the step it misses them all.
mutual
private theorem visitExpr_eq : ∀ (e : Expr) (steps here : Position) (scope : List Binder), c.call = steps.reverse ++ here →
    (c.visitExpr here ⟨scope, none⟩ e).found.join = Scope.exprBinder c.name scope.getLast? e steps
  | e, [], here, scope => by
    intro h
    have hcall : c.call = here := h
    rw [visitExpr.eq_def, unlessReached_call hcall]
    cases e <;> simp [Scope.exprBinder]
  | .ident _ _, i :: steps, here, scope => by
    intro h
    rw [visitExpr, unlessReached_inside h]
    simp [Scope.exprBinder]
  | .literal _, i :: steps, here, scope => by
    intro h
    rw [visitExpr, unlessReached_inside h]
    simp [Scope.exprBinder]
  | .call _ _ none args _, 0 :: steps, here, scope => by
    intro h
    have hargs := visitArgs_missed here 1 fun j hj => not_suffix_sibling h (Nat.ne_of_gt hj)
    rw [visitExpr, unlessReached_inside h, hargs]
    rfl
  | .call _ _ none args _, (k + 1) :: steps, here, scope => by
    intro h
    rw [visitExpr, unlessReached_inside h, Scope.exprBinder]
    exact visitArgs_eq args 1 k steps here scope h
  | .call _ _ (some receiver) args _, 0 :: steps, here, scope => by
    intro h
    have hargs := visitArgs_missed here 1 fun j hj => not_suffix_sibling h (Nat.ne_of_gt hj)
    rw [visitExpr, unlessReached_inside h, hargs, Scope.exprBinder]
    exact visitExpr_eq receiver steps (0 :: here) scope (call_in_child h)
  | .call _ _ (some receiver) args _, (k + 1) :: steps, here, scope => by
    intro h
    have hreceiver := visitExpr_missed (0 :: here) (not_suffix_sibling h (by omega))
    rw [visitExpr, unlessReached_inside h, hreceiver, Scope.exprBinder]
    exact visitArgs_eq args 1 k steps here scope h
  | .member receiver _ _, 0 :: steps, here, scope => by
    intro h
    rw [visitExpr, unlessReached_inside h, Scope.exprBinder]
    exact visitExpr_eq receiver steps (0 :: here) scope (call_in_child h)
  | .member receiver _ _, (k + 1) :: steps, here, scope => by
    intro h
    have hreceiver := visitExpr_missed (0 :: here) (not_suffix_sibling h (by omega))
    rw [visitExpr, unlessReached_inside h, hreceiver]
    rfl
  | .template parts, k :: steps, here, scope => by
    intro h
    rw [visitExpr, unlessReached_inside h, Scope.exprBinder]
    exact visitList_eq parts 0 k steps here scope h
  | .lambda _ params body, k :: steps, here, scope => by
    intro h
    rw [visitExpr, unlessReached_inside h, within_found, Scope.exprBinder, ← inner?_or, ← getLast?_push]
    exact visitStmts_eq body 0 k steps here _ h
  | .binary _ lhs rhs, 0 :: steps, here, scope => by
    intro h
    have hrhs := visitExpr_missed (1 :: here) (not_suffix_sibling h (by omega))
    rw [visitExpr, unlessReached_inside h, hrhs, Scope.exprBinder]
    exact visitExpr_eq lhs steps (0 :: here) scope (call_in_child h)
  | .binary _ lhs rhs, 1 :: steps, here, scope => by
    intro h
    have hlhs := visitExpr_missed (0 :: here) (not_suffix_sibling h (by omega))
    rw [visitExpr, unlessReached_inside h, hlhs, Scope.exprBinder]
    exact visitExpr_eq rhs steps (1 :: here) scope (call_in_child h)
  | .binary _ lhs rhs, (k + 2) :: steps, here, scope => by
    intro h
    have hlhs := visitExpr_missed (0 :: here) (not_suffix_sibling h (by omega))
    have hrhs := visitExpr_missed (1 :: here) (not_suffix_sibling h (by omega))
    rw [visitExpr, unlessReached_inside h, hlhs, hrhs]
    rfl
  | .branch condition thenBranch elseBranch, 0 :: steps, here, scope => by
    intro h
    have hthen := misses_sibling h 1 (by omega) thenBranch
    have helse := misses_sibling h 2 (by omega) elseBranch
    rw [visitExpr, unlessReached_inside h, hthen.within_eq, helse.within_eq, Scope.exprBinder]
    exact visitExpr_eq condition steps (0 :: here) scope (call_in_child h)
  | .branch condition thenBranch elseBranch, [1], here, scope => by
    intro h
    have hcondition := visitExpr_missed (0 :: here) (not_suffix_sibling h (by omega))
    have hcall : c.call = 1 :: here := h
    have hthen := misses_of_call hcall thenBranch
    have helse := misses_sibling h 2 (by omega) elseBranch
    rw [visitExpr, unlessReached_inside h, hcondition, hthen.within_eq, helse.within_eq]
    rfl
  | .branch condition thenBranch elseBranch, 1 :: k :: steps, here, scope => by
    intro h
    have hcondition := visitExpr_missed (0 :: here) (not_suffix_sibling h (by omega))
    have helse := misses_sibling h 2 (by omega) elseBranch
    rw [visitExpr, unlessReached_inside h, hcondition, helse.within_eq, within_none_found, Scope.exprBinder]
    exact visitStmts_eq thenBranch 0 k steps (1 :: here) scope (call_in_child h)
  | .branch condition thenBranch elseBranch, [2], here, scope => by
    intro h
    have hcondition := visitExpr_missed (0 :: here) (not_suffix_sibling h (by omega))
    have hthen := misses_sibling h 1 (by omega) thenBranch
    have hcall : c.call = 2 :: here := h
    have helse := misses_of_call hcall elseBranch
    rw [visitExpr, unlessReached_inside h, hcondition, hthen.within_eq, helse.within_eq]
    rfl
  | .branch condition thenBranch elseBranch, 2 :: k :: steps, here, scope => by
    intro h
    have hcondition := visitExpr_missed (0 :: here) (not_suffix_sibling h (by omega))
    have hthen := misses_sibling h 1 (by omega) thenBranch
    rw [visitExpr, unlessReached_inside h, hcondition, hthen.within_eq, within_none_found, Scope.exprBinder]
    exact visitStmts_eq elseBranch 0 k steps (2 :: here) scope (call_in_child h)
  | .branch condition thenBranch elseBranch, (k + 3) :: steps, here, scope => by
    intro h
    have hcondition := visitExpr_missed (0 :: here) (not_suffix_sibling h (by omega))
    have hthen := misses_sibling h 1 (by omega) thenBranch
    have helse := misses_sibling h 2 (by omega) elseBranch
    rw [visitExpr, unlessReached_inside h, hcondition, hthen.within_eq, helse.within_eq]
    rfl
  | .other children, k :: steps, here, scope => by
    intro h
    rw [visitExpr, unlessReached_inside h, Scope.exprBinder]
    exact visitList_eq children 0 k steps here scope h
private theorem visitArgs_eq : ∀ (args : List (Argument Expr)) (i k : Nat) (steps here : Position) (scope : List Binder),
    c.call = ((k + i) :: steps).reverse ++ here →
      (c.visitArgs here i ⟨scope, none⟩ args).found.join = Scope.argBinder c.name scope.getLast? args k steps
  | [], i, k, steps, here, scope => by
    intro _
    rw [visitArgs]
    rfl
  | ⟨_, _, value⟩ :: rest, i, 0, steps, here, scope => by
    intro h
    rw [Nat.zero_add] at h
    have hrest := visitArgs_missed here (i + 1) fun j hj => not_suffix_sibling h (Nat.ne_of_gt hj)
    rw [visitArgs, hrest, Scope.argBinder]
    exact visitExpr_eq value steps (i :: here) scope (call_in_child h)
  | ⟨_, _, value⟩ :: rest, i, k + 1, steps, here, scope => by
    intro h
    have hfirst := visitExpr_missed (i :: here) (not_suffix_sibling h (by omega))
    rw [visitArgs, hfirst, Scope.argBinder]
    exact visitArgs_eq rest (i + 1) k steps here scope (by rwa [Nat.add_right_comm] at h)
private theorem visitList_eq : ∀ (parts : List Expr) (i k : Nat) (steps here : Position) (scope : List Binder),
    c.call = ((k + i) :: steps).reverse ++ here →
      (c.visitList here i ⟨scope, none⟩ parts).found.join = Scope.listBinder c.name scope.getLast? parts k steps
  | [], i, k, steps, here, scope => by
    intro _
    rw [visitList]
    rfl
  | e :: rest, i, 0, steps, here, scope => by
    intro h
    rw [Nat.zero_add] at h
    have hrest := visitList_missed here (i + 1) fun j hj => not_suffix_sibling h (Nat.ne_of_gt hj)
    rw [visitList, hrest, Scope.listBinder]
    exact visitExpr_eq e steps (i :: here) scope (call_in_child h)
  | e :: rest, i, k + 1, steps, here, scope => by
    intro h
    have hfirst := visitExpr_missed (i :: here) (not_suffix_sibling h (by omega))
    rw [visitList, hfirst, Scope.listBinder]
    exact visitList_eq rest (i + 1) k steps here scope (by rwa [Nat.add_right_comm] at h)
private theorem visitStmt_eq : ∀ (s : Stmt) (steps here : Position) (scope : List Binder), c.call = steps.reverse ++ here →
    (c.visitStmt here ⟨scope, none⟩ s).found.join = Scope.stmtBinder c.name scope.getLast? s steps
  | .val _ _ none _, steps, here, scope => by
    intro _
    rw [visitStmt, Scope.stmtBinder]
    rfl
  | .val _ _ (some e) _, steps, here, scope => by
    rw [visitStmt, Scope.stmtBinder]
    exact visitExpr_eq e steps here scope
  | .expr e, steps, here, scope => by
    rw [visitStmt, Scope.stmtBinder]
    exact visitExpr_eq e steps here scope
  | .nested header body, [], here, scope => by
    intro h
    have hcall : c.call = here := h
    rw [visitStmt, ((misses_of_call hcall body).within none).within_eq, Scope.stmtBinder]
    rfl
  | .nested header body, k :: steps, here, scope => by
    intro h
    rw [visitStmt, within_found, Scope.stmtBinder, ← inner?_or, ← getLast?_push]
    exact visitStmts_eq body 0 k steps here _ h
  | .ret none, steps, here, scope => by
    intro _
    rw [visitStmt, Scope.stmtBinder]
    rfl
  | .ret (some e), steps, here, scope => by
    rw [visitStmt, Scope.stmtBinder]
    exact visitExpr_eq e steps here scope
private theorem visitStmts_eq : ∀ (body : List Stmt) (i k : Nat) (steps here : Position) (scope : List Binder),
    c.call = ((k + i) :: steps).reverse ++ here →
      (c.visitStmts here i ⟨scope, none⟩ body).found.join = Scope.blockBinder c.name scope.getLast? body k steps
  | [], i, k, steps, here, scope => by
    intro _
    rw [visitStmts]
    rfl
  | s :: rest, i, 0, steps, here, scope => by
    intro h
    rw [Nat.zero_add] at h
    have hrest := visitStmts_missed here (i + 1) (fun j hj => not_suffix_sibling h (Nat.ne_of_gt hj)) rest
    rw [visitStmts, if_neg (by simp), Scope.blockBinder]
    exact (congrArg Option.join (hrest.found_eq _)).trans (visitStmt_eq s steps (i :: here) scope (call_in_child h))
  | s :: rest, i, k + 1, steps, here, scope => by
    intro h
    have hfirst := visitStmt_missed (i :: here) (not_suffix_sibling h (by omega))
    rw [visitStmts, if_neg (by simp), hfirst, Scope.blockBinder, ← getLast?_push]
    exact visitStmts_eq rest (i + 1) k steps here _ (by rwa [Nat.add_right_comm] at h)
end

end ScopeFinder

/-- The visit finds the binder that the walk along the position finds. -/
theorem FunctionDecl.findBinder_eq_binderAt (f : FunctionDecl) (call : Position) (name : String) :
    f.findBinder call name = f.binderAt call name := by
  let c : ScopeFinder := ⟨name, call⟩
  rw [findBinder, ScopeFinder.within_none_found, binderAt]
  cases hsteps : call.reverse with
  | nil =>
    have hcall : c.call = [] := List.reverse_eq_nil_iff.1 hsteps
    exact congrArg Option.join ((ScopeFinder.misses_of_call hcall f.body).found_eq {})
  | cons i steps =>
    have hcall : c.call = (i :: steps).reverse ++ [] := by rw [← hsteps, List.reverse_reverse, List.append_nil]
    exact ScopeFinder.visitStmts_eq f.body 0 i steps [] [] hcall

end PassThrough

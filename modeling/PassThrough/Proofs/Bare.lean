import PassThrough.Proofs.Usage

/-! Programs without the insides of their callbacks. Emptying the callbacks keeps the calls made while the UI is built, and
it keeps the names outside callbacks, with the layers around them. -/

namespace PassThrough

mutual
/-- The expression with its callbacks emptied. -/
def Expr.bare : Expr → Expr
  | .ident name location => .ident name location
  | .literal value => .literal value
  | .call callee target none args location => .call callee target none (bareArgs args) location
  | .call callee target (some receiver) args location =>
    .call callee target (some receiver.bare) (bareArgs args) location
  | .member receiver name location => .member receiver.bare name location
  | .template parts => .template (bareExprs parts)
  | .lambda uiBuilding params body => .lambda uiBuilding params (if uiBuilding then bareBlock body else [])
  | .binary op lhs rhs => .binary op lhs.bare rhs.bare
  | .branch condition thenBranch elseBranch => .branch condition.bare (bareBlock thenBranch) (bareBlock elseBranch)
  | .other children => .other (bareExprs children)
def bareArgs : List (Argument Expr) → List (Argument Expr)
  | [] => []
  | ⟨name, trailing, value⟩ :: rest => ⟨name, trailing, value.bare⟩ :: bareArgs rest
def bareExprs : List Expr → List Expr
  | [] => []
  | e :: rest => e.bare :: bareExprs rest
def Stmt.bare : Stmt → Stmt
  | .val name delegated none location => .val name delegated none location
  | .val name delegated (some e) location => .val name delegated (some e.bare) location
  | .expr e => .expr e.bare
  | .nested header body => .nested header (bareBlock body)
  | .ret none => .ret none
  | .ret (some e) => .ret (some e.bare)
def bareBlock : List Stmt → List Stmt
  | [] => []
  | s :: rest => s.bare :: bareBlock rest
end

/-- The function with its callbacks emptied. -/
def FunctionDecl.bare (f : FunctionDecl) : FunctionDecl := { f with body := bareBlock f.body }

def CallAt.bare (c : CallAt) : CallAt := { c with args := bareArgs c.args }

def Frame.bare : Frame → Frame
  | .block earlier => .block (bareBlock earlier)
  | frame => frame

def Occurrence.bare (o : Occurrence) : Occurrence := { o with around := o.around.map Frame.bare }

theorem bareBlock_eq_map (body : List Stmt) : bareBlock body = body.map Stmt.bare := by
  induction body with
  | nil => rfl
  | cons s rest ih => rw [bareBlock, ih, List.map_cons]

theorem Expr.ident?_bare (e : Expr) : e.bare.ident? = e.ident? := by
  cases e with
  | call callee target receiver args location => cases receiver <;> rfl
  | _ => rfl

private theorem Stmt.declares_bare (name : String) (s : Stmt) : s.bare.declares name = s.declares name := by
  cases s with
  | val n delegated initializer location => cases initializer <;> rfl
  | ret value => cases value <;> rfl
  | expr value => rfl
  | nested header body => rfl

private theorem Frame.hides_bare (name : String) (frame : Frame) : frame.bare.hides name = frame.hides name := by
  cases frame with
  | block earlier => simp [Frame.bare, Frame.hides, bareBlock_eq_map, Function.comp_def, Stmt.declares_bare]
  | _ => rfl

private theorem Occurrence.isVisible_bare (o : Occurrence) : o.bare.isVisible = o.isVisible := by
  simp [Occurrence.isVisible, Occurrence.bare, Function.comp_def, Frame.hides_bare]

mutual
theorem Expr.calls_bare (here : Position) : ∀ e : Expr, (e.calls false here).map CallAt.bare = e.bare.calls false here
  | .ident _ _ => rfl
  | .literal _ => rfl
  | .call _ _ none args _ => by
    simp only [Expr.calls, Expr.bare, List.map_cons, callsOfArgs_bare, CallAt.bare]
  | .call _ _ (some receiver) args _ => by
    simp only [Expr.calls, Expr.bare, List.map_cons, List.map_append, receiver.calls_bare, callsOfArgs_bare, CallAt.bare]
  | .member receiver _ _ => receiver.calls_bare (0 :: here)
  | .template parts => callsOfExprs_bare here 0 parts
  | .lambda uiBuilding _ body => by
    cases uiBuilding with
    | true => exact callsOfBlock_bare here 0 body
    | false => rfl
  | .binary _ lhs rhs => by
    simp only [Expr.calls, Expr.bare, List.map_append, lhs.calls_bare, rhs.calls_bare]
  | .branch condition thenBranch elseBranch => by
    simp only [Expr.calls, Expr.bare, List.map_append, condition.calls_bare, callsOfBlock_bare]
  | .other children => callsOfExprs_bare here 0 children
theorem callsOfArgs_bare (here : Position) (i : Nat) :
    ∀ args : List (Argument Expr), (callsOfArgs false here i args).map CallAt.bare = callsOfArgs false here i (bareArgs args)
  | [] => rfl
  | ⟨_, _, value⟩ :: rest => by
    simp only [callsOfArgs, bareArgs, List.map_append, value.calls_bare, callsOfArgs_bare here (i + 1) rest]
theorem callsOfExprs_bare (here : Position) (i : Nat) :
    ∀ parts : List Expr, (callsOfExprs false here i parts).map CallAt.bare = callsOfExprs false here i (bareExprs parts)
  | [] => rfl
  | e :: rest => by
    simp only [callsOfExprs, bareExprs, List.map_append, e.calls_bare, callsOfExprs_bare here (i + 1) rest]
theorem Stmt.calls_bare (here : Position) : ∀ s : Stmt, (s.calls false here).map CallAt.bare = s.bare.calls false here
  | .val _ _ none _ => rfl
  | .val _ _ (some e) _ => e.calls_bare here
  | .expr e => e.calls_bare here
  | .nested _ body => callsOfBlock_bare here 0 body
  | .ret none => rfl
  | .ret (some e) => e.calls_bare here
theorem callsOfBlock_bare (here : Position) (i : Nat) :
    ∀ body : List Stmt, (callsOfBlock false here i body).map CallAt.bare = callsOfBlock false here i (bareBlock body)
  | [] => rfl
  | s :: rest => by
    simp only [callsOfBlock, bareBlock, List.map_append, s.calls_bare, callsOfBlock_bare here (i + 1) rest]
end

theorem FunctionDecl.renderCalls_bare (f : FunctionDecl) : f.bare.renderCalls = f.renderCalls.map CallAt.bare :=
  (callsOfBlock_bare [] 0 f.body).symm

/-- The name stands outside all callbacks. -/
def Occurrence.isRendered (o : Occurrence) : Bool := o.around.all fun frame => !frame.isCallback

theorem Occurrence.isRendered_iff (o : Occurrence) : o.isRendered = true ↔ Rendered o.around := by
  simp [isRendered, Rendered]

/-- The names outside callbacks, as they stand when the callbacks are emptied. -/
def outsideCallbacks (os : List Occurrence) : List Occurrence := (os.filter Occurrence.isRendered).map Occurrence.bare

theorem outsideCallbacks_append (os ps : List Occurrence) :
    outsideCallbacks (os ++ ps) = outsideCallbacks os ++ outsideCallbacks ps := by
  simp [outsideCallbacks]

/-- Inside a callback there is none of them. -/
theorem outsideCallbacks_eq_nil {around : List Frame} {os : List Occurrence} {frame : Frame}
    (h : Inside (frame :: around) os) (hf : frame.isCallback = true) : outsideCallbacks os = [] := by
  rw [outsideCallbacks, List.map_eq_nil_iff, List.filter_eq_nil_iff]
  intro o ho hr
  have := (o.isRendered_iff.1 hr) frame ((h o ho).subset List.mem_cons_self)
  rw [hf] at this
  cases this

private theorem rendered_inner {around : List Frame} (hr : Rendered around) {frame : Frame}
    (hf : frame.isCallback = false) : Rendered (frame :: around) :=
  rendered_cons.2 ⟨hf, hr⟩

mutual
theorem Expr.names_bare (here : Position) (around : List Frame) (hr : Rendered around) :
    ∀ e : Expr, e.bare.names here (around.map Frame.bare) = outsideCallbacks (e.names here around)
  | .ident name _ => by
    have hrendered : Occurrence.isRendered ⟨name, here, around⟩ = true := (Occurrence.isRendered_iff _).2 hr
    simp [Expr.names, Expr.bare, outsideCallbacks, hrendered, Occurrence.bare]
  | .literal _ => rfl
  | .call _ _ none args _ => namesOfArgs_bare here around hr 0 args
  | .call _ _ (some receiver) args _ => by
    simp only [Expr.names, Expr.bare, outsideCallbacks_append]
    exact congrArg₂ _ (receiver.names_bare (0 :: here) (.operand :: around) (rendered_inner hr rfl))
      (namesOfArgs_bare here around hr 0 args)
  | .member receiver _ _ => receiver.names_bare (0 :: here) (.operand :: around) (rendered_inner hr rfl)
  | .template parts => namesOfExprs_bare here around hr 0 parts
  | .lambda uiBuilding params body => by
    cases uiBuilding with
    | true => exact namesOfBlock_bare here (.lambda true params :: around) (rendered_inner hr rfl) [] body
    | false => exact (outsideCallbacks_eq_nil (namesOfBlock_inside here (.lambda false params :: around) [] body) rfl).symm
  | .binary _ lhs rhs => by
    simp only [Expr.names, Expr.bare, outsideCallbacks_append]
    exact congrArg₂ _ (lhs.names_bare (0 :: here) (.operand :: around) (rendered_inner hr rfl))
      (rhs.names_bare (1 :: here) (.operand :: around) (rendered_inner hr rfl))
  | .branch condition thenBranch elseBranch => by
    simp only [Expr.names, Expr.bare, outsideCallbacks_append]
    exact congrArg₂ _ (congrArg₂ _ (condition.names_bare (0 :: here) (.operand :: around) (rendered_inner hr rfl))
      (namesOfBlock_bare _ around hr [] thenBranch)) (namesOfBlock_bare _ around hr [] elseBranch)
  | .other children => namesOfExprs_bare here around hr 0 children
theorem namesOfArgs_bare (here : Position) (around : List Frame) (hr : Rendered around) (i : Nat) :
    ∀ args : List (Argument Expr),
      namesOfArgs here (around.map Frame.bare) i (bareArgs args) = outsideCallbacks (namesOfArgs here around i args)
  | [] => rfl
  | ⟨_, _, value⟩ :: rest => by
    simp only [namesOfArgs, bareArgs, outsideCallbacks_append]
    exact congrArg₂ _ (value.names_bare ((i + 1) :: here) (.argument here i :: around) (rendered_inner hr rfl))
      (namesOfArgs_bare here around hr (i + 1) rest)
theorem namesOfExprs_bare (here : Position) (around : List Frame) (hr : Rendered around) (i : Nat) :
    ∀ parts : List Expr,
      namesOfExprs here (around.map Frame.bare) i (bareExprs parts) = outsideCallbacks (namesOfExprs here around i parts)
  | [] => rfl
  | e :: rest => by
    simp only [namesOfExprs, bareExprs, outsideCallbacks_append]
    exact congrArg₂ _ (e.names_bare (i :: here) (.operand :: around) (rendered_inner hr rfl))
      (namesOfExprs_bare here around hr (i + 1) rest)
theorem Stmt.names_bare (here : Position) (around : List Frame) (hr : Rendered around) :
    ∀ s : Stmt, s.bare.names here (around.map Frame.bare) = outsideCallbacks (s.names here around)
  | .val _ _ none _ => rfl
  | .val _ _ (some e) _ => e.names_bare here around hr
  | .expr e => e.names_bare here around hr
  | .nested header body => namesOfBlock_bare here (.nested header :: around) (rendered_inner hr rfl) [] body
  | .ret none => rfl
  | .ret (some e) => e.names_bare here around hr
theorem namesOfBlock_bare (here : Position) (around : List Frame) (hr : Rendered around) (earlier : List Stmt) :
    ∀ body : List Stmt, namesOfBlock here (around.map Frame.bare) (bareBlock earlier) (bareBlock body) =
      outsideCallbacks (namesOfBlock here around earlier body)
  | [] => rfl
  | s :: rest => by
    have hrest := namesOfBlock_bare here around hr (earlier ++ [s]) rest
    have hlength : (bareBlock earlier).length = earlier.length := by rw [bareBlock_eq_map, List.length_map]
    have hearlier : bareBlock (earlier ++ [s]) = bareBlock earlier ++ [s.bare] := by simp [bareBlock_eq_map]
    rw [hearlier] at hrest
    simp only [namesOfBlock, bareBlock, outsideCallbacks_append, hlength]
    exact congrArg₂ _ (s.names_bare (earlier.length :: here) (.block earlier :: around) (rendered_inner hr rfl)) hrest
end

namespace FunctionDecl

/-- A callback of the function holds a visible reference to the name. -/
def mentionsInCallback (f : FunctionDecl) (name : String) : Bool := (f.visible name).any fun o => !o.isRendered

/-- The visible references that are left when the callbacks are emptied are those outside callbacks. -/
theorem visible_bare (f : FunctionDecl) (name : String) :
    f.bare.visible name = ((f.visible name).filter Occurrence.isRendered).map Occurrence.bare := by
  have hnames := namesOfBlock_bare [] [] (by simp [Rendered]) [] f.body
  rw [visible, visible, occurrences, occurrences]
  refine (congrArg (fun os => (os.filter (·.name == name)).filter Occurrence.isVisible) hnames).trans ?_
  simp only [outsideCallbacks, List.filter_map, List.filter_filter]
  congr 1
  refine List.filter_congr fun o _ => ?_
  have hname : o.bare.name = o.name := rfl
  simp only [Function.comp_apply, Occurrence.isVisible_bare, hname]
  rw [← Bool.and_assoc, Bool.and_comm]

end FunctionDecl
end PassThrough

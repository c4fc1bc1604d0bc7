import PassThrough.Source.Walk

/-! What stands at a position of a body, and what lies around it there. A position determines both, so
a call is known by its position, and a call made while the UI is built never lies in a callback. -/

namespace PassThrough

/-- One layer around a place: the place is the value of an argument, another part of an expression,
or it lies in the body of a lambda or local function, or in a block behind earlier statements. -/
inductive Frame where
  | argument (call : Position) (index : Nat)
  | operand
  | lambda (uiBuilding : Bool) (params : List String)
  | nested (header : FunctionHeader)
  | block (earlier : List Stmt)

namespace Frame

def isCallback : Frame → Bool
  | .lambda uiBuilding _ => !uiBuilding
  | _ => false

/-- The layer binds the name, so that inside it the name is no parameter of the function. -/
def hides (name : String) : Frame → Bool
  | .lambda _ params => params.contains name
  | .nested header => header.declares name
  | .block earlier => earlier.any (·.declares name)
  | _ => false

end Frame

inductive Focus where
  | expr (value : Expr)
  | block (body : List Stmt)

/-- What stands at a position, and the layers around it, the innermost first. -/
structure Place where
  focus : Focus
  around : List Frame

def Stmt.place? (around : List Frame) : Stmt → Option Place
  | .val _ _ (some e) _ => some ⟨.expr e, around⟩
  | .expr e => some ⟨.expr e, around⟩
  | .nested header body => some ⟨.block body, .nested header :: around⟩
  | .ret (some e) => some ⟨.expr e, around⟩
  | _ => none

/-- Statement `i` of a block. -/
def stmtPlace? (around : List Frame) (body : List Stmt) (i : Nat) : Option Place :=
  body[i]?.bind (·.place? (.block (body.take i) :: around))

def argPlace? (here : Position) (around : List Frame) (args : List (Argument Expr)) (i : Nat) : Option Place :=
  args[i]?.map fun a => ⟨.expr a.value, .argument here i :: around⟩

def partPlace? (around : List Frame) (parts : List Expr) (i : Nat) : Option Place :=
  parts[i]?.map fun e => ⟨.expr e, .operand :: around⟩

/-- One step inwards from the place at `here`. -/
def Place.step? (here : Position) : Place → Nat → Option Place
  | ⟨.block body, around⟩, i => stmtPlace? around body i
  | ⟨.expr (.lambda uiBuilding params body), around⟩, i => stmtPlace? (.lambda uiBuilding params :: around) body i
  | ⟨.expr (.call _ _ (some receiver) _ _), around⟩, 0 => some ⟨.expr receiver, .operand :: around⟩
  | ⟨.expr (.call _ _ _ args _), around⟩, i + 1 => argPlace? here around args i
  | ⟨.expr (.member receiver _ _), around⟩, 0 => some ⟨.expr receiver, .operand :: around⟩
  | ⟨.expr (.template parts), around⟩, i => partPlace? around parts i
  | ⟨.expr (.binary _ lhs _), around⟩, 0 => some ⟨.expr lhs, .operand :: around⟩
  | ⟨.expr (.binary _ _ rhs), around⟩, 1 => some ⟨.expr rhs, .operand :: around⟩
  | ⟨.expr (.branch condition _ _), around⟩, 0 => some ⟨.expr condition, .operand :: around⟩
  | ⟨.expr (.branch _ thenBranch _), around⟩, 1 => some ⟨.block thenBranch, around⟩
  | ⟨.expr (.branch _ _ elseBranch), around⟩, 2 => some ⟨.block elseBranch, around⟩
  | ⟨.expr (.other children), around⟩, i => partPlace? around children i
  | _, _ => none

/-- The place at a position of the body. -/
def FunctionDecl.placeAt? (f : FunctionDecl) : Position → Option Place
  | [] => some ⟨.block f.body, []⟩
  | i :: here => (f.placeAt? here).bind (·.step? here i)

/-- The layers around the place hold no callback. -/
def Rendered (around : List Frame) : Prop := ∀ frame ∈ around, frame.isCallback = false

theorem rendered_cons {frame : Frame} {around : List Frame} :
    Rendered (frame :: around) ↔ frame.isCallback = false ∧ Rendered around :=
  List.forall_mem_cons

theorem FunctionDecl.placeAt?_cons {f : FunctionDecl} {here : Position} {p : Place} (h : f.placeAt? here = some p)
    (i : Nat) : f.placeAt? (i :: here) = p.step? here i := by
  simp only [placeAt?, h, Option.bind_some]

theorem stmtPlace?_append (around : List Frame) (earlier : List Stmt) (s : Stmt) (rest : List Stmt) :
    stmtPlace? around (earlier ++ s :: rest) earlier.length = s.place? (.block earlier :: around) := by
  simp [stmtPlace?]

theorem argPlace?_append (here : Position) (around : List Frame) (earlier : List (Argument Expr)) (a : Argument Expr)
    (rest : List (Argument Expr)) :
    argPlace? here around (earlier ++ a :: rest) earlier.length =
      some ⟨.expr a.value, .argument here earlier.length :: around⟩ := by
  simp [argPlace?]

theorem partPlace?_append (around : List Frame) (earlier : List Expr) (e : Expr) (rest : List Expr) :
    partPlace? around (earlier ++ e :: rest) earlier.length = some ⟨.expr e, .operand :: around⟩ := by
  simp [partPlace?]

/-- The call stands at its position; it lies outside callbacks if `around` does and no callback was entered. -/
def CallAt.StandsIn (c : CallAt) (f : FunctionDecl) (callbacks : Bool) (around : List Frame) : Prop :=
  ∃ receiver inner, f.placeAt? c.position = some ⟨.expr (.call c.callee c.target receiver c.args c.location), inner⟩ ∧
    (callbacks = false → Rendered around → Rendered inner)

theorem CallAt.StandsIn.outward {c : CallAt} {f : FunctionDecl} {callbacks : Bool} {inner around : List Frame}
    (h : c.StandsIn f callbacks inner) (hr : callbacks = false → Rendered around → Rendered inner) :
    c.StandsIn f callbacks around := by
  obtain ⟨receiver, innermost, hp, hi⟩ := h
  exact ⟨receiver, innermost, hp, fun hc ha => hi hc (hr hc ha)⟩

private theorem rendered_push {frame : Frame} (around : List Frame) (h : frame.isCallback = false) (callbacks : Bool) :
    callbacks = false → Rendered around → Rendered (frame :: around) :=
  fun _ ha => rendered_cons.2 ⟨h, ha⟩

-- The lists are split into what was passed and what is left, so that the index of a step is a length.
mutual
theorem Expr.calls_standIn (f : FunctionDecl) (callbacks : Bool) (here : Position) (around : List Frame) :
    ∀ e : Expr, f.placeAt? here = some ⟨.expr e, around⟩ →
      ∀ c ∈ e.calls callbacks here, c.StandsIn f callbacks around
  | .ident _ _, _, c, hc => by simp [Expr.calls] at hc
  | .literal _, _, c, hc => by simp [Expr.calls] at hc
  | .call callee target none args location, h, c, hc => by
    simp only [Expr.calls, List.mem_cons] at hc
    rcases hc with rfl | hc
    · exact ⟨none, around, h, fun _ ha => ha⟩
    · exact callsOfArgs_standIn f callbacks here around [] args (fun i => f.placeAt?_cons h (i + 1)) c hc
  | .call callee target (some receiver) args location, h, c, hc => by
    simp only [Expr.calls, List.mem_cons, List.mem_append] at hc
    rcases hc with rfl | hc | hc
    · exact ⟨some receiver, around, h, fun _ ha => ha⟩
    · exact (receiver.calls_standIn f callbacks (0 :: here) _ (f.placeAt?_cons h 0) c hc).outward
        (rendered_push around rfl _)
    · exact callsOfArgs_standIn f callbacks here around [] args (fun i => f.placeAt?_cons h (i + 1)) c hc
  | .member receiver _ _, h, c, hc => by
    simp only [Expr.calls] at hc
    exact (receiver.calls_standIn f callbacks (0 :: here) _ (f.placeAt?_cons h 0) c hc).outward
      (rendered_push around rfl _)
  | .template parts, h, c, hc => by
    simp only [Expr.calls] at hc
    exact callsOfExprs_standIn f callbacks here around [] parts (fun i => f.placeAt?_cons h i) c hc
  | .lambda uiBuilding params body, h, c, hc => by
    simp only [Expr.calls] at hc
    split at hc
    · rename_i hb
      refine (callsOfBlock_standIn f callbacks here _ [] body (fun i => f.placeAt?_cons h i) c hc).outward ?_
      intro hn ha
      exact rendered_cons.2 ⟨by simpa [Frame.isCallback, hn] using hb, ha⟩
    · simp at hc
  | .binary _ lhs rhs, h, c, hc => by
    simp only [Expr.calls, List.mem_append] at hc
    rcases hc with hc | hc
    · exact (lhs.calls_standIn f callbacks (0 :: here) _ (f.placeAt?_cons h 0) c hc).outward
        (rendered_push around rfl _)
    · exact (rhs.calls_standIn f callbacks (1 :: here) _ (f.placeAt?_cons h 1) c hc).outward
        (rendered_push around rfl _)
  | .branch condition thenBranch elseBranch, h, c, hc => by
    simp only [Expr.calls, List.mem_append] at hc
    rcases hc with (hc | hc) | hc
    · exact (condition.calls_standIn f callbacks (0 :: here) _ (f.placeAt?_cons h 0) c hc).outward
        (rendered_push around rfl _)
    · exact callsOfBlock_standIn f callbacks (1 :: here) around [] thenBranch
        (fun i => f.placeAt?_cons (f.placeAt?_cons h 1) i) c hc
    · exact callsOfBlock_standIn f callbacks (2 :: here) around [] elseBranch
        (fun i => f.placeAt?_cons (f.placeAt?_cons h 2) i) c hc
  | .other children, h, c, hc => by
    simp only [Expr.calls] at hc
    exact callsOfExprs_standIn f callbacks here around [] children (fun i => f.placeAt?_cons h i) c hc
theorem callsOfArgs_standIn (f : FunctionDecl) (callbacks : Bool) (here : Position) (around : List Frame) :
    ∀ earlier args : List (Argument Expr),
      (∀ i, f.placeAt? ((i + 1) :: here) = argPlace? here around (earlier ++ args) i) →
      ∀ c ∈ callsOfArgs callbacks here (earlier.length + 1) args, c.StandsIn f callbacks around
  | _, [], _, c, hc => by simp [callsOfArgs] at hc
  | earlier, ⟨name, trailing, value⟩ :: rest, h, c, hc => by
    simp only [callsOfArgs, List.mem_append] at hc
    rcases hc with hc | hc
    · have hp := (h earlier.length).trans (argPlace?_append here around earlier _ rest)
      exact (value.calls_standIn f callbacks _ _ hp c hc).outward (rendered_push around rfl _)
    · exact callsOfArgs_standIn f callbacks here around (earlier ++ [⟨name, trailing, value⟩]) rest
        (by simpa using h) c (by simpa using hc)
theorem callsOfExprs_standIn (f : FunctionDecl) (callbacks : Bool) (here : Position) (around : List Frame) :
    ∀ earlier parts : List Expr,
      (∀ i, f.placeAt? (i :: here) = partPlace? around (earlier ++ parts) i) →
      ∀ c ∈ callsOfExprs callbacks here earlier.length parts, c.StandsIn f callbacks around
  | _, [], _, c, hc => by simp [callsOfExprs] at hc
  | earlier, e :: rest, h, c, hc => by
    simp only [callsOfExprs, List.mem_append] at hc
    rcases hc with hc | hc
    · have hp := (h earlier.length).trans (partPlace?_append around earlier e rest)
      exact (e.calls_standIn f callbacks _ _ hp c hc).outward (rendered_push around rfl _)
    · exact callsOfExprs_standIn f callbacks here around (earlier ++ [e]) rest
        (by simpa using h) c (by simpa using hc)
theorem Stmt.calls_standIn (f : FunctionDecl) (callbacks : Bool) (here : Position) (around : List Frame) :
    ∀ s : Stmt, f.placeAt? here = s.place? around →
      ∀ c ∈ s.calls callbacks here, c.StandsIn f callbacks around
  | .val _ _ none _, _, c, hc => by simp [Stmt.calls] at hc
  | .val _ _ (some e) _, h, c, hc => e.calls_standIn f callbacks here around h c (by simpa only [Stmt.calls] using hc)
  | .expr e, h, c, hc => e.calls_standIn f callbacks here around h c (by simpa only [Stmt.calls] using hc)
  | .nested header body, h, c, hc => by
    simp only [Stmt.calls] at hc
    exact (callsOfBlock_standIn f callbacks here _ [] body (fun i => f.placeAt?_cons h i) c hc).outward
      (rendered_push around rfl _)
  | .ret none, _, c, hc => by simp [Stmt.calls] at hc
  | .ret (some e), h, c, hc => e.calls_standIn f callbacks here around h c (by simpa only [Stmt.calls] using hc)
theorem callsOfBlock_standIn (f : FunctionDecl) (callbacks : Bool) (here : Position) (around : List Frame) :
    ∀ earlier body : List Stmt,
      (∀ i, f.placeAt? (i :: here) = stmtPlace? around (earlier ++ body) i) →
      ∀ c ∈ callsOfBlock callbacks here earlier.length body, c.StandsIn f callbacks around
  | _, [], _, c, hc => by simp [callsOfBlock] at hc
  | earlier, s :: rest, h, c, hc => by
    simp only [callsOfBlock, List.mem_append] at hc
    rcases hc with hc | hc
    · have hp := (h earlier.length).trans (stmtPlace?_append around earlier s rest)
      exact (s.calls_standIn f callbacks _ _ hp c hc).outward (rendered_push around rfl _)
    · exact callsOfBlock_standIn f callbacks here around (earlier ++ [s]) rest
        (by simpa using h) c (by simpa using hc)
end

/-- A call made while the UI is built stands at its position, outside every callback. -/
theorem FunctionDecl.renderCalls_placeAt? (f : FunctionDecl) {c : CallAt} (hc : c ∈ f.renderCalls) :
    ∃ receiver around, f.placeAt? c.position = some ⟨.expr (.call c.callee c.target receiver c.args c.location), around⟩ ∧
      Rendered around := by
  have hs : c.StandsIn f false [] := callsOfBlock_standIn f false [] [] [] f.body (fun _ => rfl) c hc
  obtain ⟨receiver, around, hp, hr⟩ := hs
  exact ⟨receiver, around, hp, hr rfl (by simp [Rendered])⟩

/-- What is directly an argument stands one step inside the call that takes it. -/
theorem FunctionDecl.placeAt?_argument (f : FunctionDecl) {position call : Position} {index : Nat} {e : Expr}
    {around : List Frame} (h : f.placeAt? position = some ⟨.expr e, .argument call index :: around⟩) :
    ∃ callee target receiver args location a, position = (index + 1) :: call ∧ args[index]? = some a ∧ a.value = e ∧
      f.placeAt? call = some ⟨.expr (.call callee target receiver args location), around⟩ := by
  cases position with
  | nil => cases h
  | cons i here =>
    simp only [placeAt?, Option.bind_eq_some_iff] at h
    obtain ⟨⟨focus, outer⟩, hp, hs⟩ := h
    have hstmt (layers : List Frame) (body : List Stmt) :
        stmtPlace? layers body i ≠ some ⟨.expr e, .argument call index :: around⟩ := by
      intro heq
      obtain ⟨s, -, hs⟩ := Option.bind_eq_some_iff.1 heq
      cases s with
      | val name delegated initializer location => cases initializer <;> simp [Stmt.place?] at hs
      | expr value => simp [Stmt.place?] at hs
      | nested header body => simp [Stmt.place?] at hs
      | ret value => cases value <;> simp [Stmt.place?] at hs
    have harg (args : List (Argument Expr)) (j : Nat)
        (heq : argPlace? here outer args j = some ⟨.expr e, .argument call index :: around⟩) :
        ∃ a, j = index ∧ args[index]? = some a ∧ a.value = e ∧ here = call ∧ outer = around := by
      obtain ⟨a, ha, heq⟩ := Option.map_eq_some_iff.1 heq
      simp only [Place.mk.injEq, Focus.expr.injEq, List.cons.injEq, Frame.argument.injEq] at heq
      obtain ⟨rfl, ⟨rfl, rfl⟩, rfl⟩ := heq
      exact ⟨a, rfl, ha, rfl, rfl, rfl⟩
    unfold Place.step? at hs
    split at hs
    · exact absurd hs (hstmt _ _)
    · exact absurd hs (hstmt _ _)
    · simp at hs
    · rename_i callee target receiver args location layers j hpl
      obtain ⟨rfl, rfl⟩ : focus = _ ∧ outer = layers := by simpa using hpl
      obtain ⟨a, rfl, ha, hv, rfl, rfl⟩ := harg args j hs
      exact ⟨callee, target, receiver, args, location, a, rfl, ha, hv, hp⟩
    all_goals simp [partPlace?] at hs

end PassThrough

import PassThrough.Proofs.Graph
import PassThrough.Proofs.Place
import PassThrough.Usage.Scan

/-! Occurrences of names, listed with all that lies around them, as a measure for the scan of a body:
the scan finds the visible occurrences of a parameter, in the order of the text, and judges each by the
call site of which it is directly an argument. -/

namespace PassThrough

/-- A name that stands as an expression, with its place. -/
structure Occurrence where
  name : String
  position : Position
  around : List Frame

mutual
/-- All names in an expression, in the order of the text. -/
def Expr.names (here : Position) (around : List Frame) : Expr → List Occurrence
  | .ident name _ => [⟨name, here, around⟩]
  | .literal _ => []
  | .call _ _ none args _ => namesOfArgs here around 0 args
  | .call _ _ (some receiver) args _ =>
    receiver.names (0 :: here) (.operand :: around) ++ namesOfArgs here around 0 args
  | .member receiver _ _ => receiver.names (0 :: here) (.operand :: around)
  | .template parts => namesOfExprs here around 0 parts
  | .lambda uiBuilding params body => namesOfBlock here (.lambda uiBuilding params :: around) [] body
  | .binary _ lhs rhs =>
    lhs.names (0 :: here) (.operand :: around) ++ rhs.names (1 :: here) (.operand :: around)
  | .branch condition thenBranch elseBranch =>
    condition.names (0 :: here) (.operand :: around) ++ namesOfBlock (1 :: here) around [] thenBranch ++
      namesOfBlock (2 :: here) around [] elseBranch
  | .other children => namesOfExprs here around 0 children
def namesOfArgs (here : Position) (around : List Frame) (i : Nat) : List (Argument Expr) → List Occurrence
  | [] => []
  | ⟨_, _, value⟩ :: rest =>
    value.names ((i + 1) :: here) (.argument here i :: around) ++ namesOfArgs here around (i + 1) rest
def namesOfExprs (here : Position) (around : List Frame) (i : Nat) : List Expr → List Occurrence
  | [] => []
  | e :: rest => e.names (i :: here) (.operand :: around) ++ namesOfExprs here around (i + 1) rest
def Stmt.names (here : Position) (around : List Frame) : Stmt → List Occurrence
  | .val _ _ none _ => []
  | .val _ _ (some e) _ => e.names here around
  | .expr e => e.names here around
  | .nested header body => namesOfBlock here (.nested header :: around) [] body
  | .ret none => []
  | .ret (some e) => e.names here around
/-- The names in the statements of a block that follow `earlier`. -/
def namesOfBlock (here : Position) (around : List Frame) (earlier : List Stmt) : List Stmt → List Occurrence
  | [] => []
  | s :: rest =>
    s.names (earlier.length :: here) (.block earlier :: around) ++ namesOfBlock here around (earlier ++ [s]) rest
end

/-- The occurrences of a name in the body, in the order of the text. -/
def FunctionDecl.occurrences (f : FunctionDecl) (name : String) : List Occurrence :=
  (namesOfBlock [] [] [] f.body).filter (·.name == name)

/-- Nothing around the occurrence binds its name. -/
def Occurrence.isVisible (o : Occurrence) : Bool := o.around.all fun frame => !frame.hides o.name

/-- The call site of `n` of which the place is directly an argument, and the number of that argument. -/
def Graph.siteAround? (g : Graph) (n : NodeId) : List Frame → Option (CallSite × Nat)
  | .argument call index :: _ => ((g.sitesOf n).find? (·.position == call)).map fun site => (site, index)
  | _ => none

/-- The names have these layers around them, and possibly more inside. -/
def Inside (around : List Frame) (os : List Occurrence) : Prop := ∀ o ∈ os, around <:+ o.around

namespace Inside
variable {around : List Frame} {os ps : List Occurrence}

theorem nil : Inside around [] := by simp [Inside]

theorem append (ho : Inside around os) (hp : Inside around ps) : Inside around (os ++ ps) := by
  intro o hmem
  rcases List.mem_append.1 hmem with hmem | hmem
  · exact ho o hmem
  · exact hp o hmem

theorem outward {frame : Frame} (h : Inside (frame :: around) os) : Inside around os :=
  fun o ho => (List.suffix_cons frame around).trans (h o ho)

end Inside

mutual
theorem Expr.names_inside (here : Position) (around : List Frame) : ∀ e : Expr, Inside around (e.names here around)
  | .ident _ _ => by simp [Expr.names, Inside]
  | .literal _ => .nil
  | .call _ _ none args _ => namesOfArgs_inside here around 0 args
  | .call _ _ (some receiver) args _ => (receiver.names_inside _ _).outward.append (namesOfArgs_inside here around 0 args)
  | .member receiver _ _ => (receiver.names_inside _ _).outward
  | .template parts => namesOfExprs_inside here around 0 parts
  | .lambda _ _ body => (namesOfBlock_inside here _ [] body).outward
  | .binary _ lhs rhs => (lhs.names_inside _ _).outward.append (rhs.names_inside _ _).outward
  | .branch condition thenBranch elseBranch =>
    ((condition.names_inside _ _).outward.append (namesOfBlock_inside _ around [] thenBranch)).append
      (namesOfBlock_inside _ around [] elseBranch)
  | .other children => namesOfExprs_inside here around 0 children
theorem namesOfArgs_inside (here : Position) (around : List Frame) (i : Nat) :
    ∀ args : List (Argument Expr), Inside around (namesOfArgs here around i args)
  | [] => .nil
  | ⟨_, _, value⟩ :: rest => (value.names_inside _ _).outward.append (namesOfArgs_inside here around (i + 1) rest)
theorem namesOfExprs_inside (here : Position) (around : List Frame) (i : Nat) :
    ∀ parts : List Expr, Inside around (namesOfExprs here around i parts)
  | [] => .nil
  | e :: rest => (e.names_inside _ _).outward.append (namesOfExprs_inside here around (i + 1) rest)
theorem Stmt.names_inside (here : Position) (around : List Frame) : ∀ s : Stmt, Inside around (s.names here around)
  | .val _ _ none _ => .nil
  | .val _ _ (some e) _ => e.names_inside here around
  | .expr e => e.names_inside here around
  | .nested _ body => (namesOfBlock_inside here _ [] body).outward
  | .ret none => .nil
  | .ret (some e) => e.names_inside here around
theorem namesOfBlock_inside (here : Position) (around : List Frame) (earlier : List Stmt) :
    ∀ body : List Stmt, Inside around (namesOfBlock here around earlier body)
  | [] => .nil
  | s :: rest => (s.names_inside _ _).outward.append (namesOfBlock_inside here around (earlier ++ [s]) rest)
end

/-- The occurrence stands at its position. -/
def Occurrence.StandsIn (o : Occurrence) (f : FunctionDecl) : Prop :=
  ∃ location, f.placeAt? o.position = some ⟨.expr (.ident o.name location), o.around⟩

mutual
theorem Expr.names_standIn (f : FunctionDecl) (here : Position) (around : List Frame) :
    ∀ e : Expr, f.placeAt? here = some ⟨.expr e, around⟩ → ∀ o ∈ e.names here around, o.StandsIn f
  | .ident _ location, h, o, ho => by
    obtain rfl : o = _ := by simpa [Expr.names] using ho
    exact ⟨location, h⟩
  | .literal _, _, o, ho => by simp [Expr.names] at ho
  | .call _ _ none args _, h, o, ho => by
    simp only [Expr.names] at ho
    exact namesOfArgs_standIn f here around [] args (fun i => f.placeAt?_cons h (i + 1)) o ho
  | .call _ _ (some receiver) args _, h, o, ho => by
    simp only [Expr.names, List.mem_append] at ho
    rcases ho with ho | ho
    · exact receiver.names_standIn f _ _ (f.placeAt?_cons h 0) o ho
    · exact namesOfArgs_standIn f here around [] args (fun i => f.placeAt?_cons h (i + 1)) o ho
  | .member receiver _ _, h, o, ho => by
    simp only [Expr.names] at ho
    exact receiver.names_standIn f _ _ (f.placeAt?_cons h 0) o ho
  | .template parts, h, o, ho => by
    simp only [Expr.names] at ho
    exact namesOfExprs_standIn f here around [] parts (fun i => f.placeAt?_cons h i) o ho
  | .lambda _ _ body, h, o, ho => by
    simp only [Expr.names] at ho
    exact namesOfBlock_standIn f here _ [] body (fun i => f.placeAt?_cons h i) o ho
  | .binary _ lhs rhs, h, o, ho => by
    simp only [Expr.names, List.mem_append] at ho
    rcases ho with ho | ho
    · exact lhs.names_standIn f _ _ (f.placeAt?_cons h 0) o ho
    · exact rhs.names_standIn f _ _ (f.placeAt?_cons h 1) o ho
  | .branch condition thenBranch elseBranch, h, o, ho => by
    simp only [Expr.names, List.mem_append] at ho
    rcases ho with (ho | ho) | ho
    · exact condition.names_standIn f _ _ (f.placeAt?_cons h 0) o ho
    · exact namesOfBlock_standIn f _ around [] thenBranch (fun i => f.placeAt?_cons (f.placeAt?_cons h 1) i) o ho
    · exact namesOfBlock_standIn f _ around [] elseBranch (fun i => f.placeAt?_cons (f.placeAt?_cons h 2) i) o ho
  | .other children, h, o, ho => by
    simp only [Expr.names] at ho
    exact namesOfExprs_standIn f here around [] children (fun i => f.placeAt?_cons h i) o ho
theorem namesOfArgs_standIn (f : FunctionDecl) (here : Position) (around : List Frame) :
    ∀ earlier args : List (Argument Expr),
      (∀ i, f.placeAt? ((i + 1) :: here) = argPlace? here around (earlier ++ args) i) →
      ∀ o ∈ namesOfArgs here around earlier.length args, o.StandsIn f
  | _, [], _, o, ho => by simp [namesOfArgs] at ho
  | earlier, ⟨name, trailing, value⟩ :: rest, h, o, ho => by
    simp only [namesOfArgs, List.mem_append] at ho
    rcases ho with ho | ho
    · have hp := (h earlier.length).trans (argPlace?_append here around earlier _ rest)
      exact value.names_standIn f _ _ hp o ho
    · exact namesOfArgs_standIn f here around (earlier ++ [⟨name, trailing, value⟩]) rest
        (by simpa using h) o (by simpa using ho)
theorem namesOfExprs_standIn (f : FunctionDecl) (here : Position) (around : List Frame) :
    ∀ earlier parts : List Expr,
      (∀ i, f.placeAt? (i :: here) = partPlace? around (earlier ++ parts) i) →
      ∀ o ∈ namesOfExprs here around earlier.length parts, o.StandsIn f
  | _, [], _, o, ho => by simp [namesOfExprs] at ho
  | earlier, e :: rest, h, o, ho => by
    simp only [namesOfExprs, List.mem_append] at ho
    rcases ho with ho | ho
    · have hp := (h earlier.length).trans (partPlace?_append around earlier e rest)
      exact e.names_standIn f _ _ hp o ho
    · exact namesOfExprs_standIn f here around (earlier ++ [e]) rest (by simpa using h) o (by simpa using ho)
theorem Stmt.names_standIn (f : FunctionDecl) (here : Position) (around : List Frame) :
    ∀ s : Stmt, f.placeAt? here = s.place? around → ∀ o ∈ s.names here around, o.StandsIn f
  | .val _ _ none _, _, o, ho => by simp [Stmt.names] at ho
  | .val _ _ (some e) _, h, o, ho => e.names_standIn f here around h o (by simpa only [Stmt.names] using ho)
  | .expr e, h, o, ho => e.names_standIn f here around h o (by simpa only [Stmt.names] using ho)
  | .nested _ body, h, o, ho => by
    simp only [Stmt.names] at ho
    exact namesOfBlock_standIn f here _ [] body (fun i => f.placeAt?_cons h i) o ho
  | .ret none, _, o, ho => by simp [Stmt.names] at ho
  | .ret (some e), h, o, ho => e.names_standIn f here around h o (by simpa only [Stmt.names] using ho)
theorem namesOfBlock_standIn (f : FunctionDecl) (here : Position) (around : List Frame) :
    ∀ earlier body : List Stmt,
      (∀ i, f.placeAt? (i :: here) = stmtPlace? around (earlier ++ body) i) →
      ∀ o ∈ namesOfBlock here around earlier body, o.StandsIn f
  | _, [], _, o, ho => by simp [namesOfBlock] at ho
  | earlier, s :: rest, h, o, ho => by
    simp only [namesOfBlock, List.mem_append] at ho
    rcases ho with ho | ho
    · have hp := (h earlier.length).trans (stmtPlace?_append around earlier s rest)
      exact s.names_standIn f _ _ hp o ho
    · exact namesOfBlock_standIn f here around (earlier ++ [s]) rest (by simpa using h) o ho
end

/-- Every name in the rest of a block lies behind all statements before it. -/
theorem block_mem_around {here : Position} {around : List Frame} {earlier body : List Stmt} {o : Occurrence}
    (ho : o ∈ namesOfBlock here around earlier body) : ∃ later, .block (earlier ++ later) ∈ o.around := by
  induction body generalizing earlier with
  | nil => simp [namesOfBlock] at ho
  | cons s rest ih =>
    simp only [namesOfBlock, List.mem_append] at ho
    rcases ho with ho | ho
    · exact ⟨[], by simpa using (s.names_inside _ _ o ho).subset List.mem_cons_self⟩
    · obtain ⟨later, hl⟩ := ih ho
      exact ⟨s :: later, by simpa using hl⟩

/-- An occurrence in a body stands at its position. -/
theorem FunctionDecl.placeAt?_of_mem_occurrences {f : FunctionDecl} {name : String} {o : Occurrence}
    (ho : o ∈ f.occurrences name) : ∃ location, f.placeAt? o.position = some ⟨.expr (.ident o.name location), o.around⟩ :=
  namesOfBlock_standIn f [] [] [] f.body (fun _ => rfl) o (List.mem_of_mem_filter ho)

namespace Scan
variable (c : Scan)

/-- The judgement of one visible occurrence. -/
def useOf (o : Occurrence) : Use :=
  match c.graph.siteAround? c.node o.around with
  | some (site, index) => c.argumentUse site index
  | none => .read

/-- The judgements of the visible occurrences of the parameter. -/
def usesOf (os : List Occurrence) : List Use :=
  (os.filter fun o => o.isVisible && o.name == c.param).map c.useOf

theorem usesOf_append (os ps : List Occurrence) : c.usesOf (os ++ ps) = c.usesOf os ++ c.usesOf ps := by
  simp [usesOf]

/-- Occurrences behind a binder of the parameter do not count. -/
theorem usesOf_eq_nil {os : List Occurrence} (h : ∀ o ∈ os, ∃ frame ∈ o.around, frame.hides c.param = true) :
    c.usesOf os = [] := by
  rw [usesOf, List.map_eq_nil_iff, List.filter_eq_nil_iff]
  intro o ho hv
  obtain ⟨frame, hf, hh⟩ := h o ho
  simp only [Bool.and_eq_true, beq_iff_eq, Occurrence.isVisible, List.all_eq_true, Bool.not_eq_true'] at hv
  have := hv.1 frame hf
  rw [hv.2, hh] at this
  cases this

theorem usesOf_singleton {name : String} {here : Position} {around : List Frame}
    (hv : ∀ frame ∈ around, frame.hides c.param = false) :
    c.usesOf [⟨name, here, around⟩] = if name = c.param then [c.useOf ⟨name, here, around⟩] else [] := by
  by_cases hname : name = c.param
  · subst hname
    have hvis : Occurrence.isVisible ⟨c.param, here, around⟩ = true := by simpa [Occurrence.isVisible] using hv
    simp [usesOf, hvis]
  · simp [usesOf, hname]

theorem siteAround?_argument (call : Position) (index : Nat) (around : List Frame) :
    c.graph.siteAround? c.node (.argument call index :: around) =
      (c.graph.siteAt? c.node c.node call).map fun site => (site, index) := by
  simp [Graph.siteAround?, Graph.siteAt?]

end Scan
end PassThrough

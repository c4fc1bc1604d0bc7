import Mathlib.Data.List.Basic
import PassThrough.Reactive.Creation
import PassThrough.Source.Builder

/-! Creations behind memoising calls. A memoising call creates what the value that it keeps creates, the result of the last
of its lambdas that has one. So memoising calls may be nested to any depth around an expression, with whatever else in their
arguments and bodies, and do not change what is created; and what is found to create is always such a nest around a call
that creates by itself. -/

namespace PassThrough

/-- The value of a statement that ends a body. -/
def Stmt.result? : Stmt → Option Expr
  | .expr e => some e
  | .ret value => value
  | _ => none

/-- The result of a lambda, if the expression is one and its final statement has a value. -/
def Expr.lambdaResult? : Expr → Option Expr
  | .lambda _ _ body => body.getLast?.bind Stmt.result?
  | _ => none

/-- What a memoising call keeps: the result of the last of its lambdas that has one. -/
def keptValue? (args : List (Argument Expr)) : Option Expr :=
  args.reverse.findSome? fun a => a.value.lambdaResult?

private theorem keptValue?_cons (a : Argument Expr) (rest : List (Argument Expr)) :
    keptValue? (a :: rest) = (keptValue? rest).or a.value.lambdaResult? := by
  simp [keptValue?, List.findSome?_append]

/-- The statement that ends a body with the value `e`. -/
def Stmt.yielding (returned : Bool) (e : Expr) : Stmt := if returned then .ret (some e) else .expr e

private theorem Stmt.result?_eq_some_iff {s : Stmt} {e : Expr} :
    s.result? = some e ↔ ∃ returned, s = .yielding returned e := by
  constructor
  · intro h
    cases s with
    | expr value =>
      obtain rfl := Option.some.inj h
      exact ⟨false, rfl⟩
    | ret value =>
      obtain rfl : value = some e := h
      exact ⟨true, rfl⟩
    | _ => cases h
  · rintro ⟨returned, rfl⟩
    cases returned <;> rfl

private theorem Expr.lambdaResult?_eq_some_iff {f e : Expr} :
    f.lambdaResult? = some e ↔
      ∃ uiBuilding params earlier returned,
        f = .lambda uiBuilding params (earlier ++ [.yielding returned e]) := by
  constructor
  · intro h
    cases f with
    | lambda uiBuilding params body =>
      obtain ⟨s, hlast, hs⟩ := Option.bind_eq_some_iff.1 h
      obtain ⟨returned, rfl⟩ := Stmt.result?_eq_some_iff.1 hs
      obtain ⟨earlier, rfl⟩ := List.getLast?_eq_some_iff.1 hlast
      exact ⟨uiBuilding, params, earlier, returned, rfl⟩
    | _ => cases h
  · rintro ⟨uiBuilding, params, earlier, returned, rfl⟩
    rw [lambdaResult?, List.getLast?_concat, Option.bind_some]
    exact Stmt.result?_eq_some_iff.2 ⟨returned, rfl⟩

/-- A call with a place for an expression: the end of a lambda among its arguments, behind which no other
lambda has a result. -/
structure Wrapper where
  callee : String
  target : Target := .unknown
  receiver : Option Expr := none
  location : Location := {}
  before : List (Argument Expr) := []
  name : Option String := none
  trailing : Bool := false
  uiBuilding : Bool := false
  params : List String := []
  earlier : List Stmt := []
  returned : Bool := false
  after : List (Argument Expr) := []
  after_idle : ∀ a ∈ after, a.value.lambdaResult? = none

namespace Wrapper

def argument (w : Wrapper) (e : Expr) : Argument Expr :=
  ⟨w.name, w.trailing, .lambda w.uiBuilding w.params (w.earlier ++ [.yielding w.returned e])⟩

def around (w : Wrapper) (e : Expr) : Expr :=
  .call w.callee w.target w.receiver (w.before ++ w.argument e :: w.after) w.location

/-- Wrappers inside one another, the outermost first. -/
def nest (ws : List Wrapper) (e : Expr) : Expr := ws.foldr around e

private theorem lambdaResult?_argument (w : Wrapper) (e : Expr) :
    (w.argument e).value.lambdaResult? = some e :=
  Expr.lambdaResult?_eq_some_iff.2 ⟨_, _, _, _, rfl⟩

private theorem keptValue?_around (w : Wrapper) (e : Expr) :
    keptValue? (w.before ++ w.argument e :: w.after) = some e := by
  have hafter : w.after.reverse.findSome? (fun a => a.value.lambdaResult?) = none := by
    apply List.findSome?_eq_none_iff.2
    intro a ha
    exact w.after_idle a (List.mem_reverse.1 ha)
  simp only [keptValue?, List.reverse_append, List.reverse_cons, List.append_assoc,
    List.findSome?_append, hafter, Option.none_or, List.findSome?_singleton,
    lambdaResult?_argument, Option.some_or]

private theorem sizeOf_lt_around (w : Wrapper) (e : Expr) : sizeOf e < sizeOf (w.around e) := by
  have hfinal : sizeOf e < sizeOf (Stmt.yielding w.returned e) := by
    cases w.returned with
    | false => simp [Stmt.yielding]
    | true =>
      simp only [Stmt.yielding, if_true, Stmt.ret.sizeOf_spec, Option.some.sizeOf_spec]
      omega
  have hbody : sizeOf (Stmt.yielding w.returned e) <
      sizeOf (w.earlier ++ [Stmt.yielding w.returned e]) :=
    List.sizeOf_lt_of_mem (by simp)
  have hargs : sizeOf (w.argument e) < sizeOf (w.before ++ w.argument e :: w.after) :=
    List.sizeOf_lt_of_mem (by simp)
  have hargument : sizeOf (w.earlier ++ [Stmt.yielding w.returned e]) < sizeOf (w.argument e) := by
    simp only [argument, Argument.mk.sizeOf_spec, Expr.lambda.sizeOf_spec]
    omega
  rw [around, Expr.call.sizeOf_spec]
  omega

/-- A call that keeps a value is a wrapper around it. -/
theorem exists_around {args : List (Argument Expr)} {e : Expr} (h : keptValue? args = some e)
    (callee : String) (target : Target) (receiver : Option Expr) (location : Location) :
    ∃ w : Wrapper, w.callee = callee ∧ w.receiver = receiver ∧
      .call callee target receiver args location = w.around e := by
  obtain ⟨after, ⟨name, trailing, f⟩, before, hsplit, hf, hafter⟩ := List.findSome?_eq_some_iff.1 h
  obtain ⟨uiBuilding, params, earlier, returned, rfl⟩ := Expr.lambdaResult?_eq_some_iff.1 hf
  have hidle : ∀ a ∈ after.reverse, a.value.lambdaResult? = none := by
    intro a ha
    exact hafter a (List.mem_reverse.1 ha)
  refine ⟨{ callee, target, receiver, location, before := before.reverse, name, trailing, uiBuilding
            params, earlier, returned, after := after.reverse, after_idle := hidle }, rfl, rfl, ?_⟩
  rw [List.reverse_eq_iff.1 hsplit]
  simp [around, argument]

end Wrapper

namespace Vocabulary

variable {v : Vocabulary} {callee : String} {target : Target} {receiver : Option Expr}
  {args : List (Argument Expr)} {location : Location} {k : CreationKind}

/-- The call is one on a receiver that collects. -/
def Collects (v : Vocabulary) (callee : String) (receiver : Option Expr) : Prop :=
  receiver.isSome = true ∧ callee ∈ v.collectionOperations

instance : Decidable (v.Collects callee receiver) := inferInstanceAs (Decidable (_ ∧ _))

/-- The wrapper's callee memoises, and nothing else that the vocabulary says of it counts first. -/
structure Memoises (v : Vocabulary) (w : Wrapper) : Prop where
  memoises : w.callee ∈ v.memoWrappers
  not_creation : w.callee ∉ v.creationFunctions
  not_collection : ¬ v.Collects w.callee w.receiver

/-- A call that creates by itself. -/
inductive Creates (v : Vocabulary) : Expr → CreationKind → Prop where
  | collected {callee : String} {target : Target} {receiver : Option Expr}
      {args : List (Argument Expr)} {location : Location} (h : v.Collects callee receiver) :
      Creates v (.call callee target receiver args location) .collectedFromStream
  | direct {callee : String} {target : Target} {receiver : Option Expr}
      {args : List (Argument Expr)} {location : Location} (hcollects : ¬ v.Collects callee receiver)
      (h : callee ∈ v.creationFunctions) :
      Creates v (.call callee target receiver args location) .directCreation

/-- Inside memoising calls, one around the other, stands a call that creates. -/
def CreatesAtCore (v : Vocabulary) (e : Expr) (k : CreationKind) : Prop :=
  ∃ ws core, (∀ w ∈ ws, v.Memoises w) ∧ e = Wrapper.nest ws core ∧ v.Creates core k

private theorem creationOfBody_concat (v : Vocabulary) (earlier : List Stmt) (s : Stmt) :
    v.creationOfBody (earlier ++ [s]) = v.creationOfResult s := by
  induction earlier with
  | nil => rfl
  | cons first rest ih =>
    cases rest with
    | nil => rfl
    | cons second rest => exact ih

private theorem creationOfResult_eq (v : Vocabulary) (s : Stmt) :
    v.creationOfResult s = s.result?.map v.creationKind := by
  cases s with
  | ret value => cases value <;> rfl
  | _ => rfl

private theorem creationOfLambda_eq (v : Vocabulary) (e : Expr) :
    v.creationOfLambda e = e.lambdaResult?.map v.creationKind := by
  cases e with
  | lambda uiBuilding params body =>
    rw [creationOfLambda, Expr.lambdaResult?]
    rcases List.eq_nil_or_concat body with rfl | ⟨earlier, s, rfl⟩
    · rfl
    · rw [List.concat_eq_append, creationOfBody_concat, List.getLast?_concat, Option.bind_some,
        creationOfResult_eq]
  | _ => rfl

/-- The recursion through the arguments finds the value that is kept, and judges that. -/
theorem creationOfArgs_eq (v : Vocabulary) (args : List (Argument Expr)) :
    v.creationOfArgs args = (keptValue? args).map v.creationKind := by
  induction args with
  | nil => rfl
  | cons a rest ih =>
    rw [keptValue?_cons, Option.map_or, ← ih, ← creationOfLambda_eq, creationOfArgs]
    cases v.creationOfArgs rest with
    | none => rfl
    | some found => rfl

private theorem collects_iff : (receiver.isSome && v.collectionOperations.contains callee) = true ↔
    v.Collects callee receiver := by
  rw [Bool.and_eq_true, List.contains_iff_mem, Collects]

private theorem creationKind_of_collects (h : v.Collects callee receiver) :
    v.creationKind (.call callee target receiver args location) = some .collectedFromStream := by
  rw [creationKind, if_pos (collects_iff.2 h)]

theorem creationKind_of_not_collects (h : ¬ v.Collects callee receiver) :
    v.creationKind (.call callee target receiver args location) =
      if callee ∈ v.creationFunctions then some .directCreation
      else if callee ∈ v.memoWrappers then (keptValue? args).bind v.creationKind
      else none := by
  rw [creationKind, if_neg (mt collects_iff.1 h), creationOfArgs_eq]
  simp only [List.contains_iff_mem]
  cases keptValue? args with
  | none => rfl
  | some e => rfl

private theorem Creates.creationKind_eq {e : Expr} (h : v.Creates e k) : v.creationKind e = some k := by
  cases h with
  | collected h => exact creationKind_of_collects h
  | direct hcollects h => rw [creationKind_of_not_collects hcollects, if_pos h]

private theorem Memoises.creationKind_around {w : Wrapper} (h : v.Memoises w) (e : Expr) :
    v.creationKind (w.around e) = v.creationKind e := by
  rw [Wrapper.around, creationKind_of_not_collects h.not_collection, if_neg h.not_creation,
    if_pos h.memoises, Wrapper.keptValue?_around, Option.bind_some]

private theorem creationKind_nest {ws : List Wrapper} (h : ∀ w ∈ ws, v.Memoises w) (e : Expr) :
    v.creationKind (Wrapper.nest ws e) = v.creationKind e := by
  induction ws with
  | nil => rfl
  | cons w ws ih =>
    rw [Wrapper.nest, List.foldr_cons, (h w List.mem_cons_self).creationKind_around]
    exact ih fun w' hw' => h w' (List.mem_cons_of_mem w hw')

/-- What is found to create is a creation itself, or a memoising call around what creates the same. -/
theorem creates_or_around {e : Expr} (h : v.creationKind e = some k) :
    v.Creates e k ∨
      ∃ w inner, v.Memoises w ∧ e = w.around inner ∧ v.creationKind inner = some k := by
  cases e with
  | call callee target receiver args location =>
    by_cases hcollects : v.Collects callee receiver
    · rw [creationKind_of_collects hcollects] at h
      obtain rfl := Option.some.inj h
      exact .inl (.collected hcollects)
    rw [creationKind_of_not_collects hcollects] at h
    by_cases hcreation : callee ∈ v.creationFunctions
    · rw [if_pos hcreation] at h
      obtain rfl := Option.some.inj h
      exact .inl (.direct hcollects hcreation)
    rw [if_neg hcreation] at h
    by_cases hmemo : callee ∈ v.memoWrappers
    · rw [if_pos hmemo] at h
      obtain ⟨inner, hkept, hinner⟩ := Option.bind_eq_some_iff.1 h
      obtain ⟨w, rfl, rfl, hw⟩ := Wrapper.exists_around hkept callee target receiver location
      exact .inr ⟨w, inner, ⟨hmemo, hcreation, hcollects⟩, hw, hinner⟩
    · rw [if_neg hmemo] at h
      cases h
  | _ => cases h

private theorem createsAtCore_of_creationKind {e : Expr} (h : v.creationKind e = some k) :
    v.CreatesAtCore e k := by
  -- by the size of the expression: a wrapper is larger than what it stands around
  induction hsize : sizeOf e using Nat.strongRecOn generalizing e with
  | ind size ih =>
    rcases creates_or_around h with hcreates | ⟨w, inner, hw, rfl, hinner⟩
    · exact ⟨[], e, by simp, rfl, hcreates⟩
    · have hlt := w.sizeOf_lt_around inner
      rw [hsize] at hlt
      obtain ⟨ws, core, hws, rfl, hcore⟩ := ih _ hlt hinner rfl
      exact ⟨w :: ws, core, List.forall_mem_cons.2 ⟨hw, hws⟩, rfl, hcore⟩

/-- Nothing else is found to create: a creation that stands elsewhere in a call does not count. -/
theorem creationKind_eq_some_iff {e : Expr} : v.creationKind e = some k ↔ v.CreatesAtCore e k := by
  constructor
  · exact createsAtCore_of_creationKind
  · rintro ⟨ws, core, hws, rfl, hcore⟩
    rw [creationKind_nest hws]
    exact hcore.creationKind_eq

/-- Memoising calls around an expression, however many, create what it creates, and that is what stands at its
core. -/
theorem creationKind_nested_memo (v : Vocabulary) (ws : List Wrapper) (h : ∀ w ∈ ws, v.Memoises w)
    (e : Expr) :
    v.creationKind (Wrapper.nest ws e) = v.creationKind e ∧
      ∀ k, v.creationKind (Wrapper.nest ws e) = some k ↔ v.CreatesAtCore e k := by
  have htransparent := creationKind_nest h e
  refine ⟨htransparent, ?_⟩
  intro k
  rw [htransparent]
  exact creationKind_eq_some_iff

end Vocabulary

namespace Sample

def createState : Expr := .libraryCall "mutableStateOf" []

def collectFlow : Expr := .methodCall (.name "flow") "collectAsState" []

/-- Memoises behind a creation, a lambda that creates and a statement that collects, and before a creation. -/
def busyRemember : Wrapper where
  callee := "remember"
  before := [.positional createState, .named "init" (.block false [.expr createState])]
  earlier := [.expr collectFlow]
  returned := true
  after := [.positional createState]
  after_idle := by
    intro a ha
    rw [List.mem_singleton.1 ha]
    rfl

/-- Memoises before a lambda that creates and has no result. -/
def busySaveable : Wrapper where
  callee := "rememberSaveable"
  receiver := some collectFlow
  earlier := [.bind "count" createState]
  after := [.trailingLambda (.block false [.expr createState, .ret none])]
  after_idle := by
    intro a ha
    rw [List.mem_singleton.1 ha]
    rfl

end Sample

/-- Creations all around do not show where the innermost value is none, nor hide one that is. -/
theorem Vocabulary.creationKind_nested_memo_busy :
    let v : Vocabulary := {}
    let nested (e : Expr) : Expr := Wrapper.nest [Sample.busyRemember, Sample.busySaveable] e
    (∀ w ∈ [Sample.busyRemember, Sample.busySaveable], v.Memoises w) ∧
      v.creationKind (nested (.literal "0")) = none ∧
      v.creationKind (nested Sample.createState) = some .directCreation ∧
      v.creationKind (nested Sample.collectFlow) = some .collectedFromStream := by
  intro v nested
  have hremember : v.Memoises Sample.busyRemember := by constructor <;> decide
  have hsaveable : v.Memoises Sample.busySaveable := by constructor <;> decide
  have hall : ∀ w ∈ [Sample.busyRemember, Sample.busySaveable], v.Memoises w := by
    simp [hremember, hsaveable]
  refine ⟨hall, ?_, ?_, ?_⟩
  · exact (v.creationKind_nested_memo _ hall _).1
  · exact (v.creationKind_nested_memo _ hall _).1
  · exact (v.creationKind_nested_memo _ hall _).1

end PassThrough

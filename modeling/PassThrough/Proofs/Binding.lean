import Mathlib.Data.List.Nodup
import Mathlib.Data.List.Perm.Basic
import PassThrough.Graph.Basic
import PassThrough.Source.Builder

/-! Binding the arguments of a call. The loop takes the arguments one at a time and stops at the first that fits nowhere or
comes second to a parameter; what it accepts and what it returns can be told from the arguments as a whole, and does not
depend on where named arguments and trailing lambdas stand among the plain ones. -/

namespace PassThrough
variable {params : List String} {args : List (Argument Expr)} {bindings : List Binding}

/-- The argument with number `i` is meant for a parameter: a trailing lambda for the last one, a named argument for the one
that it names, and any other for the one that has its number among the plain arguments. -/
inductive MeantFor (params : List String) (args : List (Argument Expr)) (i : Nat) : String → Prop where
  | trailing {a : Argument Expr} {p : String} (ha : args[i]? = some a) (ht : a.trailing = true)
      (hp : params.getLast? = some p) : MeantFor params args i p
  | named {a : Argument Expr} {p : String} (ha : args[i]? = some a) (ht : a.trailing = false) (hname : a.name = some p)
      (hp : p ∈ params) : MeantFor params args i p
  | plain {a : Argument Expr} {p : String} (ha : args[i]? = some a) (ht : a.trailing = false) (hname : a.name = none)
      (hp : params[(args.take i).countP Argument.isPlain]? = some p) : MeantFor params args i p

/-- Every argument is meant for some parameter, and no two for the same one. -/
structure Bindable (params : List String) (args : List (Argument Expr)) : Prop where
  plain_le : args.countP Argument.isPlain ≤ params.length
  named_mem : ∀ a ∈ args, a.trailing = false → ∀ name, a.name = some name → name ∈ params
  trailing_last : ∀ a ∈ args, a.trailing = true → params ≠ []
  once : ∀ i j p, MeantFor params args i p → MeantFor params args j p → i = j

/-- One binding for each argument, in their order, to the parameter that it is meant for; no parameter is bound twice. -/
structure BoundAs (params : List String) (args : List (Argument Expr)) (bindings : List Binding) : Prop where
  values : bindings.map Binding.value = args.map Argument.value
  meant : ∀ i b, bindings[i]? = some b → MeantFor params args i b.param
  distinct : (bindings.map Binding.param).Nodup

/-- The arguments, each with the parameter at which it aims, after `next` plain ones. -/
def aimsFrom (params : List String) (next : Nat) : List (Argument Expr) → List (Argument Expr × Option String)
  | [] => []
  | a :: rest => (a, a.aim? params next) :: aimsFrom params (if a.isPlain then next + 1 else next) rest

namespace Argument

/-- Only a plain argument asks how many plain ones came before it. -/
theorem aim?_of_not_isPlain {a : Argument Expr} (h : a.isPlain = false) (next other : Nat) :
    a.aim? params next = a.aim? params other := by
  obtain ⟨name, trailing, value⟩ := a
  cases trailing with
  | true => rfl
  | false =>
    cases name with
    | none => cases h
    | some name => rfl

/-- What an argument needs to have an aim. -/
theorem isSome_aim?_iff (a : Argument Expr) (params : List String) (next : Nat) :
    (a.aim? params next).isSome = true ↔ (a.isPlain = true → next < params.length) ∧
      (a.trailing = false → ∀ name, a.name = some name → name ∈ params) ∧ (a.trailing = true → params ≠ []) := by
  obtain ⟨name, trailing, value⟩ := a
  cases trailing with
  | true => simp [aim?, isPlain]
  | false => cases name <;> simp [aim?, isPlain]

end Argument

/-- The loop goes on behind an argument if its aim is there and not taken. -/
theorem bindArgsFrom_cons_eq_ok_iff (next : Nat) (bound : List String) (a : Argument Expr) (rest : List (Argument Expr)) :
    bindArgsFrom params next bound (a :: rest) = .ok bindings ↔
      ∃ p tail, a.aim? params next = some p ∧ p ∉ bound ∧ bindings = ⟨p, a.value⟩ :: tail ∧
        bindArgsFrom params (if a.isPlain then next + 1 else next) (p :: bound) rest = .ok tail := by
  rw [bindArgsFrom]
  cases haim : a.aim? params next with
  | none => simp
  | some p =>
    by_cases htaken : p ∈ bound
    · simp [htaken]
    · cases hrest : bindArgsFrom params (if a.isPlain then next + 1 else next) (p :: bound) rest with
      | error problem => simp [htaken, hrest]
      | ok tail =>
        have hmatch : (Except.ok (⟨p, a.value⟩ :: tail) : Except BindProblem (List Binding)) = .ok bindings ↔
            bindings = ⟨p, a.value⟩ :: tail := by
          rw [Except.ok.injEq, eq_comm]
        simp [htaken, hrest, hmatch]

/-- What the loop returns: the arguments with their aims, if these are all there and distinct and none is taken. -/
theorem bindArgsFrom_eq_ok_iff (next : Nat) (bound : List String) (args : List (Argument Expr)) :
    bindArgsFrom params next bound args = .ok bindings ↔
      bindings.map (fun b => (b.value, some b.param)) = (aimsFrom params next args).map (fun x => (x.1.value, x.2)) ∧
        (bindings.map Binding.param).Nodup ∧ ∀ b ∈ bindings, b.param ∉ bound := by
  induction args generalizing next bound bindings with
  | nil =>
    rw [bindArgsFrom, aimsFrom, List.map_nil, List.map_eq_nil_iff, Except.ok.injEq]
    constructor
    · rintro rfl
      simp
    · rintro ⟨rfl, -⟩
      rfl
  | cons a rest ih =>
    rw [bindArgsFrom_cons_eq_ok_iff, aimsFrom, List.map_cons]
    constructor
    · rintro ⟨p, tail, haim, hfree, rfl, hrest⟩
      obtain ⟨hmap, hnodup, hfresh⟩ := (ih _ _).1 hrest
      refine ⟨by rw [List.map_cons, hmap, haim], ?_, ?_⟩
      · rw [List.map_cons, List.nodup_cons]
        refine ⟨fun hmem => ?_, hnodup⟩
        obtain ⟨b, hb, heq⟩ := List.mem_map.1 hmem
        exact hfresh b hb (heq ▸ List.mem_cons_self)
      · exact List.forall_mem_cons.2 ⟨hfree, fun b hb hmem => hfresh b hb (List.mem_cons_of_mem p hmem)⟩
    · rintro ⟨hmap, hnodup, hfresh⟩
      cases bindings with
      | nil => cases hmap
      | cons b tail =>
        obtain ⟨hhead, htail⟩ := List.cons.inj hmap
        obtain ⟨hvalue, haim⟩ := Prod.mk.inj hhead
        rw [List.map_cons, List.nodup_cons] at hnodup
        obtain ⟨hfree, hrest⟩ := List.forall_mem_cons.1 hfresh
        refine ⟨b.param, tail, haim.symm, hfree, by rw [← hvalue], (ih _ _).2 ⟨htail, hnodup.2, fun c hc => ?_⟩⟩
        rw [List.mem_cons, not_or]
        exact ⟨fun heq => hnodup.1 (List.mem_map.2 ⟨c, hc, heq⟩), hrest c hc⟩

private theorem map_value_aimsFrom (params : List String) (next : Nat) (args : List (Argument Expr)) :
    (aimsFrom params next args).map (fun x => x.1.value) = args.map Argument.value := by
  induction args generalizing next with
  | nil => rfl
  | cons a rest ih => rw [aimsFrom, List.map_cons, ih, List.map_cons]

/-- Every argument that is bound keeps its place and its value. -/
theorem bindArgsFrom_values (params : List String) (next : Nat) (bound : List String) (args : List (Argument Expr))
    {bindings : List Binding} (h : bindArgsFrom params next bound args = .ok bindings) :
    bindings.map Binding.value = args.map Argument.value := by
  have hfst := congrArg (List.map Prod.fst) ((bindArgsFrom_eq_ok_iff next bound args).1 h).1
  rw [List.map_map, List.map_map] at hfst
  exact hfst.trans (map_value_aimsFrom params next args)

/-- No parameter is bound twice. -/
theorem bindArgsFrom_nodup (params : List String) (next : Nat) (bound : List String) (args : List (Argument Expr))
    {bindings : List Binding} (h : bindArgsFrom params next bound args = .ok bindings) :
    (bindings.map Binding.param).Nodup ∧ ∀ b ∈ bindings, b.param ∉ bound :=
  ((bindArgsFrom_eq_ok_iff next bound args).1 h).2

/-- The loop succeeds if every aim is there and no two are the same. -/
theorem exists_bindArgs_iff (params : List String) (args : List (Argument Expr)) :
    (∃ bindings, bindArgs params args = .ok bindings) ↔
      (∀ x ∈ aimsFrom params 0 args, x.2.isSome = true) ∧ ((aimsFrom params 0 args).map Prod.snd).Nodup := by
  constructor
  · rintro ⟨bindings, hb⟩
    obtain ⟨hmap, hnodup, -⟩ := (bindArgsFrom_eq_ok_iff 0 [] args).1 hb
    have haims : (aimsFrom params 0 args).map Prod.snd = (bindings.map Binding.param).map some := by
      have hsnd := congrArg (List.map Prod.snd) hmap
      simpa [Function.comp_def] using hsnd.symm
    refine ⟨fun x hx => ?_, haims ▸ hnodup.map fun _ _ => Option.some.inj⟩
    have hmem : x.2 ∈ (bindings.map Binding.param).map some := haims ▸ List.mem_map_of_mem hx
    obtain ⟨p, -, hp⟩ := List.mem_map.1 hmem
    rw [← hp, Option.isSome_some]
  · rintro ⟨hall, hnodup⟩
    refine ⟨(aimsFrom params 0 args).map fun x => ⟨x.2.getD "", x.1.value⟩, (bindArgsFrom_eq_ok_iff 0 [] args).2 ⟨?_, ?_, ?_⟩⟩
    · rw [List.map_map]
      refine List.map_congr_left fun x hx => ?_
      obtain ⟨p, hp⟩ := Option.isSome_iff_exists.1 (hall x hx)
      simp [hp]
    · have hsome : (aimsFrom params 0 args).map Prod.snd =
          (((aimsFrom params 0 args).map fun x => (⟨x.2.getD "", x.1.value⟩ : Binding)).map Binding.param).map some := by
        rw [List.map_map, List.map_map]
        refine List.map_congr_left fun x hx => ?_
        obtain ⟨p, hp⟩ := Option.isSome_iff_exists.1 (hall x hx)
        simp [hp]
      exact List.Nodup.of_map some (hsome ▸ hnodup)
    · simp

private theorem getElem?_aimsFrom (params : List String) (next : Nat) (args : List (Argument Expr)) (i : Nat) :
    (aimsFrom params next args)[i]? =
      args[i]?.map fun a => (a, a.aim? params (next + (args.take i).countP Argument.isPlain)) := by
  induction args generalizing next i with
  | nil => rfl
  | cons a rest ih =>
    cases i with
    | zero => rfl
    | succ i =>
      rw [aimsFrom, List.getElem?_cons_succ, ih, List.getElem?_cons_succ, List.take_succ_cons, List.countP_cons]
      congr 1
      funext b
      cases a.isPlain with
      | true => rw [if_pos rfl, if_pos rfl, Nat.add_right_comm, Nat.add_assoc]
      | false => rw [if_neg Bool.false_ne_true, if_neg Bool.false_ne_true, Nat.add_zero]

/-- An argument aims at what it is meant for. -/
theorem meantFor_iff {i : Nat} {p : String} :
    MeantFor params args i p ↔ ∃ a, (aimsFrom params 0 args)[i]? = some (a, some p) := by
  simp only [getElem?_aimsFrom, Option.map_eq_some_iff, Nat.zero_add]
  constructor
  · intro h
    cases h with
    | @trailing a _ ha ht hp => exact ⟨a, a, ha, by simp [Argument.aim?, ht, hp]⟩
    | @named a _ ha ht hname hp => exact ⟨a, a, ha, by simp [Argument.aim?, ht, hname, hp]⟩
    | @plain a _ ha ht hname hp => exact ⟨a, a, ha, by simp [Argument.aim?, ht, hname, hp]⟩
  · rintro ⟨b, a, ha, haim⟩
    obtain ⟨-, haim⟩ := Prod.mk.inj haim
    rw [Argument.aim?] at haim
    cases ht : a.trailing with
    | true => exact .trailing ha ht (by simpa [ht] using haim)
    | false =>
      cases hname : a.name with
      | none => exact .plain ha ht hname (by simpa [ht, hname] using haim)
      | some name =>
        obtain ⟨hmem, rfl⟩ : name ∈ params ∧ name = p := by simpa [ht, hname] using haim
        exact .named ha ht hname hmem

/-- Every argument has an aim if there are parameters enough, the names are those of parameters, and a trailing lambda finds
a last parameter. -/
theorem forall_isSome_aimsFrom_iff {next : Nat} (hnext : next ≤ params.length) (args : List (Argument Expr)) :
    (∀ x ∈ aimsFrom params next args, x.2.isSome = true) ↔
      next + args.countP Argument.isPlain ≤ params.length ∧
        (∀ a ∈ args, a.trailing = false → ∀ name, a.name = some name → name ∈ params) ∧
        ∀ a ∈ args, a.trailing = true → params ≠ [] := by
  induction args generalizing next with
  | nil => simp [aimsFrom, hnext]
  | cons a rest ih =>
    rw [aimsFrom, List.forall_mem_cons, List.forall_mem_cons, List.forall_mem_cons, List.countP_cons, a.isSome_aim?_iff]
    cases hplain : a.isPlain with
    | true =>
      simp only [if_true, true_imp_iff]
      constructor
      · rintro ⟨⟨hlt, hnamed, hlast⟩, hrest⟩
        obtain ⟨hle, hnameds, hlasts⟩ := (ih hlt).1 hrest
        exact ⟨by omega, ⟨hnamed, hnameds⟩, hlast, hlasts⟩
      · rintro ⟨hle, ⟨hnamed, hnameds⟩, hlast, hlasts⟩
        have hlt : next < params.length := by omega
        exact ⟨⟨hlt, hnamed, hlast⟩, (ih hlt).2 ⟨by omega, hnameds, hlasts⟩⟩
    | false =>
      simp only [Bool.false_eq_true, if_false, false_imp_iff, true_and, Nat.add_zero]
      rw [ih hnext]
      constructor
      · rintro ⟨⟨hnamed, hlast⟩, hle, hnameds, hlasts⟩
        exact ⟨hle, ⟨hnamed, hnameds⟩, hlast, hlasts⟩
      · rintro ⟨hle, ⟨hnamed, hnameds⟩, hlast, hlasts⟩
        exact ⟨⟨hnamed, hlast⟩, hle, hnameds, hlasts⟩

/-- Where every argument has an aim, the aims are distinct if no two arguments are meant for the same parameter. -/
theorem nodup_aims_iff (hall : ∀ x ∈ aimsFrom params 0 args, x.2.isSome = true) :
    ((aimsFrom params 0 args).map Prod.snd).Nodup ↔
      ∀ i j p, MeantFor params args i p → MeantFor params args j p → i = j := by
  have hmeant : ∀ i p, MeantFor params args i p ↔ ((aimsFrom params 0 args).map Prod.snd)[i]? = some (some p) := by
    intro i p
    rw [meantFor_iff, List.getElem?_map, Option.map_eq_some_iff]
    constructor
    · rintro ⟨a, ha⟩
      exact ⟨_, ha, rfl⟩
    · rintro ⟨⟨a, aim⟩, ha, rfl⟩
      exact ⟨a, ha⟩
  constructor
  · intro hnodup i j p hi hj
    rw [hmeant] at hi hj
    exact (List.getElem?_inj (List.getElem?_eq_some_iff.1 hi).1 hnodup).1 (hi.trans hj.symm)
  · intro honce
    rw [List.nodup_iff_getElem?_ne_getElem?]
    intro i j hij hj heq
    obtain ⟨x, hx, haim⟩ := List.mem_map.1 (List.getElem_mem hj)
    obtain ⟨p, hp⟩ := Option.isSome_iff_exists.1 (hall x hx)
    have hmj : ((aimsFrom params 0 args).map Prod.snd)[j]? = some (some p) := by
      rw [List.getElem?_eq_getElem hj, ← haim, hp]
    have := honce i j p ((hmeant i p).2 (heq.trans hmj)) ((hmeant j p).2 hmj)
    omega

/-- The loop succeeds exactly on arguments that can all be bound. -/
theorem exists_bindArgs_iff_bindable (params : List String) (args : List (Argument Expr)) :
    (∃ bindings, bindArgs params args = .ok bindings) ↔ Bindable params args := by
  rw [exists_bindArgs_iff]
  constructor
  · rintro ⟨hall, hnodup⟩
    obtain ⟨hle, hnamed, hlast⟩ := (forall_isSome_aimsFrom_iff (Nat.zero_le _) args).1 hall
    exact ⟨by omega, hnamed, hlast, (nodup_aims_iff hall).1 hnodup⟩
  · rintro ⟨hle, hnamed, hlast, honce⟩
    have hall := (forall_isSome_aimsFrom_iff (Nat.zero_le _) args).2 ⟨by omega, hnamed, hlast⟩
    exact ⟨hall, (nodup_aims_iff hall).2 honce⟩

/-- What the loop returns binds each argument to the parameter that it is meant for, and nothing else does. -/
theorem bindArgs_eq_ok_iff_boundAs (params : List String) (args : List (Argument Expr)) (bindings : List Binding) :
    bindArgs params args = .ok bindings ↔ BoundAs params args bindings := by
  rw [bindArgs]
  constructor
  · intro hb
    obtain ⟨hmap, hnodup, -⟩ := (bindArgsFrom_eq_ok_iff 0 [] args).1 hb
    refine ⟨bindArgsFrom_values _ _ _ _ hb, fun i b hb => ?_, hnodup⟩
    have hi := congrArg (fun xs => xs[i]?) hmap
    simp only [List.getElem?_map, hb, Option.map_some] at hi
    obtain ⟨⟨a, aim⟩, hx, heq⟩ := Option.map_eq_some_iff.1 hi.symm
    obtain ⟨-, rfl⟩ := Prod.mk.inj heq
    exact meantFor_iff.2 ⟨a, hx⟩
  · rintro ⟨hvals, hmeant, hnodup⟩
    refine (bindArgsFrom_eq_ok_iff 0 [] args).2 ⟨List.ext_getElem? fun i => ?_, hnodup, by simp⟩
    have hi := congrArg (fun xs => xs[i]?) (hvals.trans (map_value_aimsFrom params 0 args).symm)
    simp only [List.getElem?_map] at hi ⊢
    cases hb : bindings[i]? with
    | none =>
      rw [hb, Option.map_none, eq_comm, Option.map_eq_none_iff] at hi
      rw [hi, Option.map_none, Option.map_none]
    | some b =>
      obtain ⟨a, ha⟩ := meantFor_iff.1 (hmeant i b hb)
      rw [hb, ha, Option.map_some, Option.map_some, Option.some.injEq] at hi
      rw [ha, Option.map_some, Option.map_some, hi]

/-- The arguments with their aims, up to order: those of the plain ones alone, and those of the others, which do not depend on
where they stand. -/
theorem aimsFrom_perm (params : List String) (next : Nat) (args : List (Argument Expr)) :
    (aimsFrom params next args).Perm (aimsFrom params next (args.filter Argument.isPlain) ++
      (args.filter (!·.isPlain)).map fun a => (a, a.aim? params 0)) := by
  induction args generalizing next with
  | nil => rfl
  | cons a rest ih =>
    cases hplain : a.isPlain with
    | true =>
      rw [List.filter_cons_of_pos hplain, List.filter_cons_of_neg (by simp [hplain]), aimsFrom, aimsFrom, hplain, if_pos rfl,
        List.cons_append]
      exact (ih (next + 1)).cons _
    | false =>
      rw [List.filter_cons_of_neg (by simp [hplain]), List.filter_cons_of_pos (by simp [hplain]), aimsFrom, hplain,
        if_neg Bool.false_ne_true, List.map_cons, a.aim?_of_not_isPlain hplain next 0]
      exact ((ih next).cons _).trans List.perm_middle.symm

/-- Moving named arguments and trailing lambdas about changes no aim. -/
theorem aimsFrom_perm_of_perm (params : List String) {args' : List (Argument Expr)} (hperm : args'.Perm args)
    (hplain : args'.filter Argument.isPlain = args.filter Argument.isPlain) :
    (aimsFrom params 0 args').Perm (aimsFrom params 0 args) := by
  refine (aimsFrom_perm params 0 args').trans (.trans ?_ (aimsFrom_perm params 0 args).symm)
  rw [hplain]
  exact ((hperm.filter _).map _).append_left _

/-- Binding the arguments of a call, for any function and any arguments. It succeeds exactly on arguments of which the plain
ones are not too many, the names are names of parameters, a trailing lambda finds a last parameter, and no two are meant for
the same parameter. Then it binds each argument, in order, to the parameter that it is meant for. Another order of the
arguments that keeps that of the plain ones is accepted or refused alike, with the same bindings in another order. -/
theorem bindArgs_exact (callee : Node) (args : List (Argument Expr)) :
    ((∃ bindings, bindArgs callee.paramNames args = .ok bindings) ↔ Bindable callee.paramNames args) ∧
      (∀ bindings, bindArgs callee.paramNames args = .ok bindings ↔ BoundAs callee.paramNames args bindings) ∧
      ∀ args' : List (Argument Expr), args'.Perm args →
        args'.filter Argument.isPlain = args.filter Argument.isPlain →
          ((∃ bindings, bindArgs callee.paramNames args' = .ok bindings) ↔
            ∃ bindings, bindArgs callee.paramNames args = .ok bindings) ∧
          ∀ bindings bindings', bindArgs callee.paramNames args = .ok bindings →
            bindArgs callee.paramNames args' = .ok bindings' → bindings'.Perm bindings := by
  refine ⟨exists_bindArgs_iff_bindable _ _, bindArgs_eq_ok_iff_boundAs _ _, fun args' hperm hplain => ?_⟩
  have haims := aimsFrom_perm_of_perm callee.paramNames hperm hplain
  refine ⟨?_, fun bindings bindings' hb hb' => ?_⟩
  · rw [exists_bindArgs_iff, exists_bindArgs_iff, (haims.map Prod.snd).nodup_iff]
    exact and_congr_left fun _ => forall_congr' fun x => by rw [haims.mem_iff]
  · obtain ⟨hmap, -⟩ := (bindArgsFrom_eq_ok_iff 0 [] args).1 hb
    obtain ⟨hmap', -⟩ := (bindArgsFrom_eq_ok_iff 0 [] args').1 hb'
    have hinj : Function.Injective fun b : Binding => (b.value, some b.param) := by
      rintro ⟨p, e⟩ ⟨p', e'⟩ heq
      obtain ⟨hvalue, hparam⟩ := Prod.mk.inj heq
      exact Binding.mk.injEq p e p' e' ▸ ⟨Option.some.inj hparam, hvalue⟩
    apply (List.map_perm_map_iff hinj).1
    rw [hmap, hmap']
    exact haims.map _

/-- A call of `Card(title, count, content)` that names `count` first, and the same call with its content and its name moved. -/
theorem bindArgs_exact_card :
    let parameter (name : String) : Parameter := ⟨name, none, .plain, {}⟩
    let card : Node := ⟨⟨"Card", []⟩, [parameter "title", parameter "count", parameter "content"], { name := "Card" }, {}⟩
    let count := Argument.named "count" (.name "state")
    let title := Argument.positional (.literal "Total")
    let content := Argument.trailingLambda (.block true [])
    [content, title, count].Perm [count, title, content] ∧
      [content, title, count].filter Argument.isPlain = [count, title, content].filter Argument.isPlain ∧
      BoundAs card.paramNames [count, title, content]
        [⟨"count", .name "state"⟩, ⟨"title", .literal "Total"⟩, ⟨"content", .block true []⟩] ∧
      ∃ bindings, bindArgs card.paramNames [content, title, count] = .ok bindings ∧
        bindings.Perm [⟨"count", .name "state"⟩, ⟨"title", .literal "Total"⟩, ⟨"content", .block true []⟩] := by
  intro parameter card count title content
  have hperm : [content, title, count].Perm [count, title, content] := List.reverse_perm [count, title, content]
  have hplain : [content, title, count].filter Argument.isPlain = [count, title, content].filter Argument.isPlain := rfl
  have hbound : bindArgs card.paramNames [count, title, content] =
      .ok [⟨"count", .name "state"⟩, ⟨"title", .literal "Total"⟩, ⟨"content", .block true []⟩] := rfl
  obtain ⟨-, hexact, hreorder⟩ := bindArgs_exact card [count, title, content]
  obtain ⟨hsuccess, hbindings⟩ := hreorder _ hperm hplain
  obtain ⟨bindings, hb⟩ := hsuccess.2 ⟨_, hbound⟩
  exact ⟨hperm, hplain, (hexact _).1 hbound, bindings, hb, hbindings _ _ hbound hb⟩

end PassThrough

import Mathlib.Data.List.Lex
import Mathlib.Data.List.Nodup
import PassThrough.Proofs.Occurrence

/-! Positions tell calls and names apart: no two calls of a body stand at one position, nor do two names, and both are
listed in the order of the text. A name that stands at a position is listed among the names of the body. -/

namespace PassThrough

/-- The first position comes first in the text: it lies around the second, or where the two part it takes the smaller
step. -/
def Position.Before (p q : Position) : Prop := List.Lex (fun i j : Nat => i < j) p.reverse q.reverse

/-- Positions at or below a place, in the order of the text. -/
structure Spread (here : Position) (ps : List Position) : Prop where
  below : ∀ p ∈ ps, here <:+ p
  ordered : ps.Pairwise Position.Before

/-- Positions below the children of a place from number `i` on, in the order of the text. -/
structure SpreadFrom (here : Position) (i : Nat) (ps : List Position) : Prop where
  below : ∀ p ∈ ps, ∃ j, i ≤ j ∧ (j :: here) <:+ p
  ordered : ps.Pairwise Position.Before

theorem Position.Before.ne {p q : Position} (h : Position.Before p q) : p ≠ q := by
  rintro rfl
  exact List.Lex.to_ne (List.Lex.imp (fun _ _ => Nat.ne_of_lt) _ _ h) rfl

/-- What lies in an earlier child comes first. -/
theorem before_of_children {here p q : Position} {i j : Nat} (hij : i < j) (hp : (i :: here) <:+ p)
    (hq : (j :: here) <:+ q) : Position.Before p q := by
  obtain ⟨t, rfl⟩ := hp
  obtain ⟨u, rfl⟩ := hq
  simp only [Position.Before, List.reverse_append, List.reverse_cons, List.append_assoc, List.singleton_append]
  exact List.Lex.append_left _ (.rel hij) _

/-- A place comes before what lies in its children. -/
theorem before_of_child {here p : Position} {i : Nat} (hp : (i :: here) <:+ p) : Position.Before here p := by
  obtain ⟨t, rfl⟩ := hp
  simp only [Position.Before, List.reverse_append, List.reverse_cons, List.append_assoc, List.singleton_append]
  have hlex : List.Lex (fun i j : Nat => i < j) (here.reverse ++ []) (here.reverse ++ i :: t.reverse) :=
    List.Lex.append_left _ .nil _
  rwa [List.append_nil] at hlex

theorem spread_nil (here : Position) : Spread here [] := ⟨by simp, .nil⟩

theorem spread_singleton (here : Position) : Spread here [here] := ⟨by simp, by simp⟩

namespace SpreadFrom
variable {here : Position} {i k : Nat} {ps qs : List Position}

theorem nodup (h : SpreadFrom here i ps) : ps.Nodup := h.ordered.imp Position.Before.ne

theorem nil : SpreadFrom here i [] := ⟨by simp, .nil⟩

theorem append (hp : Spread (i :: here) ps) (hq : SpreadFrom here (i + 1) qs) : SpreadFrom here i (ps ++ qs) := by
  refine ⟨fun p hmem => ?_, ?_⟩
  · rcases List.mem_append.1 hmem with hmem | hmem
    · exact ⟨i, Nat.le_refl i, hp.below p hmem⟩
    · obtain ⟨j, hj, hsuffix⟩ := hq.below p hmem
      exact ⟨j, Nat.le_of_succ_le hj, hsuffix⟩
  · rw [List.pairwise_append]
    refine ⟨hp.ordered, hq.ordered, fun p hmem q hmem' => ?_⟩
    obtain ⟨j, hj, hsuffix⟩ := hq.below q hmem'
    exact before_of_children hj (hp.below p hmem) hsuffix

theorem of_child (hp : Spread (i :: here) ps) : SpreadFrom here i ps := by
  simpa using append hp nil

theorem spread (h : SpreadFrom here i ps) : Spread here ps := by
  refine ⟨fun p hp => ?_, h.ordered⟩
  obtain ⟨j, -, hsuffix⟩ := h.below p hp
  exact (List.suffix_cons j here).trans hsuffix

theorem cons_here (h : SpreadFrom here i ps) : Spread here (here :: ps) := by
  refine ⟨List.forall_mem_cons.2 ⟨List.suffix_refl here, h.spread.below⟩, List.pairwise_cons.2 ⟨fun p hmem => ?_, h.ordered⟩⟩
  obtain ⟨j, -, hsuffix⟩ := h.below p hmem
  exact before_of_child hsuffix

end SpreadFrom

mutual
theorem Expr.calls_spread (callbacks : Bool) (here : Position) :
    ∀ e : Expr, Spread here ((e.calls callbacks here).map CallAt.position)
  | .ident _ _ => spread_nil here
  | .literal _ => spread_nil here
  | .call _ _ none args _ => (callsOfArgs_spread callbacks here 1 args).cons_here
  | .call _ _ (some receiver) args _ => by
    simp only [Expr.calls, List.map_cons, List.map_append]
    exact (SpreadFrom.append (receiver.calls_spread callbacks _) (callsOfArgs_spread callbacks here 1 args)).cons_here
  | .member receiver _ _ => (SpreadFrom.of_child (receiver.calls_spread callbacks (0 :: here))).spread
  | .template parts => (callsOfExprs_spread callbacks here 0 parts).spread
  | .lambda _ _ body => by
    simp only [Expr.calls]
    split
    · exact (callsOfBlock_spread callbacks here 0 body).spread
    · exact spread_nil here
  | .binary _ lhs rhs => by
    simp only [Expr.calls, List.map_append]
    exact (SpreadFrom.append (lhs.calls_spread callbacks _) (.of_child (rhs.calls_spread callbacks _))).spread
  | .branch condition thenBranch elseBranch => by
    simp only [Expr.calls, List.map_append, List.append_assoc]
    exact (SpreadFrom.append (condition.calls_spread callbacks _)
      (.append (callsOfBlock_spread callbacks _ 0 thenBranch).spread
        (.of_child (callsOfBlock_spread callbacks _ 0 elseBranch).spread))).spread
  | .other children => (callsOfExprs_spread callbacks here 0 children).spread
theorem callsOfArgs_spread (callbacks : Bool) (here : Position) (i : Nat) :
    ∀ args : List (Argument Expr), SpreadFrom here i ((callsOfArgs callbacks here i args).map CallAt.position)
  | [] => .nil
  | ⟨_, _, value⟩ :: rest => by
    simp only [callsOfArgs, List.map_append]
    exact .append (value.calls_spread callbacks _) (callsOfArgs_spread callbacks here (i + 1) rest)
theorem callsOfExprs_spread (callbacks : Bool) (here : Position) (i : Nat) :
    ∀ parts : List Expr, SpreadFrom here i ((callsOfExprs callbacks here i parts).map CallAt.position)
  | [] => .nil
  | e :: rest => by
    simp only [callsOfExprs, List.map_append]
    exact .append (e.calls_spread callbacks _) (callsOfExprs_spread callbacks here (i + 1) rest)
theorem Stmt.calls_spread (callbacks : Bool) (here : Position) :
    ∀ s : Stmt, Spread here ((s.calls callbacks here).map CallAt.position)
  | .val _ _ none _ => spread_nil here
  | .val _ _ (some e) _ => e.calls_spread callbacks here
  | .expr e => e.calls_spread callbacks here
  | .nested _ body => (callsOfBlock_spread callbacks here 0 body).spread
  | .ret none => spread_nil here
  | .ret (some e) => e.calls_spread callbacks here
theorem callsOfBlock_spread (callbacks : Bool) (here : Position) (i : Nat) :
    ∀ body : List Stmt, SpreadFrom here i ((callsOfBlock callbacks here i body).map CallAt.position)
  | [] => .nil
  | s :: rest => by
    simp only [callsOfBlock, List.map_append]
    exact .append (s.calls_spread callbacks _) (callsOfBlock_spread callbacks here (i + 1) rest)
end

mutual
theorem Expr.names_spread (here : Position) (around : List Frame) :
    ∀ e : Expr, Spread here ((e.names here around).map Occurrence.position)
  | .ident _ _ => spread_singleton here
  | .literal _ => spread_nil here
  | .call _ _ none args _ => (namesOfArgs_spread here around 0 args).spread
  | .call _ _ (some receiver) args _ => by
    simp only [Expr.names, List.map_append]
    exact (SpreadFrom.append (receiver.names_spread _ _) (namesOfArgs_spread here around 0 args)).spread
  | .member receiver _ _ => (SpreadFrom.of_child (receiver.names_spread (0 :: here) _)).spread
  | .template parts => (namesOfExprs_spread here around 0 parts).spread
  | .lambda _ _ body => (namesOfBlock_spread here _ [] body).spread
  | .binary _ lhs rhs => by
    simp only [Expr.names, List.map_append]
    exact (SpreadFrom.append (lhs.names_spread _ _) (.of_child (rhs.names_spread _ _))).spread
  | .branch condition thenBranch elseBranch => by
    simp only [Expr.names, List.map_append, List.append_assoc]
    exact (SpreadFrom.append (condition.names_spread _ _)
      (.append (namesOfBlock_spread _ around [] thenBranch).spread
        (.of_child (namesOfBlock_spread _ around [] elseBranch).spread))).spread
  | .other children => (namesOfExprs_spread here around 0 children).spread
theorem namesOfArgs_spread (here : Position) (around : List Frame) (i : Nat) :
    ∀ args : List (Argument Expr), SpreadFrom here (i + 1) ((namesOfArgs here around i args).map Occurrence.position)
  | [] => .nil
  | ⟨_, _, value⟩ :: rest => by
    simp only [namesOfArgs, List.map_append]
    exact .append (value.names_spread _ _) (namesOfArgs_spread here around (i + 1) rest)
theorem namesOfExprs_spread (here : Position) (around : List Frame) (i : Nat) :
    ∀ parts : List Expr, SpreadFrom here i ((namesOfExprs here around i parts).map Occurrence.position)
  | [] => .nil
  | e :: rest => by
    simp only [namesOfExprs, List.map_append]
    exact .append (e.names_spread _ _) (namesOfExprs_spread here around (i + 1) rest)
theorem Stmt.names_spread (here : Position) (around : List Frame) :
    ∀ s : Stmt, Spread here ((s.names here around).map Occurrence.position)
  | .val _ _ none _ => spread_nil here
  | .val _ _ (some e) _ => e.names_spread here around
  | .expr e => e.names_spread here around
  | .nested _ body => (namesOfBlock_spread here _ [] body).spread
  | .ret none => spread_nil here
  | .ret (some e) => e.names_spread here around
theorem namesOfBlock_spread (here : Position) (around : List Frame) (earlier : List Stmt) :
    ∀ body : List Stmt, SpreadFrom here earlier.length ((namesOfBlock here around earlier body).map Occurrence.position)
  | [] => .nil
  | s :: rest => by
    have hrest := namesOfBlock_spread here around (earlier ++ [s]) rest
    rw [List.length_append, List.length_singleton] at hrest
    simp only [namesOfBlock, List.map_append]
    exact .append (s.names_spread _ _) hrest
end

/-- The names that stand at a place or inside it. -/
def Place.names (here : Position) : Place → List Occurrence
  | ⟨.expr e, around⟩ => e.names here around
  | ⟨.block body, around⟩ => namesOfBlock here around [] body

/-- What one of several parts holds is among what they all hold, where parts are numbered from `k` on. -/
theorem subset_of_getElem? {α β : Type} (one : Nat → α → List β) (all : Nat → List α → List β)
    (hcons : ∀ k a rest, all k (a :: rest) = one k a ++ all (k + 1) rest) {as : List α} {i : Nat} {a : α}
    (h : as[i]? = some a) (k : Nat) : one (k + i) a ⊆ all k as := by
  induction as generalizing i k with
  | nil => simp at h
  | cons b rest ih =>
    rw [hcons]
    cases i with
    | zero =>
      obtain rfl : b = a := by simpa using h
      exact List.subset_append_left _ _
    | succ i =>
      have hrest := ih h (k + 1)
      rw [show k + 1 + i = k + (i + 1) by omega] at hrest
      exact List.subset_append_of_subset_right _ hrest

section Subset
variable (here : Position) (around : List Frame)

private theorem names_subset_args {args : List (Argument Expr)} {i : Nat} {a : Argument Expr} (h : args[i]? = some a)
    (k : Nat) : a.value.names ((k + i + 1) :: here) (.argument here (k + i) :: around) ⊆ namesOfArgs here around k args :=
  subset_of_getElem? (fun k a => a.value.names ((k + 1) :: here) (.argument here k :: around)) (namesOfArgs here around)
    (fun _ _ _ => rfl) h k

private theorem names_subset_exprs {parts : List Expr} {i : Nat} {e : Expr} (h : parts[i]? = some e) (k : Nat) :
    e.names ((k + i) :: here) (.operand :: around) ⊆ namesOfExprs here around k parts :=
  subset_of_getElem? (fun k e => e.names (k :: here) (.operand :: around)) (namesOfExprs here around) (fun _ _ _ => rfl) h k

private theorem names_subset_block {body : List Stmt} {i : Nat} {s : Stmt} (h : body[i]? = some s) (earlier : List Stmt) :
    s.names ((earlier.length + i) :: here) (.block (earlier ++ body.take i) :: around) ⊆
      namesOfBlock here around earlier body := by
  induction body generalizing i earlier with
  | nil => simp at h
  | cons b rest ih =>
    cases i with
    | zero =>
      obtain rfl : b = s := by simpa using h
      simp [namesOfBlock]
    | succ i =>
      have hrest := ih h (earlier ++ [b])
      rw [List.length_append, List.length_singleton, List.append_assoc,
        show earlier.length + 1 + i = earlier.length + (i + 1) by omega] at hrest
      exact List.subset_append_of_subset_right _ hrest

private theorem names_subset_stmtPlace {body : List Stmt} {i : Nat} {q : Place} (h : stmtPlace? around body i = some q) :
    q.names (i :: here) ⊆ namesOfBlock here around [] body := by
  obtain ⟨s, hs, hq⟩ := Option.bind_eq_some_iff.1 h
  have hblock := names_subset_block here around hs []
  rw [List.length_nil, Nat.zero_add, List.nil_append] at hblock
  cases s with
  | val n delegated initializer location =>
    cases initializer with
    | none => cases hq
    | some e =>
      cases hq
      exact hblock
  | expr e =>
    cases hq
    exact hblock
  | nested header inner =>
    cases hq
    exact hblock
  | ret value =>
    cases value with
    | none => cases hq
    | some e =>
      cases hq
      exact hblock

/-- The names inside a part are among those of the whole. -/
theorem Place.names_step? {p q : Place} {i : Nat} (h : p.step? here i = some q) : q.names (i :: here) ⊆ p.names here := by
  obtain ⟨focus, around⟩ := p
  cases focus with
  | block body => exact names_subset_stmtPlace here around h
  | expr e =>
    cases e with
    | ident n location => cases h
    | literal value => cases h
    | call callee target receiver args location =>
      cases i with
      | zero =>
        cases receiver with
        | none => cases h
        | some receiver =>
          cases h
          exact List.subset_append_left _ _
      | succ i =>
        have hargs : argPlace? here around args i = some q := by cases receiver <;> exact h
        obtain ⟨a, ha, rfl⟩ := Option.map_eq_some_iff.1 hargs
        have hsub := names_subset_args here around ha 0
        rw [Nat.zero_add] at hsub
        cases receiver with
        | none => exact hsub
        | some receiver => exact List.subset_append_of_subset_right _ hsub
    | member receiver n location =>
      rcases i with _ | i
      · cases h
        exact List.Subset.refl _
      · cases h
    | template parts =>
      obtain ⟨e, he, rfl⟩ := Option.map_eq_some_iff.1 h
      have hsub := names_subset_exprs here around he 0
      rwa [Nat.zero_add] at hsub
    | lambda uiBuilding params body => exact names_subset_stmtPlace here _ h
    | binary op lhs rhs =>
      rcases i with _ | _ | i
      · cases h
        exact List.subset_append_left _ _
      · cases h
        exact List.subset_append_right _ _
      · cases h
    | branch condition thenBranch elseBranch =>
      rcases i with _ | _ | _ | i
      · cases h
        exact List.subset_append_of_subset_left _ (List.subset_append_left _ _)
      · cases h
        exact List.subset_append_of_subset_left _ (List.subset_append_right _ _)
      · cases h
        exact List.subset_append_right _ _
      · cases h
    | other children =>
      obtain ⟨e, he, rfl⟩ := Option.map_eq_some_iff.1 h
      have hsub := names_subset_exprs here around he 0
      rwa [Nat.zero_add] at hsub

end Subset

namespace FunctionDecl

private theorem placeAt?_names_subset (f : FunctionDecl) {position : Position} {p : Place}
    (h : f.placeAt? position = some p) : p.names position ⊆ namesOfBlock [] [] [] f.body := by
  induction position generalizing p with
  | nil =>
    cases h
    exact List.Subset.refl _
  | cons i here ih =>
    obtain ⟨outer, houter, hstep⟩ := Option.bind_eq_some_iff.1 h
    exact List.Subset.trans (Place.names_step? here hstep) (ih houter)

/-- The occurrences of a name are the places where it stands. -/
theorem mem_occurrences_iff {f : FunctionDecl} {name : String} {o : Occurrence} : o ∈ f.occurrences name ↔
    o.name = name ∧ ∃ location, f.placeAt? o.position = some ⟨.expr (.ident o.name location), o.around⟩ := by
  constructor
  · intro ho
    exact ⟨by simpa using List.of_mem_filter ho, placeAt?_of_mem_occurrences ho⟩
  · rintro ⟨rfl, location, hp⟩
    have hmem : o ∈ namesOfBlock [] [] [] f.body := f.placeAt?_names_subset hp (by simp [Place.names, Expr.names])
    exact List.mem_filter.2 ⟨hmem, by simp⟩

theorem renderCalls_nodup (f : FunctionDecl) : (f.renderCalls.map CallAt.position).Nodup :=
  (callsOfBlock_spread false [] 0 f.body).nodup

theorem occurrences_nodup (f : FunctionDecl) (name : String) : ((f.occurrences name).map Occurrence.position).Nodup :=
  (namesOfBlock_spread [] [] [] f.body).nodup.sublist (List.filter_sublist.map _)

end FunctionDecl

end PassThrough

import PassThrough.Proofs.Scope

/-! The calls that a function makes while it builds its UI. They are listed in the order of the text, and they are exactly
the calls that stand in the body outside every callback. -/

namespace PassThrough

/-- The calls at a place or inside it, without those inside callbacks. -/
def Place.calls (here : Position) : Place → List CallAt
  | ⟨.expr e, _⟩ => e.calls false here
  | ⟨.block body, _⟩ => callsOfBlock false here 0 body

theorem Rendered.outward {inner outer : List Frame} (h : Rendered (inner ++ outer)) : Rendered outer :=
  fun frame hf => h frame (List.mem_append_right _ hf)

section Subset
variable (here : Position) (around : List Frame)

private theorem calls_subset_exprs {parts : List Expr} {i : Nat} {e : Expr} (h : parts[i]? = some e) :
    e.calls false (i :: here) ⊆ callsOfExprs false here 0 parts := by
  have hsub := subset_of_getElem? (fun k e => Expr.calls false (k :: here) e) (callsOfExprs false here) (fun _ _ _ => rfl) h 0
  rwa [Nat.zero_add] at hsub

private theorem calls_subset_stmtPlace {body : List Stmt} {i : Nat} {q : Place} (h : stmtPlace? around body i = some q) :
    q.calls (i :: here) ⊆ callsOfBlock false here 0 body := by
  obtain ⟨s, hs, hq⟩ := Option.bind_eq_some_iff.1 h
  have hblock := subset_of_getElem? (fun k s => Stmt.calls false (k :: here) s) (callsOfBlock false here) (fun _ _ _ => rfl) hs 0
  rw [Nat.zero_add] at hblock
  cases s with
  | val n delegated initializer location =>
    cases initializer with
    | none => cases hq
    | some e =>
      cases hq
      exact hblock
  | expr e =>
    cases hq
    exact hblock
  | nested header inner =>
    cases hq
    exact hblock
  | ret value =>
    cases value with
    | none => cases hq
    | some e =>
      cases hq
      exact hblock

/-- The calls inside a part are among those of the whole, unless the part lies in a callback. -/
theorem Place.calls_step? {p q : Place} {i : Nat} (h : p.step? here i = some q) (hr : Rendered q.around) :
    q.calls (i :: here) ⊆ p.calls here := by
  obtain ⟨focus, around⟩ := p
  cases focus with
  | block body => exact calls_subset_stmtPlace here around h
  | expr e =>
    cases e with
    | ident n location => cases h
    | literal value => cases h
    | call callee target receiver args location =>
      cases i with
      | zero =>
        cases receiver with
        | none => cases h
        | some receiver =>
          cases h
          exact List.subset_cons_of_subset _ (List.subset_append_left _ _)
      | succ i =>
        have hargs : argPlace? here around args i = some q := by cases receiver <;> exact h
        obtain ⟨a, ha, rfl⟩ := Option.map_eq_some_iff.1 hargs
        have hsub := subset_of_getElem? (fun k a => a.value.calls false (k :: here)) (callsOfArgs false here)
          (fun _ _ _ => rfl) ha 1
        rw [Nat.add_comm] at hsub
        cases receiver with
        | none => exact List.subset_cons_of_subset _ hsub
        | some receiver => exact List.subset_cons_of_subset _ (List.subset_append_of_subset_right _ hsub)
    | member receiver n location =>
      rcases i with _ | i
      · cases h
        exact List.Subset.refl _
      · cases h
    | template parts =>
      obtain ⟨e, he, rfl⟩ := Option.map_eq_some_iff.1 h
      exact calls_subset_exprs here he
    | lambda uiBuilding params body =>
      have hsub := calls_subset_stmtPlace here _ h
      obtain ⟨layers, haround, -⟩ := Scope.descends_stmt "" h
      have hui : uiBuilding = true := by
        rw [haround] at hr
        simpa [Frame.isCallback] using hr.outward _ List.mem_cons_self
      simpa [calls, Expr.calls, hui] using hsub
    | binary op lhs rhs =>
      rcases i with _ | _ | i
      · cases h
        exact List.subset_append_left _ _
      · cases h
        exact List.subset_append_right _ _
      · cases h
    | branch condition thenBranch elseBranch =>
      rcases i with _ | _ | _ | i
      · cases h
        exact List.subset_append_of_subset_left _ (List.subset_append_left _ _)
      · cases h
        exact List.subset_append_of_subset_left _ (List.subset_append_right _ _)
      · cases h
        exact List.subset_append_right _ _
      · cases h
    | other children =>
      obtain ⟨e, he, rfl⟩ := Option.map_eq_some_iff.1 h
      exact calls_subset_exprs here he

end Subset

namespace FunctionDecl

private theorem placeAt?_calls_subset (f : FunctionDecl) {position : Position} {p : Place} (h : f.placeAt? position = some p)
    (hr : Rendered p.around) : p.calls position ⊆ f.renderCalls := by
  induction position generalizing p with
  | nil =>
    cases h
    exact List.Subset.refl _
  | cons i here ih =>
    obtain ⟨outer, houter, hstep⟩ := Option.bind_eq_some_iff.1 h
    obtain ⟨layers, haround, -⟩ := Scope.descends_step "" hstep
    exact List.Subset.trans (Place.calls_step? here hstep hr) (ih houter (haround ▸ hr).outward)

/-- The list holds exactly the calls that stand in the body outside every callback, in the order of the text. -/
structure ListsCalls (f : FunctionDecl) (calls : List CallAt) : Prop where
  mem_iff : ∀ c, c ∈ calls ↔ ∃ receiver around, Rendered around ∧
    f.placeAt? c.position = some ⟨.expr (.call c.callee c.target receiver c.args c.location), around⟩
  ordered : (calls.map CallAt.position).Pairwise Position.Before

theorem renderCalls_listsCalls (f : FunctionDecl) : f.ListsCalls f.renderCalls where
  mem_iff := by
    intro c
    constructor
    · intro hc
      obtain ⟨receiver, around, hplace, hr⟩ := f.renderCalls_placeAt? hc
      exact ⟨receiver, around, hr, hplace⟩
    · rintro ⟨receiver, around, hr, hplace⟩
      refine f.placeAt?_calls_subset hplace hr ?_
      cases receiver <;> exact List.mem_cons_self
  ordered := (callsOfBlock_spread false [] 0 f.body).ordered

end FunctionDecl
end PassThrough

import Mathlib.Algebra.BigOperators.Group.List.Basic
import Mathlib.Algebra.GroupWithZero.Nat
import PassThrough.Proofs.Usage

/-! How a built graph represents a program. The nodes are the first declarations of the functions that carry the marker, ids
and numbers are two ways to name them, and the sites that reach a function are listed in the order of the text, which makes
the list of its callers free of repetitions. -/

namespace PassThrough

/-- The declarations that repeat no id of a declaration before them. -/
def firstDeclarations (fs : List (String × FunctionDecl)) : List (String × FunctionDecl) :=
  (withEarlier [] fs).filterMap fun (earlier, x) => if earlier.any (·.2.id == x.2.id) then none else some x

/-- The declarations that repeat the id of a declaration before them. -/
def repeatedDeclarations (fs : List (String × FunctionDecl)) : List (String × FunctionDecl) :=
  (withEarlier [] fs).filterMap fun (earlier, x) => if earlier.any (·.2.id == x.2.id) then some x else none

-- `before` are the declarations passed, of which `nodes` holds the first ones.
private theorem addNodes_eq_firsts (v : Vocabulary) (before fs : List (String × FunctionDecl)) (nodes : List Node)
    (hids : ∀ f : FunctionId, nodes.any (·.id == f) = before.any (·.2.id == f)) :
    addNodes v nodes fs =
      (nodes ++ ((withEarlier before fs).filterMap fun (earlier, x) =>
        if earlier.any (·.2.id == x.2.id) then none else some x).map fun x => Node.ofDecl v x.1 x.2,
      ((withEarlier before fs).filterMap fun (earlier, x) =>
        if earlier.any (·.2.id == x.2.id) then some x else none).map fun x => duplicateDiagnostic x.1 x.2) := by
  induction fs generalizing before nodes with
  | nil => simp [addNodes, withEarlier]
  | cons x rest ih =>
    obtain ⟨path, f⟩ := x
    simp only [addNodes, withEarlier, List.filterMap_cons, hids f.id]
    cases hseen : before.any (·.2.id == f.id) with
    | true =>
      have hrest := ih (before ++ [(path, f)]) nodes fun id => by
        rw [hids id, List.any_append]
        by_cases hid : f.id = id
        · rw [← hid, hseen, Bool.true_or]
        · simp [hid]
      rw [if_pos rfl, hrest]
      rfl
    | false =>
      rw [if_neg (by simp), ih (before ++ [(path, f)])]
      · simp
      · intro id
        rw [List.any_append, List.any_append, hids id]
        simp [Node.ofDecl]

theorem addNodes_eq_firstDeclarations (v : Vocabulary) (fs : List (String × FunctionDecl)) :
    (addNodes v [] fs).1 = (firstDeclarations fs).map fun x => Node.ofDecl v x.1 x.2 :=
  congrArg Prod.fst (addNodes_eq_firsts v [] fs [] fun _ => rfl)

theorem addNodes_eq_repeatedDeclarations (v : Vocabulary) (fs : List (String × FunctionDecl)) :
    (addNodes v [] fs).2 = (repeatedDeclarations fs).map fun x => duplicateDiagnostic x.1 x.2 :=
  congrArg Prod.snd (addNodes_eq_firsts v [] fs [] fun _ => rfl)

/-- The site stands before the other: by caller, and then in the order of the text. -/
def SiteId.Before (a b : SiteId) : Prop := a.caller < b.caller ∨ a.caller = b.caller ∧ a.index < b.index

private theorem sum_map_one_of {α : Type} (p : α → Bool) (as : List α) :
    (as.map fun a => if p a then 1 else 0).sum = as.countP p := by
  induction as with
  | nil => rfl
  | cons a rest ih => rw [List.map_cons, List.sum_cons, ih, List.countP_cons, Nat.add_comm]

namespace Graph
variable {g : Graph}

namespace Lawful

private theorem ids_pairwise (h : g.Lawful) : (g.sites.flatten.map CallSite.id).Pairwise SiteId.Before := by
  have hids : ∀ n, ∀ site ∈ g.sitesOf n, ∃ i, (g.sitesOf n)[i]? = some site ∧ site.id = ⟨n, i⟩ := by
    intro n site hs
    obtain ⟨i, hi⟩ := List.mem_iff_getElem?.1 hs
    exact ⟨i, hi, h.site?_id (s := ⟨n, i⟩) hi⟩
  rw [h.flatten_sites, List.pairwise_map, List.pairwise_flatMap]
  refine ⟨fun n _ => List.pairwise_iff_getElem.2 fun i j hi hj hij => ?_, List.pairwise_lt_range.imp fun hnm a ha b hb => ?_⟩
  · have hsi : (g.sitesOf n)[i].id = ⟨n, i⟩ := h.site?_id (s := ⟨n, i⟩) (List.getElem?_eq_getElem hi)
    have hsj : (g.sitesOf n)[j].id = ⟨n, j⟩ := h.site?_id (s := ⟨n, j⟩) (List.getElem?_eq_getElem hj)
    rw [hsi, hsj]
    exact .inr ⟨rfl, hij⟩
  · obtain ⟨i, -, ha⟩ := hids _ a ha
    obtain ⟨j, -, hb⟩ := hids _ b hb
    rw [ha, hb]
    exact .inl hnm

theorem incomingOf_pairwise (h : g.Lawful) (n : NodeId) : (g.incomingOf n).Pairwise SiteId.Before := by
  cases hn : g.node? n with
  | none =>
    have hn' : g.nodes[n]? = none := hn
    simp [incomingOf, h.incoming_eq, hn']
  | some node =>
    rw [h.incomingOf_eq hn]
    exact h.ids_pairwise.sublist (List.filter_sublist.map _)

/-- The target of a site is the id of exactly one function. -/
theorem countP_target (h : g.Lawful) {site : CallSite} (hs : site ∈ g.sites.flatten) :
    g.nodes.countP (fun node => site.target == some node.id) = if site.target.isNone then 0 else 1 := by
  cases ht : site.target with
  | none => simp
  | some f =>
    obtain ⟨-, call, -, -, hsite⟩ := h.site?_eq_some_iff.1 (h.mem_flatten_sites.1 hs)
    rw [hsite] at ht
    obtain ⟨n, node, hn, hid, -⟩ := h.target_eq_some ht
    have hmem : f ∈ g.nodes.map Node.id := List.mem_map.2 ⟨node, List.mem_of_getElem? hn, hid⟩
    have hcount := List.count_eq_one_of_mem h.distinct hmem
    rw [List.count, List.countP_map] at hcount
    rw [← hcount]
    refine List.countP_congr fun node _ => ?_
    simp only [Function.comp_apply, beq_iff_eq, Option.some.injEq]
    exact eq_comm

/-- Every site is unresolved or reaches one function. -/
theorem siteCount_eq (h : g.Lawful) : g.siteCount = g.unresolvedCount + (g.incoming.map List.length).sum := by
  have hincoming : g.incoming.map List.length =
      g.nodes.map fun node => g.sites.flatten.countP (·.target == some node.id) := by
    rw [h.incoming_eq, List.map_map]
    exact List.map_congr_left fun node _ => by rw [Function.comp_apply, List.length_map, List.countP_eq_length_filter]
  rw [siteCount, unresolvedCount, hincoming]
  -- site by site: one that has a target is counted at one function
  suffices hall : ∀ sites : List CallSite, sites ⊆ g.sites.flatten → sites.length =
      sites.countP (·.target.isNone) + (g.nodes.map fun node => sites.countP (·.target == some node.id)).sum from
    hall _ (List.Subset.refl _)
  intro sites hsites
  induction sites with
  | nil => simp
  | cons site rest ih =>
    obtain ⟨hsite, hrest⟩ := List.cons_subset.1 hsites
    have hone := h.countP_target hsite
    have hsum : (g.nodes.map fun node => (site :: rest).countP (·.target == some node.id)).sum =
        (g.nodes.map fun node => rest.countP (·.target == some node.id)).sum +
          g.nodes.countP (fun node => site.target == some node.id) := by
      simp only [List.countP_cons, List.sum_map_add, sum_map_one_of]
    rw [hsum, hone, List.length_cons, List.countP_cons, ih hrest]
    cases site.target <;> simp <;> omega

end Lawful

end Graph
end PassThrough

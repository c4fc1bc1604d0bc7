import PassThrough.Proofs.Alias
import PassThrough.Proofs.Loop

/-! Walking back to an origin. The walk stops at a caller's parameter that it has passed before, and this hides no origin:
where the value of a parameter comes from depends on the parameter alone, so a walk that comes back to one never ends. -/

namespace PassThrough.Graph
open Loop
variable {g : Graph} {v : Vocabulary}

/-- The walk back, from a site and the parameter bound there. A round finds the origin, stops without one, or comes to the
parameter of the caller that is passed on. From there it goes to the first of the sites that reach the caller, in the order
in which they are listed, that binds an argument to this parameter. -/
def backward (g : Graph) (v : Vocabulary) : LinkLoop (SiteId × String) (Option Origin) where
  link := fun (s, param) =>
    match g.originStep v s param with
    | .found origin => .done (some origin)
    | .lost => .done none
    | .outer outer => .again ⟨s.caller, outer⟩
  next := fun l =>
    match (g.incomingOf l.node).find? fun s => (g.argument? s l.param).isSome with
    | some supplier => .again (supplier, l.param)
    | none => .done none

private theorem backward_next_of_supplier {l : Link} {supplier : SiteId} (h : g.supplier? l = some supplier) :
    (g.backward v).next l = .again (supplier, l.param) := by
  rw [supplier?] at h
  simp only [backward, h]

private theorem backward_next_of_none {l : Link} (h : g.supplier? l = none) : (g.backward v).next l = .done none := by
  rw [supplier?] at h
  simp only [backward, h]

private theorem nameStep_eq_outer {caller : Node} {site : CallSite} {name outer : String}
    (h : nameStep v caller site name = .outer outer) : (caller.param? outer).isSome = true := by
  have hparam : ∀ x, outerParam caller x = .outer outer → (caller.param? outer).isSome = true := by
    intro x hx
    obtain ⟨rfl, hdeclared⟩ := outerParam_eq_outer_iff.1 hx
    exact hdeclared
  simp only [nameStep] at h
  split at h
  · exact hparam name h
  · cases h
  · cases h
  · cases h
  · split at h
    · cases h
    · split at h
      · exact hparam _ h
      · cases h

/-- The walk only ever comes to declared parameters. -/
theorem mem_links_of_originStep {s : SiteId} {param outer : String} (h : g.originStep v s param = .outer outer) :
    ⟨s.caller, outer⟩ ∈ g.links := by
  simp only [originStep] at h
  split at h
  · rename_i site caller _ hn
    have hdeclared : (caller.param? outer).isSome = true := by
      split at h
      · cases h
      · split at h
        · cases h
        · split at h
          · exact nameStep_eq_outer h
          · cases h
    obtain ⟨p, hp⟩ := Option.isSome_iff_exists.1 hdeclared
    exact mem_links_of_param? (param?_eq_some_iff.2 ⟨caller, hn, hp⟩)
  · cases h

private theorem backward_within (g : Graph) (v : Vocabulary) (start : SiteId × String) :
    (g.backward v).Within start g.links := by
  rintro met ⟨s, param⟩ l - hlink
  simp only [backward] at hlink
  split at hlink
  · cases hlink
  · cases hlink
  · rename_i outer hstep
    cases hlink
    exact mem_links_of_originStep hstep

/-- The walk with a pool is the guarded loop. -/
theorem originFrom_eq_run (g : Graph) (v : Vocabulary) (pool : List Link) (s : SiteId) (param : String) :
    g.originFrom v pool s param = ((g.backward v).run pool (s, param)).2.result?.join := by
  induction pool, s, param using originFrom.induct g v with
  | case1 pool s param origin hstep =>
    rw [originFrom, hstep, LinkLoop.run_of_done (r := some origin) (by simp only [backward, hstep])]
    rfl
  | case2 pool s param hstep =>
    rw [originFrom, hstep, LinkLoop.run_of_done (r := none) (by simp only [backward, hstep])]
    rfl
  | case3 pool s param outer hstep hpool supplier hsupplier ih =>
    have hlink : (g.backward v).link (s, param) = .again ⟨s.caller, outer⟩ := by simp only [backward, hstep]
    rw [originFrom, hstep, LinkLoop.run_of_next hlink hpool (backward_next_of_supplier hsupplier), ← ih]
    simp only [dif_pos hpool, hsupplier]
  | case4 pool s param outer hstep hpool hsupplier =>
    have hlink : (g.backward v).link (s, param) = .again ⟨s.caller, outer⟩ := by simp only [backward, hstep]
    rw [originFrom, hstep, LinkLoop.run_of_last hlink hpool (backward_next_of_none hsupplier)]
    simp only [dif_pos hpool, hsupplier]
    rfl
  | case5 pool s param outer hstep hpool =>
    have hlink : (g.backward v).link (s, param) = .again ⟨s.caller, outer⟩ := by simp only [backward, hstep]
    rw [originFrom, hstep, LinkLoop.run_of_met hlink hpool]
    simp only [dif_neg hpool]
    rfl

/-- The walk back that stops at a parameter passed before ends, after at most one round for each declared parameter and one
more. It stops in that way exactly when the walk that never asks what it has passed goes on for ever, and otherwise both end
alike; so an origin is found exactly when the unbounded walk finds it. -/
theorem originAt_eq_unbounded_walk (g : Graph) (v : Vocabulary) (s : SiteId) (param : String) :
    (∃ n met stop, n ≤ g.links.toFinset.card + 1 ∧
      rounds (g.backward v).guarded n ([], (s, param)) = .done (met, stop) ∧
      g.originAt v s param = stop.result?.join ∧
      (∀ outcome, stop = .result outcome ↔ EndsWith (g.backward v).free (s, param) outcome) ∧
      ((∃ l, stop = .repeated l) ↔ NeverEnds (g.backward v).free (s, param))) ∧
    ∀ origin, g.originAt v s param = some origin ↔ EndsWith (g.backward v).free (s, param) (some origin) := by
  have hwithin := g.backward_within v (s, param)
  have horigin : g.originAt v s param = ((g.backward v).run g.links (s, param)).2.result?.join :=
    g.originFrom_eq_run v g.links s param
  have hbound : ((g.backward v).run g.links (s, param)).1.length ≤ g.links.toFinset.card :=
    length_le_card_of_nodup hwithin.run_nodup hwithin.run_subset
  refine ⟨⟨_, _, _, Nat.succ_le_succ hbound, hwithin.rounds_guarded, horigin, fun _ => hwithin.result_iff,
    hwithin.repeated_iff⟩, fun origin => ?_⟩
  rw [horigin, ← hwithin.result_iff]
  cases ((g.backward v).run g.links (s, param)).2 <;> simp [LinkLoop.Stop.result?]

/-- Two functions that call each other, and a screen that hands a value of its own to one of them. Behind the two the screen
is never reached: the first site that supplies the parameter leads back. Before them it is where the walk ends. -/
theorem originAt_eq_unbounded_walk_back_and_forth :
    let ping := Sample.relay "Ping" (Sample.reader "Pong")
    let pong := Sample.relay "Pong" (Sample.reader "Ping")
    let late := (build {} "Composable" [⟨"a.kt", [ping, pong, Sample.creator ping]⟩]).1
    let early := (build {} "Composable" [⟨"a.kt", [Sample.creator ping, ping, pong]⟩]).1
    let created : Origin := ⟨some "count", ⟨"Screen", []⟩, .directCreation, {}⟩
    (NeverEnds (late.backward {}).free (⟨0, 0⟩, "count") ∧ late.originAt {} ⟨0, 0⟩ "count" = none) ∧
      EndsWith (early.backward {}).free (⟨1, 0⟩, "count") (some created) ∧
      early.originAt {} ⟨1, 0⟩ "count" = some created := by
  intro ping pong late early created
  have hreturn : rounds (late.backward {}).free 2 (⟨0, 0⟩, "count") = .again (⟨0, 0⟩, "count") := rfl
  have hnever := neverEnds_of_return hreturn
  have hends : EndsWith (early.backward {}).free (⟨1, 0⟩, "count") (some created) := ⟨2, rfl⟩
  obtain ⟨⟨_, _, stop, -, -, horigin, -, hrepeated⟩, -⟩ := late.originAt_eq_unbounded_walk {} ⟨0, 0⟩ "count"
  obtain ⟨l, rfl⟩ := hrepeated.2 hnever
  exact ⟨⟨hnever, horigin⟩, hends, ((early.originAt_eq_unbounded_walk {} ⟨1, 0⟩ "count").2 created).2 hends⟩

end PassThrough.Graph

import Mathlib.Logic.Relation
import PassThrough.Proofs.Memo

/-! The search for a reader below a parameter. It drops each link that it has met from its pool, and still finds a reader
whenever one can be reached: a path to a reader either avoids the link dropped or can be cut short below it. -/

namespace PassThrough.Graph
variable {g : Graph} {pool : List Link} {a b l r : Link}

/-- The first parameter is forwarded to the second, along any of its forwards. -/
def Feeds (g : Graph) (a b : Link) : Prop := b ∈ (g.usageOf a).forwards.filterMap g.next?

/-- A path of forwards through links of a pool. -/
inductive PathIn (g : Graph) (pool : List Link) : Link → Link → Prop where
  | here {a : Link} (ha : a ∈ pool) : PathIn g pool a a
  | step {a b c : Link} (ha : a ∈ pool) (hab : g.Feeds a b) (hbc : PathIn g pool b c) : PathIn g pool a c

theorem mem_without : a ∈ without pool l ↔ a ∈ pool ∧ a ≠ l := by
  simp [without]

private theorem PathIn.start_mem (h : g.PathIn pool a r) : a ∈ pool := by
  cases h with
  | here ha => exact ha
  | step ha _ _ => exact ha

private theorem PathIn.of_without (h : g.PathIn (without pool l) a r) : g.PathIn pool a r := by
  induction h with
  | here ha => exact .here (mem_without.1 ha).1
  | step ha hab _ ih => exact .step (mem_without.1 ha).1 hab ih

theorem PathIn.reaches (h : g.PathIn pool a r) : Relation.ReflTransGen g.Feeds a r := by
  induction h with
  | here _ => exact .refl
  | step _ hab _ ih => exact .head hab ih

/-- A path avoids a link, or ends there, or has a tail below the link that avoids it. -/
theorem PathIn.avoid (h : g.PathIn pool a r) (l : Link) :
    g.PathIn (without pool l) a r ∨ r = l ∨ ∃ b, g.Feeds l b ∧ g.PathIn (without pool l) b r := by
  induction h with
  | @here a ha =>
    by_cases hal : a = l
    · exact .inr (.inl hal)
    · exact .inl (.here (mem_without.2 ⟨ha, hal⟩))
  | @step a b r ha hab _ ih =>
    rcases ih with hpath | hend | hbelow
    · by_cases hal : a = l
      · subst hal
        exact .inr (.inr ⟨b, hab, hpath⟩)
      · exact .inl (.step (mem_without.2 ⟨ha, hal⟩) hab hpath)
    · exact .inr (.inl hend)
    · exact .inr (.inr hbelow)

theorem readerBelow_cons (g : Graph) (pool : List Link) (l : Link) (pending : List Link) :
    g.readerBelow (m := Id) g.usageOf pool (l :: pending) =
      if l ∈ pool then
        if (g.usageOf l).isConsumed then true
        else g.readerBelow (m := Id) g.usageOf (without pool l)
          (((g.usageOf l).forwards.filterMap g.next?).reverse ++ pending)
      else g.readerBelow (m := Id) g.usageOf pool pending := by
  rw [readerBelow]
  rfl

private theorem readerBelow_iff (g : Graph) (pool pending : List Link) :
    g.readerBelow (m := Id) g.usageOf pool pending = true ↔
      ∃ a ∈ pending, ∃ r, g.PathIn pool a r ∧ (g.usageOf r).isConsumed = true := by
  induction pool, pending using readerBelow.induct g with
  | case1 pool => simp [readerBelow, pure]
  | case2 pool l pending hl ih =>
    rw [readerBelow_cons, if_pos hl]
    by_cases hc : (g.usageOf l).isConsumed = true
    · simp only [hc, if_true, true_iff]
      exact ⟨l, List.mem_cons_self, l, .here hl, hc⟩
    · rw [if_neg hc, ih]
      constructor
      · rintro ⟨a, ha, r, hpath, hr⟩
        rcases List.mem_append.1 ha with ha | ha
        · exact ⟨l, List.mem_cons_self, r, .step hl (List.mem_reverse.1 ha) hpath.of_without, hr⟩
        · exact ⟨a, List.mem_cons_of_mem l ha, r, hpath.of_without, hr⟩
      · rintro ⟨a, ha, r, hpath, hr⟩
        rcases hpath.avoid l with havoid | rfl | ⟨b, hb, hbelow⟩
        · -- the start is not the dropped link, so it was pending already
          have hal := (mem_without.1 havoid.start_mem).2
          have hpending : a ∈ pending := (List.mem_cons.1 ha).resolve_left hal
          exact ⟨a, List.mem_append_right _ hpending, r, havoid, hr⟩
        · exact absurd hr hc
        · exact ⟨b, List.mem_append_left _ (List.mem_reverse.2 hb), r, hbelow, hr⟩
  | case3 pool l pending hl ih =>
    rw [readerBelow_cons, if_neg hl, ih]
    constructor
    · rintro ⟨a, ha, hpath⟩
      exact ⟨a, List.mem_cons_of_mem l ha, hpath⟩
    · rintro ⟨a, ha, r, hpath, hr⟩
      have hal : a ≠ l := fun heq => hl (heq ▸ hpath.start_mem)
      exact ⟨a, (List.mem_cons.1 ha).resolve_left hal, r, hpath, hr⟩

theorem Lawful.mem_links_of_feeds (h : g.Lawful) (hab : g.Feeds a b) : b ∈ g.links := by
  obtain ⟨q, hq⟩ := h.next_declared hab
  exact mem_links_of_param? hq

/-- The search finds a reader iff one can be reached along forwards. -/
theorem Lawful.isReadBelow_iff (h : g.Lawful) (l : Link) :
    g.isReadBelow l = true ↔ ∃ r, Relation.ReflTransGen g.Feeds l r ∧ (g.usageOf r).isConsumed = true := by
  have hsearch := readerBelow_iff g (l :: g.links) [l]
  simp only [List.mem_singleton, exists_eq_left] at hsearch
  refine hsearch.trans (exists_congr fun r => and_congr_left fun _ => ?_)
  refine ⟨PathIn.reaches, ?_⟩
  -- every link below `l` is declared, hence in the pool
  suffices hall : ∀ a ∈ l :: g.links, Relation.ReflTransGen g.Feeds a r → g.PathIn (l :: g.links) a r from
    hall l List.mem_cons_self
  intro a ha hreach
  induction hreach using Relation.ReflTransGen.head_induction_on with
  | refl => exact .here ha
  | head hab _ ih => exact .step ha hab (ih (List.mem_cons_of_mem l (h.mem_links_of_feeds hab)))

/-- The first parameter is not read, and is forwarded to the second. -/
def FeedsUnread (g : Graph) (a b : Link) : Prop := (g.usageOf a).isConsumed = false ∧ g.Feeds a b

/-- A path of forwards leads from the link, through links that are not read, to one that is. -/
def ReadBelow (g : Graph) (l : Link) : Prop :=
  ∃ r, Relation.ReflTransGen g.FeedsUnread l r ∧ (g.usageOf r).isConsumed = true

/-- A path to a reader can be cut short at the first reader on it. -/
theorem readBelow_iff :
    g.ReadBelow l ↔ ∃ r, Relation.ReflTransGen g.Feeds l r ∧ (g.usageOf r).isConsumed = true := by
  constructor
  · rintro ⟨r, hpath, hr⟩
    exact ⟨r, Relation.ReflTransGen.mono (fun _ _ hab => hab.2) _ _ hpath, hr⟩
  · rintro ⟨r, hpath, hr⟩
    induction hpath using Relation.ReflTransGen.head_induction_on with
    | refl => exact ⟨r, .refl, hr⟩
    | @head a b hab _ ih =>
      cases ha : (g.usageOf a).isConsumed with
      | true => exact ⟨a, .refl, ha⟩
      | false =>
        obtain ⟨r', hpath', hr'⟩ := ih
        exact ⟨r', .head ⟨ha, hab⟩ hpath', hr'⟩

theorem Lawful.isReadBelow_iff_readBelow (h : g.Lawful) (l : Link) : g.isReadBelow l = true ↔ g.ReadBelow l :=
  (h.isReadBelow_iff l).trans readBelow_iff.symm

end PassThrough.Graph

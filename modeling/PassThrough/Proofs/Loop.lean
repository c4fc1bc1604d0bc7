import Mathlib.Data.Finset.Card
import PassThrough.Proofs.Reach

/-! Loops that stop at a link met before. If what a loop does behind a link depends on the link alone, then stopping there
loses nothing: a loop that comes back to a link never ends. -/

namespace PassThrough

/-- What one round of a loop does: it ends the loop with a result, or leaves the state in which the next round starts. -/
inductive Round (σ ρ : Type) where
  | done (result : ρ)
  | again (state : σ)

/-- Goes on from the state that a round leaves. -/
def Round.bind {σ τ ρ : Type} (r : Round σ ρ) (f : σ → Round τ ρ) : Round τ ρ :=
  match r with
  | .done x => .done x
  | .again s => f s

namespace Loop
variable {σ ρ : Type} {round : σ → Round σ ρ} {m n : Nat} {s t : σ} {r r' : ρ}

/-- The first `n` rounds of a loop. -/
def rounds (round : σ → Round σ ρ) : Nat → σ → Round σ ρ
  | 0, s => .again s
  | n + 1, s => (round s).bind (rounds round n)

/-- The loop ends after finitely many rounds. -/
def EndsWith (round : σ → Round σ ρ) (s : σ) (r : ρ) : Prop := ∃ n, rounds round n s = .done r

def NeverEnds (round : σ → Round σ ρ) (s : σ) : Prop := ∀ n, ∃ t, rounds round n s = .again t

theorem rounds_succ_of_done (h : round s = .done r) (n : Nat) : rounds round (n + 1) s = .done r := by
  rw [rounds, h]
  rfl

theorem rounds_succ_of_again (h : round s = .again t) (n : Nat) : rounds round (n + 1) s = rounds round n t := by
  rw [rounds, h]
  rfl

theorem rounds_add (round : σ → Round σ ρ) (m n : Nat) (s : σ) :
    rounds round (m + n) s = (rounds round m s).bind (rounds round n) := by
  induction m generalizing s with
  | zero =>
    rw [Nat.zero_add]
    rfl
  | succ m ih =>
    rw [Nat.add_right_comm]
    cases h : round s with
    | done r =>
      rw [rounds_succ_of_done h, rounds_succ_of_done h]
      rfl
    | again t => rw [rounds_succ_of_again h, rounds_succ_of_again h, ih]

theorem rounds_add_of_again (h : rounds round m s = .again t) (n : Nat) : rounds round (m + n) s = rounds round n t := by
  rw [rounds_add, h]
  rfl

/-- A loop that has ended stays so. -/
theorem rounds_of_le (h : rounds round m s = .done r) (hle : m ≤ n) : rounds round n s = .done r := by
  obtain ⟨k, rfl⟩ := Nat.exists_eq_add_of_le hle
  rw [rounds_add, h]
  rfl

theorem EndsWith.unique (h : EndsWith round s r) (h' : EndsWith round s r') : r = r' := by
  obtain ⟨m, hm⟩ := h
  obtain ⟨n, hn⟩ := h'
  have hsame := (rounds_of_le hm (Nat.le_max_left m n)).symm.trans (rounds_of_le hn (Nat.le_max_right m n))
  exact Round.done.inj hsame

theorem EndsWith.not_neverEnds (h : EndsWith round s r) : ¬ NeverEnds round s := by
  intro hnever
  obtain ⟨n, hn⟩ := h
  obtain ⟨t, ht⟩ := hnever n
  simp [hn] at ht

/-- The rounds before one that goes on go on as well. -/
theorem again_of_le (h : rounds round n s = .again t) (hle : m ≤ n) : ∃ u, rounds round m s = .again u := by
  cases hm : rounds round m s with
  | again u => exact ⟨u, rfl⟩
  | done r => simp [rounds_of_le hm hle] at h

theorem NeverEnds.of_again (h : rounds round m s = .again t) (ht : NeverEnds round t) : NeverEnds round s := by
  intro n
  obtain ⟨u, hu⟩ := ht n
  rw [← rounds_add_of_again h] at hu
  exact again_of_le hu (Nat.le_add_left n m)

/-- A loop that comes back to a state never ends. -/
theorem neverEnds_of_return (h : rounds round (n + 1) s = .again s) : NeverEnds round s := by
  intro k
  induction k using Nat.strongRecOn with
  | ind k ih =>
    by_cases hk : k ≤ n + 1
    · exact again_of_le h hk
    · obtain ⟨u, hu⟩ := ih (k - (n + 1)) (by omega)
      refine ⟨u, ?_⟩
      rw [← rounds_add_of_again h] at hu
      rwa [Nat.add_sub_cancel' (by omega)] at hu

end Loop

theorem length_le_card_of_nodup {links all : List Link} (hnodup : links.Nodup) (hsub : links ⊆ all) :
    links.length ≤ all.toFinset.card := by
  rw [← List.toFinset_card_of_nodup hnodup]
  exact Finset.card_le_card fun l hl => List.mem_toFinset.2 (hsub (List.mem_toFinset.1 hl))

/-- A loop in two halves: from its state a round ends the loop or comes to a link, and from the link alone it ends the loop
or finds the next state. -/
structure LinkLoop (σ ρ : Type) where
  link : σ → Round Link ρ
  next : Link → Round σ ρ

namespace LinkLoop
open Loop PassThrough.Graph

/-- How a loop ends that stops at the links it has met. -/
inductive Stop (ρ : Type) where
  | result (value : ρ)
  | repeated (link : Link)

variable {σ ρ : Type}

/-- The result, unless the loop stopped at a link met before. -/
def Stop.result? : Stop ρ → Option ρ
  | .result r => some r
  | .repeated _ => none

/-- A round that does not ask what has been met. -/
def free (w : LinkLoop σ ρ) (s : σ) : Round σ ρ := (w.link s).bind w.next

/-- A round that stops at a link met before. It keeps the links behind which the loop went on. -/
def guarded (w : LinkLoop σ ρ) : List Link × σ → Round (List Link × σ) (List Link × Stop ρ)
  | (met, s) =>
    match w.link s with
    | .done r => .done (met, .result r)
    | .again l =>
      if l ∈ met then .done (met, .repeated l)
      else
        match w.next l with
        | .done r => .done (met, .result r)
        | .again t => .again (met ++ [l], t)

/-- The links behind which the guarded loop goes on from a state, and how it ends; `pool` holds the links not met. -/
def run (w : LinkLoop σ ρ) (pool : List Link) (s : σ) : List Link × Stop ρ :=
  match w.link s with
  | .done r => ([], .result r)
  | .again l =>
    if _h : l ∈ pool then
      match w.next l with
      | .done r => ([], .result r)
      | .again t => (l :: (run w (without pool l) t).1, (run w (without pool l) t).2)
    else ([], .repeated l)
termination_by pool.length
decreasing_by all_goals exact length_without_lt _h

/-- From `start` the loop has passed the links `met`, no two of them equal, and is in the state `s`. -/
inductive Trail (w : LinkLoop σ ρ) (start : σ) : List Link → σ → Prop where
  | start : Trail w start [] start
  | step {met : List Link} {s t : σ} {l : Link} (h : Trail w start met s) (hlink : w.link s = .again l) (hnew : l ∉ met)
      (hnext : w.next l = .again t) : Trail w start (met ++ [l]) t

variable {w : LinkLoop σ ρ} {start s t : σ} {met pool all : List Link} {l : Link} {r : ρ}

theorem free_of_done (hlink : w.link s = .done r) : w.free s = .done r := by
  rw [free, hlink]
  rfl

theorem free_of_link (hlink : w.link s = .again l) : w.free s = w.next l := by
  rw [free, hlink]
  rfl

namespace Trail

theorem nodup (h : w.Trail start met s) : met.Nodup := by
  induction h with
  | start => exact .nil
  | step _ _ hnew _ ih =>
    refine List.nodup_append.2 ⟨ih, List.nodup_singleton _, fun a ha b hb heq => ?_⟩
    obtain rfl := List.mem_singleton.1 hb
    exact hnew (heq ▸ ha)

/-- Every link that was met was come to on the way. -/
theorem exists_of_mem (h : w.Trail start met s) (hl : l ∈ met) : ∃ before t, w.Trail start before t ∧ w.link t = .again l := by
  induction h with
  | start => cases hl
  | @step met s t k h hlink _ _ ih =>
    rcases List.mem_append.1 hl with hl | hl
    · exact ih hl
    · obtain rfl := List.mem_singleton.1 hl
      exact ⟨met, s, h, hlink⟩

theorem rounds_succ {n : Nat} {u : σ} (h : rounds w.free n u = .again s) (hlink : w.link s = .again l)
    (hnext : w.next l = .again t) : rounds w.free (n + 1) u = .again t := by
  rw [rounds_add_of_again h, rounds_succ_of_again ((free_of_link hlink).trans hnext)]
  rfl

theorem reaches (h : w.Trail start met s) : ∃ n, rounds w.free n start = .again s := by
  induction h with
  | start => exact ⟨0, rfl⟩
  | step _ hlink _ hnext ih =>
    obtain ⟨n, hn⟩ := ih
    exact ⟨n + 1, rounds_succ hn hlink hnext⟩

/-- What lies behind a link that was met leads to the present state. -/
theorem reaches_of_mem (h : w.Trail start met s) (hl : l ∈ met) :
    ∃ t n, w.next l = .again t ∧ rounds w.free n t = .again s := by
  induction h with
  | start => cases hl
  | @step met s t k _ hlink _ hnext ih =>
    rcases List.mem_append.1 hl with hl | hl
    · obtain ⟨u, n, hu, hn⟩ := ih hl
      exact ⟨u, n + 1, hu, rounds_succ hn hlink hnext⟩
    · obtain rfl := List.mem_singleton.1 hl
      exact ⟨t, 0, hnext, rfl⟩

/-- Coming to a link that was met means going round for ever. -/
theorem neverEnds (h : w.Trail start met s) (hlink : w.link s = .again l) (hl : l ∈ met) : NeverEnds w.free start := by
  obtain ⟨t, n, hnext, hn⟩ := h.reaches_of_mem hl
  obtain ⟨n', hn'⟩ := h.reaches
  have hreturn : rounds w.free (n + 1) t = .again t := rounds_succ hn hlink hnext
  exact .of_again (rounds_succ hn' hlink hnext) (neverEnds_of_return hreturn)

end Trail

theorem run_of_done (hlink : w.link s = .done r) : w.run pool s = ([], .result r) := by
  rw [run, hlink]

theorem run_of_met (hlink : w.link s = .again l) (hl : l ∉ pool) : w.run pool s = ([], .repeated l) := by
  rw [run, hlink]
  exact dif_neg hl

theorem run_of_last (hlink : w.link s = .again l) (hl : l ∈ pool) (hnext : w.next l = .done r) :
    w.run pool s = ([], .result r) := by
  rw [run, hlink]
  simp only [dif_pos hl, hnext]

theorem run_of_next (hlink : w.link s = .again l) (hl : l ∈ pool) (hnext : w.next l = .again t) :
    w.run pool s = (l :: (w.run (without pool l) t).1, (w.run (without pool l) t).2) := by
  rw [run, hlink]
  simp only [dif_pos hl, hnext]

/-- The loop ends in the state `s` in this way, having met the links `met`. -/
def StopsAt (w : LinkLoop σ ρ) (met : List Link) (s : σ) : Stop ρ → Prop
  | .result r => w.free s = .done r
  | .repeated l => w.link s = .again l ∧ l ∈ met

theorem guarded_of_next (hlink : w.link s = .again l) (hl : l ∉ met) (hnext : w.next l = .again t) :
    w.guarded (met, s) = .again (met ++ [l], t) := by
  simp [guarded, hlink, hl, hnext]

/-- The guarded rounds go along the trail. -/
theorem Trail.rounds_guarded (h : w.Trail start met s) : rounds w.guarded met.length ([], start) = .again (met, s) := by
  induction h with
  | start => rfl
  | step _ hlink hnew hnext ih =>
    rw [List.length_append, List.length_singleton, rounds_add_of_again ih,
      rounds_succ_of_again (guarded_of_next hlink hnew hnext)]
    rfl

/-- At the end of a trail the guarded loop stops. -/
theorem Trail.guarded_of_stopsAt (h : w.Trail start met s) {stop : Stop ρ} (hstop : w.StopsAt met s stop) :
    w.guarded (met, s) = .done (met, stop) := by
  cases stop with
  | result r =>
    have hfree : w.free s = .done r := hstop
    cases hlink : w.link s with
    | done r' =>
      rw [free_of_done hlink] at hfree
      simp [guarded, hlink, Round.done.inj hfree]
    | again l =>
      rw [free_of_link hlink] at hfree
      -- behind a link that was met the loop went on
      have hl : l ∉ met := by
        intro hmem
        obtain ⟨t, -, hnext, -⟩ := h.reaches_of_mem hmem
        simp [hfree] at hnext
      simp [guarded, hlink, hl, hfree]
  | repeated l =>
    obtain ⟨hlink, hl⟩ := hstop
    simp [guarded, hlink, hl]

/-- All links to which the loop comes are listed in `all`. -/
def Within (w : LinkLoop σ ρ) (start : σ) (all : List Link) : Prop :=
  ∀ met s l, w.Trail start met s → w.link s = .again l → l ∈ all

namespace Within

/-- A run goes on along a trail to where the loop ends. -/
theorem run_trail (hall : w.Within start all) (h : w.Trail start met s) (hpool : ∀ l ∈ all, l ∈ pool ↔ l ∉ met) :
    ∃ t, w.Trail start (met ++ (w.run pool s).1) t ∧ w.StopsAt (met ++ (w.run pool s).1) t (w.run pool s).2 := by
  induction pool, s using run.induct w generalizing met with
  | case1 pool s r hlink =>
    rw [run_of_done hlink, List.append_nil]
    exact ⟨s, h, free_of_done hlink⟩
  | case2 pool s l hlink hl r hnext =>
    rw [run_of_last hlink hl hnext, List.append_nil]
    exact ⟨s, h, (free_of_link hlink).trans hnext⟩
  | case3 pool s l hlink hl t hnext ih =>
    have hnew : l ∉ met := (hpool l (hall met s l h hlink)).1 hl
    rw [run_of_next hlink hl hnext, List.append_cons]
    apply ih (h.step hlink hnew hnext)
    intro k hk
    rw [mem_without, hpool k hk, List.mem_append, List.mem_singleton, not_or]
  | case4 pool s l hlink hl =>
    rw [run_of_met hlink hl, List.append_nil]
    exact ⟨s, h, hlink, by simpa [hl] using hpool l (hall met s l h hlink)⟩

variable (hall : w.Within start all)
include hall

theorem exists_trail : ∃ t, w.Trail start (w.run all start).1 t ∧ w.StopsAt (w.run all start).1 t (w.run all start).2 :=
  hall.run_trail .start (by simp)

theorem run_nodup : (w.run all start).1.Nodup := by
  obtain ⟨t, htrail, -⟩ := hall.exists_trail
  exact htrail.nodup

theorem run_subset : (w.run all start).1 ⊆ all := by
  obtain ⟨t, htrail, -⟩ := hall.exists_trail
  intro l hl
  obtain ⟨before, s, hbefore, hlink⟩ := htrail.exists_of_mem hl
  exact hall before s l hbefore hlink

/-- The guarded loop ends, one round after the last link behind which it went on. -/
theorem rounds_guarded : rounds w.guarded ((w.run all start).1.length + 1) ([], start) = .done (w.run all start) := by
  obtain ⟨t, htrail, hstop⟩ := hall.exists_trail
  rw [rounds_add_of_again htrail.rounds_guarded, rounds_succ_of_done (htrail.guarded_of_stopsAt hstop)]

theorem endsWith_of_result (h : (w.run all start).2 = .result r) : EndsWith w.free start r := by
  obtain ⟨t, htrail, hstop⟩ := hall.exists_trail
  rw [h] at hstop
  obtain ⟨n, hn⟩ := htrail.reaches
  exact ⟨n + 1, by rw [rounds_add_of_again hn, rounds_succ_of_done hstop]⟩

theorem neverEnds_of_repeated (h : (w.run all start).2 = .repeated l) :
    l ∈ (w.run all start).1 ∧ NeverEnds w.free start := by
  obtain ⟨t, htrail, hstop⟩ := hall.exists_trail
  rw [h] at hstop
  exact ⟨hstop.2, htrail.neverEnds hstop.1 hstop.2⟩

/-- The guarded loop gives the result with which the free loop ends. -/
theorem result_iff : (w.run all start).2 = .result r ↔ EndsWith w.free start r := by
  refine ⟨hall.endsWith_of_result, fun hends => ?_⟩
  cases hstop : (w.run all start).2 with
  | result r' => rw [(hall.endsWith_of_result hstop).unique hends]
  | repeated l => exact absurd (hall.neverEnds_of_repeated hstop).2 hends.not_neverEnds

/-- The guarded loop stops at a link met before exactly when the free loop never ends. -/
theorem repeated_iff : (∃ l, (w.run all start).2 = .repeated l) ↔ NeverEnds w.free start := by
  constructor
  · rintro ⟨l, hl⟩
    exact (hall.neverEnds_of_repeated hl).2
  · intro hnever
    cases hstop : (w.run all start).2 with
    | result r => exact absurd hnever (hall.endsWith_of_result hstop).not_neverEnds
    | repeated l => exact ⟨l, rfl⟩

end Within
end LinkLoop
end PassThrough

import Mathlib.Data.List.Induction
import PassThrough.Proofs.Kind
import PassThrough.Proofs.Spelling

/-! The kind of a type whose own name is not known, by its supertypes. Where the kinds found among them all lie on one line
of widening, the narrowest of them is the answer and nothing depends on how the supertypes are listed; otherwise the order
decides. -/

namespace PassThrough

namespace Kind

variable {j k : Kind} {ks ks' : List Kind}

/-- One of the kinds may stand in for the other. -/
def Comparable (j k : Kind) : Prop := j.assignableTo k = true ∨ k.assignableTo j = true

instance : Decidable (Comparable j k) := inferInstanceAs (Decidable (_ ∨ _))

def AllComparable (ks : List Kind) : Prop := ∀ j ∈ ks, ∀ k ∈ ks, j.Comparable k

instance : Decidable (AllComparable ks) := inferInstanceAs (Decidable (∀ j ∈ ks, ∀ k ∈ ks, _))

/-- `k` is one of the kinds and may stand in for each of them. -/
structure Narrowest (ks : List Kind) (k : Kind) : Prop where
  mem : k ∈ ks
  assignable : ∀ j ∈ ks, k.assignableTo j = true

/-- `k` is the last of the kinds that are most specific. -/
def LastMostSpecific (ks : List Kind) (k : Kind) : Prop :=
  ∃ before after, ks = before ++ k :: after ∧ (∀ j ∈ before, j.specificity ≤ k.specificity) ∧
    ∀ j ∈ after, j.specificity < k.specificity

theorem Comparable.assignableTo (h : j.Comparable k) (hle : k.specificity ≤ j.specificity) :
    j.assignableTo k = true := by
  rcases h with h | h
  · exact h
  · by_cases heq : k = j
    · rw [heq] at h ⊢
      exact h
    · have hlt := specificity_lt_of_assignableTo h heq
      omega

/-- There is at most one narrowest kind, and it depends on which kinds there are and on nothing else. -/
theorem Narrowest.unique (h : Narrowest ks k) (h' : Narrowest ks' j) (hsame : ∀ i, i ∈ ks ↔ i ∈ ks') :
    k = j := by
  apply assignableTo_antisymm
  · exact h.assignable j ((hsame j).2 h'.mem)
  · exact h'.assignable k ((hsame k).1 h.mem)

theorem LastMostSpecific.mem (h : LastMostSpecific ks k) : k ∈ ks := by
  obtain ⟨before, after, rfl, -, -⟩ := h
  simp

theorem LastMostSpecific.specificity_le (h : LastMostSpecific ks k) (hj : j ∈ ks) :
    j.specificity ≤ k.specificity := by
  obtain ⟨before, after, rfl, hbefore, hafter⟩ := h
  rcases List.mem_append.1 hj with hj | hj
  · exact hbefore j hj
  · rcases List.mem_cons.1 hj with rfl | hj
    · exact Nat.le_refl _
    · exact Nat.le_of_lt (hafter j hj)

end Kind

namespace Vocabulary

open Kind

variable {v : Vocabulary} {name : String} {names others : List String} {k : Kind} {ks : List Kind}

private theorem mostSpecific_concat (ks : List Kind) (k : Kind) :
    mostSpecific (ks ++ [k]) =
      if (mostSpecific ks).specificity ≤ k.specificity then k else mostSpecific ks := by
  rw [mostSpecific, List.foldl_append]
  rfl

theorem lastMostSpecific_mostSpecific (h : ks ≠ []) : LastMostSpecific ks (mostSpecific ks) := by
  -- the kind found so far is the last of the most specific ones up to here
  induction ks using List.reverseRecOn with
  | nil => exact absurd rfl h
  | append_singleton ks k ih =>
    rw [mostSpecific_concat]
    split
    · rename_i hle
      refine ⟨ks, [], rfl, ?_, by simp⟩
      intro j hj
      have hbest := (ih (List.ne_nil_of_mem hj)).specificity_le hj
      omega
    · rename_i hlt
      have hne : ks ≠ [] := by
        rintro rfl
        exact hlt (Nat.zero_le _)
      obtain ⟨before, after, hsplit, hbefore, hafter⟩ := ih hne
      refine ⟨before, after ++ [k], ?_, hbefore, ?_⟩
      · conv => lhs; rw [hsplit]
        simp
      · intro j hj
        rcases List.mem_append.1 hj with hj | hj
        · exact hafter j hj
        · rw [List.mem_singleton.1 hj]
          omega

private theorem mostSpecific_eq_plain_iff : mostSpecific ks = .plain ↔ ∀ k ∈ ks, k = .plain := by
  by_cases hks : ks = []
  · subst hks
    simp [mostSpecific]
  · have hlast := lastMostSpecific_mostSpecific hks
    constructor
    · intro hplain k hk
      have hle := hlast.specificity_le hk
      rw [hplain] at hle
      exact specificity_eq_zero_iff.1 (Nat.le_zero.1 hle)
    · intro hall
      exact hall _ hlast.mem

instance : Decidable (v.Knows name) := decidable_of_iff _ v.isReactive_kindOfName_iff

/-- The kinds of those types that the vocabulary knows. -/
def knownKinds (v : Vocabulary) (names : List String) : List Kind :=
  (names.filter fun n => decide (v.Knows n)).map v.kindOfName

/-- The same types in another order, some of them again, or more of them that are not known. -/
inductive Varies (v : Vocabulary) : List String → List String → Prop where
  | reordered {names others : List String} (h : names.Perm others) : Varies v names others
  | repeated (name : String) {names : List String} (h : name ∈ names) : Varies v names (name :: names)
  | unknown (name : String) {names : List String} (h : ¬ v.Knows name) : Varies v names (name :: names)
  | trans {names others further : List String} (h : Varies v names others)
      (h' : Varies v others further) : Varies v names further

theorem mem_knownKinds :
    k ∈ v.knownKinds names ↔ k ∈ names.map v.kindOfName ∧ k ≠ .plain := by
  simp only [knownKinds, List.mem_map, List.mem_filter, decide_eq_true_eq]
  constructor
  · rintro ⟨n, ⟨hmem, hknown⟩, rfl⟩
    exact ⟨⟨n, hmem, rfl⟩, fun hplain => v.kindOfName_eq_plain_iff.1 hplain hknown⟩
  · rintro ⟨⟨n, hmem, rfl⟩, hne⟩
    exact ⟨n, ⟨hmem, not_not.1 (mt v.kindOfName_eq_plain_iff.2 hne)⟩, rfl⟩

theorem knownKinds_eq_nil_iff : v.knownKinds names = [] ↔ ∀ n ∈ names, ¬ v.Knows n := by
  simp [knownKinds]

theorem mostSpecific_eq_plain_iff_knownKinds :
    mostSpecific (names.map v.kindOfName) = .plain ↔ v.knownKinds names = [] := by
  rw [mostSpecific_eq_plain_iff, knownKinds_eq_nil_iff, List.forall_mem_map]
  simp only [kindOfName_eq_plain_iff]

/-- On one line of widening, the most specific kind is the narrowest. -/
theorem narrowest_mostSpecific (hc : AllComparable (v.knownKinds names))
    (hne : v.knownKinds names ≠ []) :
    Narrowest (v.knownKinds names) (mostSpecific (names.map v.kindOfName)) := by
  have hreactive := mt mostSpecific_eq_plain_iff_knownKinds.1 hne
  have hnames : names.map v.kindOfName ≠ [] := by
    intro hnil
    rw [hnil] at hreactive
    exact hreactive rfl
  have hlast := lastMostSpecific_mostSpecific hnames
  have hmem := mem_knownKinds.2 ⟨hlast.mem, hreactive⟩
  refine ⟨hmem, ?_⟩
  intro j hj
  exact (hc _ hmem j hj).assignableTo (hlast.specificity_le (mem_knownKinds.1 hj).1)

theorem Varies.mem_iff (h : v.Varies names others) (hk : v.Knows name) :
    name ∈ names ↔ name ∈ others := by
  induction h with
  | reordered h => exact h.mem_iff
  | repeated again h =>
    rw [List.mem_cons, or_iff_right_of_imp]
    rintro rfl
    exact h
  | unknown new h =>
    rw [List.mem_cons, or_iff_right_of_imp]
    rintro rfl
    exact absurd hk h
  | trans _ _ ih ih' => exact ih.trans ih'

private theorem Varies.mem_knownKinds_iff (h : v.Varies names others) :
    k ∈ v.knownKinds names ↔ k ∈ v.knownKinds others := by
  simp only [knownKinds, List.mem_map, List.mem_filter, decide_eq_true_eq]
  apply exists_congr
  intro n
  apply and_congr_left
  intro _
  apply and_congr_left
  exact h.mem_iff

private theorem mostSpecific_varies (h : v.Varies names others) (hc : AllComparable (v.knownKinds names)) :
    mostSpecific (others.map v.kindOfName) = mostSpecific (names.map v.kindOfName) := by
  have hsame := fun i => h.mem_knownKinds_iff (k := i)
  by_cases hnone : v.knownKinds names = []
  · have hnone' : v.knownKinds others = [] := by
      apply List.eq_nil_iff_forall_not_mem.2
      intro i hi
      have hi' := (hsame i).2 hi
      rw [hnone] at hi'
      exact List.not_mem_nil hi'
    rw [mostSpecific_eq_plain_iff_knownKinds.2 hnone, mostSpecific_eq_plain_iff_knownKinds.2 hnone']
  · have hc' : AllComparable (v.knownKinds others) := by
      intro i hi j hj
      exact hc i ((hsame i).2 hi) j ((hsame j).2 hj)
    have hsome := narrowest_mostSpecific hc hnone
    have hsome' := narrowest_mostSpecific hc' (List.ne_nil_of_mem ((hsame _).1 hsome.mem))
    exact (hsome.unique hsome' hsame).symm

private theorem kindOf_of_knows (h : v.Knows name) : v.kindOf (some ⟨name, names⟩) = v.kindOfName name := by
  simp only [kindOf]
  rw [if_pos (v.isReactive_kindOfName_iff.2 h)]

private theorem kindOf_of_not_knows (h : ¬ v.Knows name) :
    v.kindOf (some ⟨name, names⟩) = mostSpecific (names.map v.kindOfName) := by
  simp only [kindOf]
  rw [if_neg (mt v.isReactive_kindOfName_iff.1 h)]

/-- A name that is known decides by itself. Any other type has a kind iff some supertype is known; where the kinds
found are comparable, it is one of them that may stand in for all, however the supertypes are listed, and
where they are not, it is the last of the most specific ones. -/
theorem kindOf_by_supertypes (v : Vocabulary) (name : String) (supertypes : List String) :
    (v.Knows name → v.kindOf (some ⟨name, supertypes⟩) = v.kindOfName name) ∧
    (¬ v.Knows name →
      (v.kindOf (some ⟨name, supertypes⟩) = .plain ↔ ∀ s ∈ supertypes, ¬ v.Knows s) ∧
      (AllComparable (v.knownKinds supertypes) →
        ((∃ s ∈ supertypes, v.Knows s) →
          v.kindOf (some ⟨name, supertypes⟩) ∈ v.knownKinds supertypes) ∧
        (∀ k ∈ v.knownKinds supertypes,
          (v.kindOf (some ⟨name, supertypes⟩)).assignableTo k = true) ∧
        ∀ others, v.Varies supertypes others →
          v.kindOf (some ⟨name, others⟩) = v.kindOf (some ⟨name, supertypes⟩)) ∧
      (¬ AllComparable (v.knownKinds supertypes) →
        LastMostSpecific (supertypes.map v.kindOfName) (v.kindOf (some ⟨name, supertypes⟩)))) := by
  refine ⟨kindOf_of_knows, fun hname => ?_⟩
  simp only [kindOf_of_not_knows hname]
  refine ⟨?_, fun hc => ⟨?_, ?_, ?_⟩, fun hc => ?_⟩
  · rw [mostSpecific_eq_plain_iff_knownKinds, knownKinds_eq_nil_iff]
  · rintro ⟨s, hs, hknown⟩
    have hne : v.knownKinds supertypes ≠ [] := fun hnil => knownKinds_eq_nil_iff.1 hnil s hs hknown
    exact (narrowest_mostSpecific hc hne).mem
  · intro k hk
    exact (narrowest_mostSpecific hc (List.ne_nil_of_mem hk)).assignable k hk
  · intro others hothers
    exact mostSpecific_varies hothers hc
  · apply lastMostSpecific_mostSpecific
    intro hnil
    apply hc
    intro j hj
    rw [mem_knownKinds, hnil] at hj
    cases hj.1

/-- How the supertypes are listed counts only where a value holder meets a stream. -/
theorem kindOf_by_supertypes_counterStore :
    let v : Vocabulary := {}
    let kind (supertypes : List String) : Kind := v.kindOf (some ⟨"CounterStore", supertypes⟩)
    ¬ v.Knows "CounterStore" ∧
      AllComparable (v.knownKinds ["Flow<Int>", "StateFlow<Int>"]) ∧
      kind ["StateFlow<Int>", "Closeable", "Flow<Int>", "Flow<Int>"] =
        kind ["Flow<Int>", "StateFlow<Int>"] ∧
      ¬ AllComparable (v.knownKinds ["Flow<Int>", "State<Int>"]) ∧
      LastMostSpecific [.stream, .valueHolder] (kind ["Flow<Int>", "State<Int>"]) := by
  intro v kind
  have hname : ¬ v.Knows "CounterStore" := by decide
  have hline : AllComparable (v.knownKinds ["Flow<Int>", "StateFlow<Int>"]) := by decide
  have hmixed : ¬ AllComparable (v.knownKinds ["Flow<Int>", "State<Int>"]) := by decide
  have hvaries : v.Varies ["Flow<Int>", "StateFlow<Int>"]
      ["StateFlow<Int>", "Closeable", "Flow<Int>", "Flow<Int>"] := by
    apply Varies.trans (.repeated "Flow<Int>" (by decide))
    apply Varies.trans (.unknown "Closeable" (by decide))
    exact .reordered (by decide)
  obtain ⟨-, hcomparable, -⟩ := (v.kindOf_by_supertypes "CounterStore" _).2 hname
  obtain ⟨-, -, hlast⟩ := (v.kindOf_by_supertypes "CounterStore" _).2 hname
  exact ⟨hname, hline, (hcomparable hline).2.2 _ hvaries, hmixed, hlast hmixed⟩

end Vocabulary
end PassThrough

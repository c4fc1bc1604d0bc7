import Mathlib.Logic.Relation
import PassThrough.Reactive.Kind

/-! The order of kinds. A container may be passed where its own kind or a wider one is expected; the two families, value
holders and streams, do not meet. -/

namespace PassThrough.Kind
variable {k k' k'' : Kind}

/-- The second kind is the next wider one. -/
inductive Widens : Kind → Kind → Prop where
  | toValueHolder : Widens .mutableValueHolder .valueHolder
  | toHotStream : Widens .mutableHotStream .hotStream
  | toStream : Widens .hotStream .stream

def isValueHolder : Kind → Bool
  | .valueHolder => true
  | .mutableValueHolder => true
  | _ => false

def isStream : Kind → Bool
  | .stream => true
  | .hotStream => true
  | .mutableHotStream => true
  | _ => false

def isMutable : Kind → Bool
  | .mutableValueHolder => true
  | .mutableHotStream => true
  | _ => false

theorem isReactive_of_assignableTo (h : k.assignableTo k' = true) : k.isReactive = true := by
  cases k with
  | plain => cases h
  | _ => rfl

theorem isReactive_of_assignableTo_right (h : k.assignableTo k' = true) : k'.isReactive = true := by
  cases k' with
  | plain => cases k <;> cases h
  | _ => rfl

theorem assignableTo_self (h : k.isReactive = true) : k.assignableTo k = true := by
  cases k with
  | plain => cases h
  | _ => rfl

theorem assignableTo_trans (h : k.assignableTo k' = true) (h' : k'.assignableTo k'' = true) :
    k.assignableTo k'' = true := by
  revert h h'
  cases k <;> cases k' <;> cases k'' <;> decide

/-- A kind that may stand in for another lies deeper than it. -/
theorem specificity_lt_of_assignableTo (h : k.assignableTo k' = true) (hne : k ≠ k') :
    k'.specificity < k.specificity := by
  revert h hne
  cases k <;> cases k' <;> decide

theorem specificity_eq_zero_iff : k.specificity = 0 ↔ k = .plain := by
  cases k <;> decide

theorem assignableTo_antisymm (h : k.assignableTo k' = true) (h' : k'.assignableTo k = true) : k = k' := by
  by_cases heq : k = k'
  · exact heq
  · have hdeeper := specificity_lt_of_assignableTo h heq
    have hdeeper' := specificity_lt_of_assignableTo h' (Ne.symm heq)
    omega

theorem Widens.assignableTo (h : Widens k k') : k.assignableTo k' = true := by
  cases h <;> rfl

/-- A kind may stand in for those to which it widens, step by step, and for no others. -/
theorem assignableTo_iff_widens :
    k.assignableTo k' = true ↔ k.isReactive = true ∧ Relation.ReflTransGen Widens k k' := by
  constructor
  · intro h
    refine ⟨isReactive_of_assignableTo h, ?_⟩
    revert h
    fun_cases assignableTo k k' with
    | case1 => intro h; cases h
    | case2 => exact fun _ => .refl
    | case3 => exact fun _ => .single .toValueHolder
    | case4 => exact fun _ => .refl
    | case5 => exact fun _ => .refl
    | case6 => exact fun _ => .single .toStream
    | case7 => exact fun _ => .refl
    | case8 => exact fun _ => .tail (.single .toHotStream) .toStream
    | case9 => exact fun _ => .single .toHotStream
    | case10 => exact fun _ => .refl
    | case11 => intro h; cases h
  · rintro ⟨hreactive, hsteps⟩
    induction hsteps with
    | refl => exact assignableTo_self hreactive
    | tail _ hstep ih => exact assignableTo_trans ih hstep.assignableTo

/-- Widening stays in the family: what is passed as a stream was a stream, and so for value holders. -/
theorem family_eq_of_assignableTo (h : k.assignableTo k' = true) :
    k.isStream = k'.isStream ∧ k.isValueHolder = k'.isValueHolder := by
  revert h
  cases k <;> cases k' <;> decide

/-- Only what is mutable may be passed where something mutable is expected. -/
theorem isMutable_of_assignableTo (h : k.assignableTo k' = true) (hm : k'.isMutable = true) : k.isMutable = true := by
  revert h hm
  cases k <;> cases k' <;> decide

end PassThrough.Kind

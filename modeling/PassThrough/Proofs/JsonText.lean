import Mathlib.Data.List.TakeDrop
import PassThrough.Json.Printer
import PassThrough.Json.Reader

/-! JSON text read back. A value whose numbers are counts is read from its own text, whatever text follows that cannot extend
a number. -/

namespace PassThrough.Json
open Text

section Digits

private theorem naturalOfDigits_toDigits (n : Nat) : naturalOfDigits (Nat.toDigits 10 n) = n := by
  have hvalue : Nat.ofDigitChars 10 (Nat.toDigits 10 n) 0 = n := Nat.ofDigitChars_ten_toDigits
  rw [Nat.ofDigitChars_eq_foldl] at hvalue
  simpa only [naturalOfDigits, digitValue, Nat.mul_comm] using hvalue

private theorem head?_toDigits_ne_zero {n : Nat} (h : 0 < n) : (Nat.toDigits 10 n).head? ≠ some '0' := by
  induction n using Nat.strongRecOn with
  | ind n ih =>
    by_cases hn : n < 10
    · rw [Nat.toDigits_of_lt_base hn]
      have hdigit : ∀ k < 10, 0 < k → [Nat.digitChar k].head? ≠ some '0' := by decide
      exact hdigit n hn h
    · rw [Nat.toDigits_of_base_le (by omega) (by omega)]
      cases hhigh : Nat.toDigits 10 (n / 10) with
      | nil => exact absurd hhigh Nat.toDigits_ne_nil
      | cons c cs =>
        have hhead := ih (n / 10) (by omega) (by omega)
        rwa [hhigh] at hhead

/-- A number is written without leading zeros. -/
theorem toDigits_ne_zero_cons (n : Nat) (c : Char) (cs : List Char) : Nat.toDigits 10 n ≠ '0' :: c :: cs := by
  intro h
  rcases Nat.eq_zero_or_pos n with rfl | hn
  · simp [Nat.toDigits_zero] at h
  · exact head?_toDigits_ne_zero hn (by rw [h, List.head?_cons])

private theorem le_foldl_digits (value : Nat) (ds : List Nat) : value ≤ ds.foldl (fun n d => n * 10 + d) value := by
  induction ds generalizing value with
  | nil => exact Nat.le_refl _
  | cons d rest ih =>
    have hstep := ih (value * 10 + d)
    rw [List.foldl_cons]
    omega

/-- All digits of a count are significant. -/
theorem significand_eq (value : Nat) (ds : List Nat) (h : ds.foldl (fun n d => n * 10 + d) value < countLimit) :
    significand value ds = (ds.foldl (fun n d => n * 10 + d) value, 0) := by
  induction ds generalizing value with
  | nil => rfl
  | cons d rest ih =>
    rw [List.foldl_cons] at h
    have hfits : value * 10 + d < countLimit := Nat.lt_of_le_of_lt (le_foldl_digits _ rest) h
    rw [significand, if_pos hfits, ih _ h, List.foldl_cons]

/-- Rounding moves a count by less than a unit in the last place. -/
theorem roundToDouble_lt {n : Nat} (h : n < countLimit) : roundToDouble n < doubleLimit := by
  have hlog : n.log2 < 64 := by
    by_cases hn : n = 0
    · subst hn
      decide
    · exact (Nat.log2_lt hn).2 h
  have hunit : Nat.pow 2 (n.log2 + 1 - 53) ≤ Nat.pow 2 11 := Nat.pow_le_pow_right (by decide) (by omega)
  have hdown := Nat.div_mul_le_self n (Nat.pow 2 (n.log2 + 1 - 53))
  have hup : (n / Nat.pow 2 (n.log2 + 1 - 53) + 1) * Nat.pow 2 (n.log2 + 1 - 53) ≤ n + Nat.pow 2 11 := by
    rw [Nat.add_mul, Nat.one_mul]
    omega
  have hlimit : countLimit + Nat.pow 2 11 ≤ doubleLimit := by decide +kernel
  simp only [roundToDouble]
  split <;> omega

private theorem overflows_eq_false (whole : List Nat) (h : whole.foldl (fun n d => n * 10 + d) 0 < countLimit) :
    overflows whole [] 0 = false := by
  have hone : roundToDouble (Nat.pow 10 0) = 1 := by decide
  have hround := roundToDouble_lt h
  have hpower : (0 : Int) - ([] : List Nat).length + (0 : Nat) = 0 := rfl
  simp only [overflows, List.append_nil, significand_eq 0 whole h, hpower, Int.toNat_zero, hone, Nat.mul_one]
  split
  · rfl
  · rw [if_neg (by decide)]
    exact decide_eq_false (Nat.not_le.2 hround)

/-- The text cannot extend a number that stands before it. -/
def endsNumber : List Char → Bool
  | [] => true
  | c :: _ => !c.isDigit && c != '.' && c != 'e' && c != 'E'

private theorem readWhole_append {ds rest : List Char} (hdigits : ∀ c ∈ ds, c.isDigit = true) (hne : ds ≠ [])
    (hzero : ∀ c cs, ds ≠ '0' :: c :: cs) (hrest : endsNumber rest = true) : readWhole (ds ++ rest) = some (ds, rest) := by
  have hspan : (ds ++ rest).span Char.isDigit = (ds, rest) := by
    rw [List.span_eq_takeWhile_dropWhile, List.takeWhile_append_of_pos hdigits, List.dropWhile_append_of_pos hdigits]
    cases rest with
    | nil => simp
    | cons c cs =>
      have hc : c.isDigit = false := by
        simp only [endsNumber, Bool.and_eq_true, Bool.not_eq_true'] at hrest
        exact hrest.1.1.1
      simp [hc]
  rw [readWhole, hspan]
  split
  · rename_i h
    exact absurd (Prod.mk.inj h).1 hne
  · rename_i h
    exact absurd (Prod.mk.inj h).1 (hzero _ _)
  · rename_i h
    rw [h]

private theorem readFraction_of_endsNumber {rest : List Char} (h : endsNumber rest = true) :
    readFraction rest = some ([], rest) := by
  rw [readFraction.eq_def]
  split
  · simp [endsNumber] at h
  · rfl

private theorem readExponent_of_endsNumber {rest : List Char} (h : endsNumber rest = true) :
    readExponent rest = some (none, rest) := by
  cases rest with
  | nil => rfl
  | cons c cs =>
    simp only [endsNumber, Bool.and_eq_true, bne_iff_ne] at h
    simp [readExponent, h.1.2, h.2]

private theorem readNumber_natural {n : Nat} (hn : n < countLimit) {rest : List Char} (hrest : endsNumber rest = true) :
    readNumber ((toString n).toList ++ rest) = some (.natural n, rest) := by
  have hdigits : ∀ c ∈ Nat.toDigits 10 n, c.isDigit = true := fun c hc =>
    Nat.isDigit_of_mem_toDigits (by decide) (by decide) hc
  have hvalue := naturalOfDigits_toDigits n
  have hwhole := readWhole_append hdigits Nat.toDigits_ne_nil (toDigits_ne_zero_cons n) hrest
  have hoverflow : overflows ((Nat.toDigits 10 n).map digitValue) [] 0 = false := by
    apply overflows_eq_false
    rw [List.foldl_map]
    rw [naturalOfDigits] at hvalue
    omega
  have hsign : ∀ cs, Nat.toDigits 10 n ++ rest = '-' :: cs → False := by
    intro cs hcons
    cases hn : Nat.toDigits 10 n with
    | nil => exact Nat.toDigits_ne_nil hn
    | cons c ds =>
      rw [hn, List.cons_append] at hcons
      have hc := hdigits c (hn ▸ List.mem_cons_self)
      rw [(List.cons.inj hcons).1] at hc
      exact absurd hc (by decide)
  rw [Nat.toString_eq_ofList_toDigits, String.toList_ofList, readNumber]
  · simp [hwhole, readFraction_of_endsNumber hrest, readExponent_of_endsNumber hrest, hoverflow, hvalue]
  · exact hsign

end Digits

section Strings

private theorem readString_plain {c : Char} (hquote : c ≠ '"') (hslash : c ≠ '\\') (hlow : ¬ c.toNat < 0x20)
    (done tail : List Char) : readString done (c :: tail) = readString (c :: done) tail := by
  rw [readString]
  · simp [hslash, hlow]
  all_goals simp_all

private theorem readString_escaped {c d : Char} (hc : escaped? c = some d) (hu : c ≠ 'u') (done tail : List Char) :
    readString done ('\\' :: c :: tail) = readString (d :: done) tail := by
  rw [readString]
  · simp [hc]
  all_goals simp_all

private theorem readString_unicode {a b c d : Char} {n : Nat} (hn : hex4? a b c d = some n) (hlow : n < 0xD800)
    (done tail : List Char) :
    readString done ('\\' :: 'u' :: a :: b :: c :: d :: tail) = readString (Char.ofNat n :: done) tail := by
  have hsurrogate : ¬ 0xD800 ≤ n := by omega
  by_cases hpair : ∃ e f g h rest, tail = '\\' :: 'u' :: e :: f :: g :: h :: rest
  · obtain ⟨e, f, g, h, rest, rfl⟩ := hpair
    rw [readString]
    simp [hn, hsurrogate]
  · rw [readString]
    · simp [hn, hsurrogate]
    · intro e f g h rest htail
      exact hpair ⟨e, f, g, h, rest, htail⟩

private theorem hex4?_escape {k : Nat} (hk : k < 0x20) : hex4? '0' '0' (hexDigit (k / 16)) (hexDigit (k % 16)) = some k := by
  have hall : ∀ k < 0x20, hex4? '0' '0' (hexDigit (k / 16)) (hexDigit (k % 16)) = some k := by decide
  exact hall k hk

/-- What a character is written as is read as the character. -/
theorem readString_escape (c : Char) (done tail : List Char) :
    readString done (escape c ++ tail) = readString (c :: done) tail := by
  unfold escape
  -- the seven characters that have a letter of their own
  iterate 7
    split
    · rename_i h
      obtain rfl := beq_iff_eq.1 h
      exact readString_escaped rfl (by decide) done tail
  split
  · rename_i hlow
    have hunicode := readString_unicode (hex4?_escape hlow) (by omega) done tail
    rwa [Char.ofNat_toNat] at hunicode
  · rename_i hquote hslash _ _ _ _ _ hlow
    exact readString_plain (by simpa using hquote) (by simpa using hslash) hlow done tail

theorem readString_flatMap (cs done rest : List Char) :
    readString done (cs.flatMap escape ++ '"' :: rest) = some (String.ofList (done.reverse ++ cs), rest) := by
  induction cs generalizing done with
  | nil =>
    rw [List.flatMap_nil, List.nil_append, readString, List.append_nil]
  | cons c cs ih =>
    rw [List.flatMap_cons, List.append_assoc, readString_escape, ih, List.reverse_cons, List.append_assoc]
    rfl

end Strings

section Values

mutual
/-- Every number in the value is a count. -/
def IsPlain : Json → Prop
  | .natural n => n < countLimit
  | .number _ => False
  | .array items => ItemsPlain items
  | .object members => MembersPlain members
  | _ => True
def ItemsPlain : List Json → Prop
  | [] => True
  | j :: rest => j.IsPlain ∧ ItemsPlain rest
def MembersPlain : List (String × Json) → Prop
  | [] => True
  | (_, j) :: rest => j.IsPlain ∧ MembersPlain rest
end

/-- The text starts with a character that begins a value: no blank, and no end of an array. -/
def startsValue : List Char → Bool
  | [] => false
  | c :: _ => !isGap c && c != ']'

theorem toList_quote (s : String) : (quote s).toList = '"' :: (s.toList.flatMap escape ++ ['"']) := by
  simp [quote]

/-- The items of an array as they stand between its brackets. -/
def itemsText (items : List Json) : List Char := (",".intercalate (renderItems items)).toList

def membersText (members : List (String × Json)) : List Char := (",".intercalate (renderMembers members)).toList

private theorem itemsText_singleton (j : Json) : itemsText [j] = j.render.toList := by
  simp [itemsText, renderItems]

private theorem itemsText_cons (j k : Json) (rest : List Json) :
    itemsText (j :: k :: rest) = j.render.toList ++ ',' :: itemsText (k :: rest) := by
  simp [itemsText, renderItems, String.toList_intercalate]

private theorem membersText_singleton (name : String) (j : Json) :
    membersText [(name, j)] = (quote name).toList ++ ':' :: j.render.toList := by
  simp [membersText, renderMembers]

private theorem membersText_cons (name : String) (j : Json) (m : String × Json) (rest : List (String × Json)) :
    membersText ((name, j) :: m :: rest) =
      (quote name).toList ++ ':' :: (j.render.toList ++ ',' :: membersText (m :: rest)) := by
  simp [membersText, renderMembers, String.toList_intercalate]

private theorem toList_render_array (items : List Json) :
    (array items).render.toList = '[' :: (itemsText items ++ [']']) := by
  simp [render, itemsText]

private theorem toList_render_object (members : List (String × Json)) :
    (object members).render.toList = '{' :: (membersText members ++ ['}']) := by
  simp [render, membersText]

theorem dropWhile_isGap {cs : List Char} (h : startsValue cs = true) : cs.dropWhile isGap = cs := by
  cases cs with
  | nil => rfl
  | cons c cs =>
    simp only [startsValue, Bool.and_eq_true, Bool.not_eq_true'] at h
    rw [List.dropWhile_cons_of_neg (by simp [h.1])]

theorem startsValue_append {cs : List Char} (h : startsValue cs = true) (rest : List Char) :
    startsValue (cs ++ rest) = true := by
  cases cs with
  | nil => simp [startsValue] at h
  | cons c cs => exact h

theorem startsValue_quote (s : String) : startsValue (quote s).toList = true := by
  rw [toList_quote]
  rfl

private theorem exists_toList_toString (n : Nat) : ∃ c cs, (toString n).toList = c :: cs ∧ c.isDigit = true := by
  rw [Nat.toString_eq_ofList_toDigits, String.toList_ofList]
  cases hn : Nat.toDigits 10 n with
  | nil => exact absurd hn Nat.toDigits_ne_nil
  | cons c cs =>
    exact ⟨c, cs, rfl, Nat.isDigit_of_mem_toDigits (by decide) (by decide) (hn ▸ List.mem_cons_self)⟩

private theorem startsValue_of_isDigit {c : Char} (h : c.isDigit = true) (cs : List Char) :
    startsValue (c :: cs) = true := by
  have hne : ∀ d : Char, d.isDigit = false → c ≠ d := by
    rintro d hd rfl
    exact Bool.eq_false_iff.1 hd h
  simp [startsValue, isGap, hne ' ' rfl, hne '\n' rfl, hne '\t' rfl, hne '\r' rfl, hne ']' rfl]

theorem startsValue_render {j : Json} (hj : j.IsPlain) : startsValue j.render.toList = true := by
  cases j with
  | null => decide
  | bool b => cases b <;> decide
  | natural n =>
    obtain ⟨c, cs, hcons, hdigit⟩ := exists_toList_toString n
    rw [render, hcons]
    exact startsValue_of_isDigit hdigit cs
  | number literal => exact hj.elim
  | string s => exact startsValue_quote s
  | array items =>
    rw [toList_render_array]
    rfl
  | object members =>
    rw [toList_render_object]
    rfl

/-! What the reader does once the first character is known, so that the induction below follows the value. -/

variable (fuel depth : Nat) (rest : List Char)

private theorem readValue_natural {n : Nat} (hn : n < countLimit) (hrest : endsNumber rest = true) :
    readValue (fuel + 1) depth ((toString n).toList ++ rest) = some (.natural n, rest) := by
  have hread := readNumber_natural hn hrest
  obtain ⟨c, cs, hcons, hdigit⟩ := exists_toList_toString n
  rw [hcons, List.cons_append] at hread ⊢
  rw [readValue, dropWhile_isGap (startsValue_of_isDigit hdigit _)]
  split
  case h_7 => exact hread
  -- no other value starts with a digit
  all_goals
    rename_i h
    rw [(List.cons.inj h).1] at hdigit
    exact absurd hdigit (by decide)

private theorem readValue_quote (s : String) :
    readValue (fuel + 1) depth ((quote s).toList ++ rest) = some (.string s, rest) := by
  rw [readValue, dropWhile_isGap (startsValue_append (startsValue_quote s) rest), toList_quote, List.cons_append,
    List.append_assoc, List.singleton_append]
  simp [readString_flatMap]

private theorem readValue_openArray {cs : List Char} (h : startsValue cs = true) :
    readValue (fuel + 1) (depth + 1) ('[' :: cs) = readItems fuel depth [] cs := by
  rw [readValue, dropWhile_isGap rfl]
  simp only [dropWhile_isGap h]
  split
  · simp_all
  · simp_all [startsValue]
  · simp_all

private theorem readValue_openObject {cs : List Char} :
    readValue (fuel + 1) (depth + 1) ('{' :: '"' :: cs) = readMembers fuel depth [] ('"' :: cs) := by
  rw [readValue, dropWhile_isGap rfl]
  rfl

private theorem readItems_next {j : Json} {done : List Json} {cs : List Char}
    (h : readValue fuel depth cs = some (j, ',' :: rest)) :
    readItems (fuel + 1) depth done cs = readItems fuel depth (j :: done) rest := by
  simp [readItems, h, isGap]

private theorem readItems_close {j : Json} {done : List Json} {cs : List Char}
    (h : readValue fuel depth cs = some (j, ']' :: rest)) :
    readItems (fuel + 1) depth done cs = some (.array (done.reverse ++ [j]), rest) := by
  simp [readItems, h, isGap]

private theorem readMembers_next {name : String} {j : Json} {done : List (String × Json)} {cs : List Char}
    (h : readValue fuel depth cs = some (j, ',' :: rest)) :
    readMembers (fuel + 1) depth done ((quote name).toList ++ ':' :: cs) =
      readMembers fuel depth ((name, j) :: done) rest := by
  rw [readMembers, dropWhile_isGap (startsValue_append (startsValue_quote name) _), toList_quote]
  simp [readString_flatMap, h, isGap]

private theorem readMembers_close {name : String} {j : Json} {done : List (String × Json)} {cs : List Char}
    (h : readValue fuel depth cs = some (j, '}' :: rest)) :
    readMembers (fuel + 1) depth done ((quote name).toList ++ ':' :: cs) =
      some (.object (done.reverse ++ [(name, j)]), rest) := by
  rw [readMembers, dropWhile_isGap (startsValue_append (startsValue_quote name) _), toList_quote]
  simp [readString_flatMap, h, isGap]

private theorem exists_membersText (m : String × Json) (members : List (String × Json)) :
    ∃ cs, membersText (m :: members) = '"' :: cs := by
  cases members with
  | nil => exact ⟨_, by rw [membersText_singleton, toList_quote, List.cons_append]⟩
  | cons n members => exact ⟨_, by rw [membersText_cons, toList_quote, List.cons_append]⟩

private theorem startsValue_itemsText {j : Json} (hj : j.IsPlain) (items : List Json) :
    startsValue (itemsText (j :: items)) = true := by
  cases items with
  | nil =>
    rw [itemsText_singleton]
    exact startsValue_render hj
  | cons k items =>
    rw [itemsText_cons]
    exact startsValue_append (startsValue_render hj) _

private theorem length_pos_of_startsValue {cs : List Char} (h : startsValue cs = true) : 0 < cs.length := by
  cases cs with
  | nil => simp [startsValue] at h
  | cons c cs => exact Nat.succ_pos _

-- Each step of the reader takes a character or goes on to a part of the value, so two steps for each character are enough.
mutual
private theorem readValue_render : ∀ (j : Json) (fuel depth : Nat) (rest : List Char), j.IsPlain →
    2 * j.render.toList.length ≤ fuel → j.depth ≤ depth → endsNumber rest = true →
    readValue fuel depth (j.render.toList ++ rest) = some (j, rest)
  | j, 0, _, _ => by
    intro hj hfuel
    have hpos := length_pos_of_startsValue (startsValue_render hj)
    omega
  | .null, _ + 1, _, _ => fun _ _ _ _ => rfl
  | .bool true, _ + 1, _, _ => fun _ _ _ _ => rfl
  | .bool false, _ + 1, _, _ => fun _ _ _ _ => rfl
  | .natural _, fuel + 1, depth, rest => fun hj _ _ hrest => readValue_natural fuel depth rest hj hrest
  | .number _, _ + 1, _, _ => fun hj => hj.elim
  | .string s, fuel + 1, depth, rest => fun _ _ _ _ => readValue_quote fuel depth rest s
  | .array _, _ + 1, 0, _ => fun _ _ hdepth => absurd hdepth (Nat.not_succ_le_zero _)
  | .array [], _ + 1, _ + 1, _ => fun _ _ _ _ => rfl
  | .array (j :: items), fuel + 1, depth + 1, rest => by
    intro hj hfuel hdepth _
    rw [toList_render_array] at hfuel ⊢
    simp only [List.length_cons, List.length_append] at hfuel
    have hstart := startsValue_append (startsValue_itemsText hj.1 items) (']' :: rest)
    rw [List.cons_append, List.append_assoc, List.singleton_append, readValue_openArray fuel depth hstart]
    exact readItems_render j items fuel depth [] rest hj (by omega) (Nat.le_of_succ_le_succ hdepth)
  | .object _, _ + 1, 0, _ => fun _ _ hdepth => absurd hdepth (Nat.not_succ_le_zero _)
  | .object [], _ + 1, _ + 1, _ => fun _ _ _ _ => rfl
  | .object (m :: members), fuel + 1, depth + 1, rest => by
    intro hj hfuel hdepth _
    rw [toList_render_object] at hfuel ⊢
    simp only [List.length_cons, List.length_append] at hfuel
    have hread := readMembers_render m members fuel depth [] rest hj (by omega) (Nat.le_of_succ_le_succ hdepth)
    obtain ⟨cs, hcs⟩ := exists_membersText m members
    rw [hcs] at hread ⊢
    rw [List.cons_append, List.append_assoc, List.cons_append, readValue_openObject fuel depth]
    exact hread
private theorem readItems_render : ∀ (j : Json) (items : List Json) (fuel depth : Nat) (done : List Json) (rest : List Char),
    ItemsPlain (j :: items) → 2 * (itemsText (j :: items)).length + 1 ≤ fuel → depthItems (j :: items) ≤ depth →
    readItems fuel depth done (itemsText (j :: items) ++ ']' :: rest) = some (.array (done.reverse ++ j :: items), rest)
  | _, _, 0, _, _, _ => fun _ hfuel => absurd hfuel (Nat.not_succ_le_zero _)
  | j, [], fuel + 1, depth, done, rest => by
    intro hj hfuel hdepth
    rw [itemsText_singleton] at hfuel ⊢
    rw [depthItems, Nat.max_le] at hdepth
    exact readItems_close fuel depth rest (readValue_render j fuel depth (']' :: rest) hj.1 (by omega) hdepth.1 rfl)
  | j, k :: items, fuel + 1, depth, done, rest => by
    intro hj hfuel hdepth
    rw [itemsText_cons] at hfuel ⊢
    simp only [List.length_cons, List.length_append] at hfuel
    rw [depthItems, Nat.max_le] at hdepth
    have hfirst := readValue_render j fuel depth (',' :: (itemsText (k :: items) ++ ']' :: rest)) hj.1 (by omega) hdepth.1 rfl
    rw [List.append_assoc, List.cons_append, readItems_next fuel depth _ hfirst,
      readItems_render k items fuel depth (j :: done) rest hj.2 (by omega) hdepth.2, List.reverse_cons, List.append_assoc]
    rfl
private theorem readMembers_render : ∀ (m : String × Json) (members : List (String × Json)) (fuel depth : Nat)
    (done : List (String × Json)) (rest : List Char), MembersPlain (m :: members) →
    2 * (membersText (m :: members)).length + 1 ≤ fuel → depthMembers (m :: members) ≤ depth →
    readMembers fuel depth done (membersText (m :: members) ++ '}' :: rest) = some (.object (done.reverse ++ m :: members), rest)
  | _, _, 0, _, _, _ => fun _ hfuel => absurd hfuel (Nat.not_succ_le_zero _)
  | (name, j), [], fuel + 1, depth, done, rest => by
    intro hj hfuel hdepth
    rw [membersText_singleton] at hfuel ⊢
    simp only [List.length_cons, List.length_append] at hfuel
    rw [depthMembers, Nat.max_le] at hdepth
    rw [List.append_assoc, List.cons_append]
    exact readMembers_close fuel depth rest (readValue_render j fuel depth ('}' :: rest) hj.1 (by omega) hdepth.1 rfl)
  | (name, j), m :: members, fuel + 1, depth, done, rest => by
    intro hj hfuel hdepth
    rw [membersText_cons] at hfuel ⊢
    simp only [List.length_cons, List.length_append] at hfuel
    rw [depthMembers, Nat.max_le] at hdepth
    have hfirst := readValue_render j fuel depth (',' :: (membersText (m :: members) ++ '}' :: rest)) hj.1 (by omega) hdepth.1 rfl
    rw [List.append_assoc, List.cons_append, List.append_assoc, List.cons_append, readMembers_next fuel depth _ hfirst,
      readMembers_render m members fuel depth ((name, j) :: done) rest hj.2 (by omega) hdepth.2, List.reverse_cons,
      List.append_assoc]
    rfl
end

/-- The value can be read from its own text: its numbers are counts and it nests at most `depth` arrays and objects. -/
structure Readable (depth : Nat) (j : Json) : Prop where
  plain : j.IsPlain
  shallow : j.depth ≤ depth

/-- A value is the only one in its own text. -/
theorem Readable.first?_render {depth : Nat} {j : Json} (h : Readable depth j) : first? depth j.render = some (j, []) := by
  have hread := readValue_render j (2 * j.render.toList.length + 2) depth [] h.plain (by omega) h.shallow rfl
  rwa [List.append_nil] at hread

theorem Readable.parse?_render {depth : Nat} {j : Json} (h : Readable depth j) : parse? depth j.render = some j := by
  rw [parse?, h.first?_render]
  rfl

theorem exists_first?_of_parse? {depth : Nat} {text : String} {j : Json} (h : parse? depth text = some j) :
    ∃ rest, first? depth text = some (j, rest) ∧ rest.all isGap = true := by
  rw [parse?] at h
  split at h
  · rename_i k rest hfirst
    split at h
    · rename_i hend
      cases h
      exact ⟨rest, hfirst, hend⟩
    · cases h
  · cases h

end Values
end PassThrough.Json

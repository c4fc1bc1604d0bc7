import Mathlib.Data.List.Basic
import Mathlib.Data.List.TakeWhile
import PassThrough.Reactive.Vocabulary

/-! Type names and how they are written. Around a bare name may stand blanks, a package before it, marks of nullability and
type arguments behind it. The vocabulary gives all of these the kind of the last group that lists the name, in whatever
spelling the group does so. -/

namespace PassThrough

namespace Text

variable {p : Char → Bool} {front cs tail : List Char}

/-- Text after which a new segment starts: none at all, or some that ends in a dot. -/
def EndsSegment (front : List Char) : Prop := ∀ c ∈ front.getLast?, c = '.'

private theorem dropWhile_append_of_head (h : ∀ c ∈ cs.head?, p c = false) :
    (front ++ cs).dropWhile p = front.dropWhile p ++ cs := by
  have hcs : cs.dropWhile p = cs := by
    cases cs with
    | nil => rfl
    | cons c cs => rw [List.dropWhile_cons, h c rfl, if_neg Bool.false_ne_true]
  rw [List.dropWhile_append, hcs]
  split
  · rename_i hempty
    rw [List.isEmpty_iff.1 hempty, List.nil_append]
  · rfl

private theorem dropEndWhile_append (hcs : ∀ c ∈ cs.getLast?, p c = false) (htail : ∀ c ∈ tail, p c = true) :
    dropEndWhile p (cs ++ tail) = cs := by
  have hnone : tail.reverse.dropWhile p = [] := by
    apply List.dropWhile_eq_nil_iff.2
    intro c hc
    exact htail c (List.mem_reverse.1 hc)
  rw [← List.head?_reverse] at hcs
  rw [dropEndWhile, List.reverse_append, dropWhile_append_of_head hcs, hnone, List.nil_append,
    List.reverse_reverse]

theorem EndsSegment.dropWhile (h : EndsSegment front) : EndsSegment (front.dropWhile p) := by
  intro c hc
  apply h c
  obtain ⟨dropped, hsplit⟩ := List.dropWhile_suffix (l := front) p
  rw [← hsplit, List.getLast?_append, hc]
  rfl

private theorem bne_of_notMem {x : Char} (h : x ∉ cs) : ∀ c ∈ cs, (c != x) = true := by
  intro c hc
  apply bne_iff_ne.2
  rintro rfl
  exact h hc

private theorem lastSegment_append (hfront : EndsSegment front) (hcs : '.' ∉ cs) :
    lastSegment (front ++ cs) = cs := by
  have hall := bne_of_notMem (mt List.mem_reverse.1 hcs)
  have hstop : front.reverse.takeWhile (· != '.') = [] := by
    cases hrev : front.reverse with
    | nil => rfl
    | cons c rest =>
      have hc : c = '.' := hfront c (by rw [← List.head?_reverse, hrev]; rfl)
      simp [hc]
  rw [lastSegment, takeEndWhile, List.reverse_append, List.takeWhile_append_of_pos hall, hstop,
    List.append_nil, List.reverse_reverse]

end Text

/-- A type name by itself, with nothing about it that a spelling adds. -/
structure IsBareName (n : String) : Prop where
  ne_empty : n ≠ ""
  no_angle : '<' ∉ n.toList
  no_dot : '.' ∉ n.toList
  no_mark : n.toList.getLast? ≠ some '?'
  starts : ∀ c ∈ n.toList.head?, Text.isBlank c = false
  ends : ∀ c ∈ n.toList.getLast?, Text.isBlank c = false

theorem IsBareName.toList_ne_nil {n : String} (hn : IsBareName n) : n.toList ≠ [] :=
  fun h => hn.ne_empty (String.toList_eq_nil_iff.1 h)

/-- What is written around a bare name. The qualifier has no type arguments of its own, and the text of the
arguments is free. -/
structure Spelling where
  before : String := ""
  qualifier : Option String := none
  marks : Nat := 0
  after : String := ""
  arguments : Option String := none
  before_blank : ∀ c ∈ before.toList, Text.isBlank c = true
  qualifier_plain : ∀ q ∈ qualifier, '<' ∉ q.toList
  after_blank : ∀ c ∈ after.toList, Text.isBlank c = true

namespace Spelling

variable {n : String}

def qualifierText (s : Spelling) : String := s.qualifier.elim "" (· ++ ".")

def marksText (s : Spelling) : String := String.ofList (List.replicate s.marks '?')

def argumentsText (s : Spelling) : String := s.arguments.elim "" ("<" ++ ·)

def write (s : Spelling) (n : String) : String :=
  s.before ++ s.qualifierText ++ n ++ s.marksText ++ s.after ++ s.argumentsText

/-- What is left of the text before the name once blanks are trimmed. -/
def lead (s : Spelling) : List Char := (s.before ++ s.qualifierText).toList.dropWhile Text.isBlank

theorem mem_marksText {s : Spelling} {c : Char} (h : c ∈ s.marksText.toList) : c = '?' := by
  rw [marksText, String.toList_ofList] at h
  exact List.eq_of_mem_replicate h

private theorem endsSegment_qualifierText (s : Spelling) : Text.EndsSegment s.qualifierText.toList := by
  intro c hc
  rw [qualifierText] at hc
  cases hq : s.qualifier with
  | none => simp [hq] at hc
  | some q => simpa [hq, eq_comm] using hc

private theorem endsSegment_lead (s : Spelling) : Text.EndsSegment s.lead := by
  rw [lead, String.toList_append, List.dropWhile_append_of_pos s.before_blank]
  exact s.endsSegment_qualifierText.dropWhile

private theorem angle_notMem_qualifierText (s : Spelling) : '<' ∉ s.qualifierText.toList := by
  intro h
  rw [qualifierText] at h
  cases hq : s.qualifier with
  | none => simp [hq] at h
  | some q => exact s.qualifier_plain q hq (by simpa [hq] using h)

private theorem angle_notMem (s : Spelling) (hn : IsBareName n) :
    '<' ∉ (s.before ++ s.qualifierText).toList ++ (n ++ s.marksText).toList ++ s.after.toList := by
  simp only [String.toList_append, List.mem_append, not_or]
  refine ⟨⟨⟨?_, s.angle_notMem_qualifierText⟩, hn.no_angle, ?_⟩, ?_⟩
  · intro h
    exact absurd (s.before_blank _ h) (by decide)
  · intro h
    exact absurd (mem_marksText h) (by decide)
  · intro h
    exact absurd (s.after_blank _ h) (by decide)

private theorem takeWhile_argumentsText (s : Spelling) :
    s.argumentsText.toList.takeWhile (· != '<') = [] := by
  rw [argumentsText]
  cases s.arguments with
  | none => rfl
  | some a => simp

/-- The type arguments are cut off first, so what they hold does not matter. -/
theorem takeWhile_write (s : Spelling) (hn : IsBareName n) :
    (s.write n).toList.takeWhile (· != '<') =
      (s.before ++ s.qualifierText).toList ++ (n ++ s.marksText).toList ++ s.after.toList := by
  have hwrite : (s.write n).toList = ((s.before ++ s.qualifierText).toList ++
      (n ++ s.marksText).toList ++ s.after.toList) ++ s.argumentsText.toList := by
    simp only [write, String.toList_append, List.append_assoc]
  rw [hwrite, List.takeWhile_append_of_pos (Text.bne_of_notMem (s.angle_notMem hn)),
    takeWhile_argumentsText, List.append_nil]

private theorem trimWhile_write (s : Spelling) (hn : IsBareName n) :
    Text.trimWhile Text.isBlank ((s.write n).toList.takeWhile (· != '<')) =
      s.lead ++ (n ++ s.marksText).toList := by
  -- name and marks neither start nor end in a blank, so trimming stops at both ends of them
  have hhead : ∀ c ∈ ((n ++ s.marksText).toList ++ s.after.toList).head?, Text.isBlank c = false := by
    intro c hc
    apply hn.starts c
    rw [String.toList_append, List.append_assoc,
      List.head?_append_of_ne_nil _ hn.toList_ne_nil] at hc
    exact hc
  have hlast : ∀ c ∈ (s.lead ++ (n ++ s.marksText).toList).getLast?, Text.isBlank c = false := by
    intro c hc
    rw [String.toList_append, ← List.append_assoc, List.getLast?_append] at hc
    rcases hmark : s.marksText.toList.getLast? with _ | mark
    · rw [hmark, Option.none_or, List.getLast?_append_of_ne_nil _ hn.toList_ne_nil] at hc
      exact hn.ends c hc
    · rw [hmark, Option.some_or] at hc
      obtain rfl := Option.some.inj hc
      rw [mem_marksText (List.mem_of_getLast? hmark)]
      decide
  rw [takeWhile_write s hn, Text.trimWhile, List.append_assoc, Text.dropWhile_append_of_head hhead,
    ← List.append_assoc]
  exact Text.dropEndWhile_append hlast s.after_blank

private theorem simpleTypeName_write (s : Spelling) (hn : IsBareName n) : simpleTypeName (s.write n) = n := by
  have hlast : ∀ c ∈ (s.lead ++ n.toList).getLast?, (c == '?') = false := by
    intro c hc
    rw [List.getLast?_append_of_ne_nil _ hn.toList_ne_nil] at hc
    apply beq_eq_false_iff_ne.2
    rintro rfl
    exact hn.no_mark hc
  have hmarks : ∀ c ∈ s.marksText.toList, (c == '?') = true := by
    intro c hc
    exact beq_iff_eq.2 (mem_marksText hc)
  rw [simpleTypeName, trimWhile_write s hn, String.toList_append, ← List.append_assoc,
    Text.dropEndWhile_append hlast hmarks, Text.lastSegment_append s.endsSegment_lead hn.no_dot,
    String.ofList_toList]

end Spelling

/-- Names that stand for containers of one kind. -/
structure TypeGroup where
  kind : Kind
  names : List String

namespace TypeGroup

variable {g : TypeGroup} {n : String} {k : Kind}

/-- One of the names is `n` in some spelling. -/
def Lists (g : TypeGroup) (n : String) : Prop := ∃ m ∈ g.names, simpleTypeName m = n

def entries (g : TypeGroup) : List (String × Kind) :=
  g.names.map fun m => (simpleTypeName m, g.kind)

/-- `k` is the kind of the last group that lists `n`, and `plain` if no group does. -/
inductive LastListing (n : String) (groups : List TypeGroup) : Kind → Prop where
  | listed {g : TypeGroup} {earlier later : List TypeGroup} (hsplit : groups = earlier ++ g :: later)
      (hg : g.Lists n) (hlater : ∀ g' ∈ later, ¬ g'.Lists n) : LastListing n groups g.kind
  | unlisted (h : ∀ g ∈ groups, ¬ g.Lists n) : LastListing n groups .plain

theorem lookup_entries_eq_none_iff : g.entries.lookup n = none ↔ ¬ g.Lists n := by
  rw [List.lookup_eq_none_iff]
  simp only [entries, Lists, List.forall_mem_map, bne_iff_ne, not_exists, not_and, ne_comm (a := n)]

theorem lookup_entries_eq_some_iff : g.entries.lookup n = some k ↔ g.Lists n ∧ g.kind = k := by
  have hkind : ∀ j, g.entries.lookup n = some j → g.kind = j := by
    intro j hj
    obtain ⟨l₁, l₂, hsplit, -⟩ := List.lookup_eq_some_iff.1 hj
    have hmem : (n, j) ∈ g.entries := by simp [hsplit]
    obtain ⟨m, -, hm⟩ := List.mem_map.1 hmem
    exact (Prod.mk.inj hm).2
  constructor
  · intro hk
    refine ⟨?_, hkind k hk⟩
    by_contra hlists
    rw [lookup_entries_eq_none_iff.2 hlists] at hk
    cases hk
  · rintro ⟨hlists, rfl⟩
    cases hfound : g.entries.lookup n with
    | none => exact absurd hlists (lookup_entries_eq_none_iff.1 hfound)
    | some j => rw [hkind j hfound]

private theorem lookup_flatMap_entries (gs : List TypeGroup) (n : String) :
    (gs.flatMap entries).lookup n = gs.findSome? fun g => g.entries.lookup n := by
  induction gs with
  | nil => rfl
  | cons g gs ih =>
    rw [List.flatMap_cons, List.lookup_append, ih, List.findSome?_cons]
    cases g.entries.lookup n with
    | none => rfl
    | some k => rfl

private theorem findSome?_reverse_eq_none_iff {gs : List TypeGroup} :
    (gs.reverse.findSome? fun g => g.entries.lookup n) = none ↔ ∀ g ∈ gs, ¬ g.Lists n := by
  simp only [List.findSome?_eq_none_iff, List.mem_reverse, lookup_entries_eq_none_iff]

private theorem findSome?_reverse_eq_some_iff {gs : List TypeGroup} :
    (gs.reverse.findSome? fun g => g.entries.lookup n) = some k ↔
      ∃ earlier g later, gs = earlier ++ g :: later ∧ (g.Lists n ∧ g.kind = k) ∧
        ∀ g' ∈ later, ¬ g'.Lists n := by
  simp only [List.findSome?_eq_some_iff, lookup_entries_eq_some_iff, lookup_entries_eq_none_iff]
  constructor
  · rintro ⟨later, g, earlier, hsplit, hg, hlater⟩
    refine ⟨earlier.reverse, g, later.reverse, ?_, hg, ?_⟩
    · simp [List.reverse_eq_iff.1 hsplit]
    · intro g' hg'
      exact hlater g' (List.mem_reverse.1 hg')
  · rintro ⟨earlier, g, later, rfl, hg, hlater⟩
    refine ⟨later.reverse, g, earlier.reverse, by simp, hg, ?_⟩
    intro g' hg'
    exact hlater g' (List.mem_reverse.1 hg')

/-- Looking through the groups from the last one on finds the kind that counts. -/
theorem lookup_reverse_eq_iff (gs : List TypeGroup) :
    ((gs.reverse.flatMap entries).lookup n).getD .plain = k ↔ LastListing n gs k := by
  rw [lookup_flatMap_entries]
  constructor
  · rintro rfl
    cases hfound : gs.reverse.findSome? fun g => g.entries.lookup n with
    | none => exact .unlisted (findSome?_reverse_eq_none_iff.1 hfound)
    | some j =>
      obtain ⟨earlier, g, later, hsplit, ⟨hg, rfl⟩, hlater⟩ :=
        findSome?_reverse_eq_some_iff.1 hfound
      exact .listed hsplit hg hlater
  · intro h
    cases h with
    | listed hsplit hg hlater =>
      rw [findSome?_reverse_eq_some_iff.2 ⟨_, _, _, hsplit, ⟨hg, rfl⟩, hlater⟩, Option.getD_some]
    | unlisted h => rw [findSome?_reverse_eq_none_iff.2 h, Option.getD_none]

end TypeGroup

namespace Vocabulary

variable {n raw : String} {k : Kind}

/-- The groups of the vocabulary, the one that takes precedence over all others last. -/
def groups (v : Vocabulary) : List TypeGroup :=
  [⟨.valueHolder, v.valueHolder⟩, ⟨.mutableValueHolder, v.mutableValueHolder⟩, ⟨.stream, v.stream⟩,
    ⟨.hotStream, v.hotStream⟩, ⟨.mutableHotStream, v.mutableHotStream⟩]

/-- Some group lists the type. -/
def Knows (v : Vocabulary) (raw : String) : Prop := ∃ g ∈ v.groups, g.Lists (simpleTypeName raw)

private theorem kinds_eq (v : Vocabulary) : v.kinds = v.groups.reverse.flatMap TypeGroup.entries := by
  simp [kinds, groups, TypeGroup.entries]

private theorem kindOfName_eq_iff (v : Vocabulary) :
    v.kindOfName raw = k ↔ TypeGroup.LastListing (simpleTypeName raw) v.groups k := by
  rw [kindOfName, kinds_eq]
  exact TypeGroup.lookup_reverse_eq_iff v.groups

private theorem isReactive_of_mem_groups {v : Vocabulary} {g : TypeGroup} (h : g ∈ v.groups) :
    g.kind.isReactive = true := by
  simp only [groups, List.mem_cons, List.not_mem_nil, or_false] at h
  rcases h with rfl | rfl | rfl | rfl | rfl <;> rfl

theorem isReactive_kindOfName_iff (v : Vocabulary) :
    (v.kindOfName raw).isReactive = true ↔ v.Knows raw := by
  have hlast := v.kindOfName_eq_iff.1 (rfl : v.kindOfName raw = v.kindOfName raw)
  generalize v.kindOfName raw = k at hlast
  cases hlast with
  | @listed g earlier later hsplit hg hlater =>
    have hmem : g ∈ v.groups := by simp [hsplit]
    exact iff_of_true (isReactive_of_mem_groups hmem) ⟨g, hmem, hg⟩
  | unlisted hnone =>
    apply iff_of_false Bool.false_ne_true
    rintro ⟨g, hmem, hg⟩
    exact hnone g hmem hg

theorem kindOfName_eq_plain_iff (v : Vocabulary) : v.kindOfName raw = .plain ↔ ¬ v.Knows raw := by
  rw [← isReactive_kindOfName_iff, Kind.isReactive, bne_iff_ne, not_not]

/-- Every spelling of a bare name is reduced to that name, and all of them have the kind of the last group
that lists it. -/
theorem kindOfName_any_spelling (v : Vocabulary) (hn : IsBareName n) (s : Spelling) :
    simpleTypeName (s.write n) = n ∧
      (∀ t : Spelling, v.kindOfName (t.write n) = v.kindOfName (s.write n)) ∧
      ∀ k, v.kindOfName (s.write n) = k ↔ TypeGroup.LastListing n v.groups k := by
  have hname (t : Spelling) : simpleTypeName (t.write n) = n := t.simpleTypeName_write hn
  refine ⟨hname s, ?_, ?_⟩
  · intro t
    rw [kindOfName, kindOfName, hname t, hname s]
  · intro k
    rw [kindOfName_eq_iff, hname s]

/-- Two groups list the type, each in a spelling of its own, and the later one decides. -/
theorem kindOfName_any_spelling_store :
    let v : Vocabulary := { stream := ["app.Store<T>"], hotStream := ["SharedFlow", " Store? "] }
    IsBareName "Store" ∧
      v.kindOfName " app.model?.Store?? <List<a.b>?, (c) -> d.E>?" = .hotStream := by
  intro v
  have hblank : ∀ c ∈ " ".toList, Text.isBlank c = true := by
    intro c hc
    obtain rfl : c = ' ' := by simpa using hc
    rfl
  let s : Spelling :=
    { before := " ", qualifier := some "app.model?", marks := 2, after := " "
      arguments := some "List<a.b>?, (c) -> d.E>?"
      before_blank := hblank, qualifier_plain := by simp, after_blank := hblank }
  have hn : IsBareName "Store" :=
    { ne_empty := by decide, no_angle := by decide, no_dot := by decide, no_mark := by decide
      starts := by simp [Text.isBlank], ends := by simp [Text.isBlank] }
  have hgroups : v.groups = v.groups.take 3 ++ ⟨.hotStream, v.hotStream⟩ :: v.groups.drop 4 := rfl
  refine ⟨hn, ((v.kindOfName_any_spelling hn s).2.2 .hotStream).2 (.listed hgroups ?_ ?_)⟩
  · exact ⟨" Store? ", by decide, by decide⟩
  · intro g hg
    obtain rfl := List.mem_singleton.1 hg
    rintro ⟨m, hm, hname⟩
    revert m
    decide

end Vocabulary
end PassThrough

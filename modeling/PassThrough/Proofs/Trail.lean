import Mathlib.Data.List.Infix
import PassThrough.Files.Tree

/-! Absolute paths and the trails they stand for. The path of a trail leads back along it, the directories above it are
those of the trail's tails, and reading there finds the entry that the tree holds. -/

namespace PassThrough

namespace Path

/-- The name of an entry: one segment, and one that does not lead elsewhere. -/
structure IsName (s : String) : Prop where
  no_slash : '/' ∉ s.toList
  ne_empty : s ≠ ""
  ne_dot : s ≠ "."
  ne_dots : s ≠ ".."

/-- The absolute path along a trail, which is given last name first. -/
def ofTrail (trail : List String) : String := "/" ++ "/".intercalate trail.reverse

private theorem segments_intercalate {names : List String} (h : ∀ s ∈ names, '/' ∉ s.toList)
    (hne : names ≠ []) : segments ("/".intercalate names) = names := by
  have hsplit := String.toList_split_intercalate h
  rw [if_neg hne] at hsplit
  exact hsplit

private theorem ofTrail_eq_intercalate {trail : List String} (h : trail ≠ []) :
    ofTrail trail = "/".intercalate ("" :: trail.reverse) := by
  obtain ⟨name, names, hrev⟩ := List.exists_cons_of_ne_nil (List.reverse_ne_nil_iff.2 h)
  simp [ofTrail, hrev, String.intercalate_cons_cons]

private theorem segments_ofTrail {trail : List String} (h : ∀ s ∈ trail, IsName s) (hne : trail ≠ []) :
    segments (ofTrail trail) = "" :: trail.reverse := by
  rw [ofTrail_eq_intercalate hne]
  apply segments_intercalate _ (List.cons_ne_nil _ _)
  intro s hs
  rcases List.mem_cons.1 hs with rfl | hs
  · simp
  · exact (h s (List.mem_reverse.1 hs)).no_slash

private theorem segments_root : segments (ofTrail []) = ["", ""] := by
  have hroot : ofTrail [] = "/".intercalate ["", ""] := by decide
  rw [hroot]
  apply segments_intercalate
  · simp
  · simp

theorem startsWith_ofTrail (trail : List String) : (ofTrail trail).startsWith "/" = true := by
  rw [String.startsWith_string_iff]
  simp [ofTrail]

private theorem dropVoid_eq_self {trail : List String} (h : ∀ s ∈ trail, IsName s) :
    dropVoid true trail = trail := by
  cases trail with
  | nil => rfl
  | cons name rest =>
    have hname := h name List.mem_cons_self
    simp [dropVoid, isVoid, hname.ne_empty, hname.ne_dot]

private theorem parent?_root : parent? (ofTrail []) = none := by
  simp [parent?, startsWith_ofTrail, segments_root, dropVoid, isVoid]

private theorem parent?_ofTrail_cons {name : String} {trail : List String}
    (h : ∀ s ∈ name :: trail, IsName s) :
    parent? (ofTrail (name :: trail)) = some (ofTrail trail) := by
  have htrail : ∀ s ∈ trail, IsName s := fun s hs => h s (List.mem_cons_of_mem name hs)
  have hsegs := segments_ofTrail h (List.cons_ne_nil name trail)
  simp only [parent?, startsWith_ofTrail, hsegs, if_true, List.tail_cons, List.reverse_reverse,
    dropVoid_eq_self h, dropVoid_eq_self htrail]
  rfl

theorem ancestors_ofTrail {trail : List String} (h : ∀ s ∈ trail, IsName s) (limit : Nat) :
    ancestors (ofTrail trail) limit = (trail.tails.take limit).map ofTrail := by
  induction limit generalizing trail with
  | zero => rfl
  | succ limit ih =>
    cases trail with
    | nil => simp [ancestors, parent?_root]
    | cons name trail =>
      have htrail : ∀ s ∈ trail, IsName s := fun s hs => h s (List.mem_cons_of_mem name hs)
      simp [ancestors, parent?_ofTrail_cons h, ih htrail]

private theorem ofTrail_singleton (name : String) : ofTrail [name] = "/" ++ name := by
  simp [ofTrail]

private theorem ofTrail_cons_of_ne_nil {trail : List String} (h : trail ≠ []) (name : String) :
    ofTrail (name :: trail) = ofTrail trail ++ "/" ++ name := by
  have hrev : trail.reverse ≠ [] := List.reverse_ne_nil_iff.2 h
  simp [ofTrail, String.intercalate_append_of_ne_nil hrev, String.append_assoc]

private theorem exists_ofTrail_cons (name : String) (trail : List String) :
    ∃ before, ofTrail (name :: trail) = before ++ name := by
  by_cases h : trail = []
  · subst h
    exact ⟨"/", ofTrail_singleton name⟩
  · exact ⟨_, ofTrail_cons_of_ne_nil h name⟩

private theorem endsWith_ofTrail_cons {name : String} (h : IsName name) (trail : List String) :
    (ofTrail (name :: trail)).endsWith "/" = false := by
  obtain ⟨before, hpath⟩ := exists_ofTrail_cons name trail
  rw [← String.endsWith_toSlice, String.Slice.endsWith_string_eq_false_iff]
  rintro ⟨start, hstart⟩
  -- the last character is the name's own, and no slash is one of those
  have hne : name.toList ≠ [] := fun hnil => h.ne_empty (String.toList_eq_nil_iff.1 hnil)
  have hlast := congrArg List.getLast? hstart
  simp only [hpath, String.copy_toSlice, String.toList_append,
    List.getLast?_append_of_ne_nil _ hne] at hlast
  apply h.no_slash
  apply List.mem_of_getLast?
  simpa using hlast.symm

theorem join_ofTrail {trail : List String} (h : ∀ s ∈ trail, IsName s) (name : String) :
    join (ofTrail trail) name = ofTrail (name :: trail) := by
  cases trail with
  | nil =>
    have hends : (ofTrail []).endsWith "/" = true := by
      rw [← String.endsWith_toSlice, String.Slice.endsWith_string_iff]
      simp [ofTrail]
    rw [ofTrail_singleton, join, if_pos (Or.inr hends)]
    rfl
  | cons last rest =>
    have hends := endsWith_ofTrail_cons (h last List.mem_cons_self) rest
    have hne : ofTrail (last :: rest) ≠ "" := by simp [ofTrail]
    rw [ofTrail_cons_of_ne_nil (List.cons_ne_nil last rest), join, if_neg (by simp [hends, hne])]

end Path

/-- The text of a file that holds text. -/
def FileTree.text? : FileTree → Option String
  | .file bytes => String.fromUTF8? bytes
  | .directory _ => none

private theorem FileTree.find?_concat (t : FileTree) (names : List String) (name : String) :
    t.find? (names ++ [name]) = (t.find? names).bind (·.child? name) := by
  simp [find?, List.foldlM_append]

namespace Volume

open PassThrough.Path

variable {v : Volume} {name : String} {dir trail : List String}

/-- A trail of names that leads to a directory. -/
structure IsDirectory (v : Volume) (trail : List String) : Prop where
  names : ∀ s ∈ trail, IsName s
  entries : ∃ es, v.root.find? trail.reverse = some (.directory es)

/-- The text that can be read where a trail leads. -/
def textAt? (v : Volume) (trail : List String) : Option String :=
  (v.root.find? trail.reverse).bind FileTree.text?

theorem IsDirectory.of_cons (h : v.IsDirectory (name :: trail)) : v.IsDirectory trail := by
  refine ⟨fun s hs => h.names s (List.mem_cons_of_mem name hs), ?_⟩
  obtain ⟨es, hes⟩ := h.entries
  rw [List.reverse_cons, FileTree.find?_concat] at hes
  obtain ⟨above, habove, hchild⟩ := Option.bind_eq_some_iff.1 hes
  cases above with
  | directory es => exact ⟨es, habove⟩
  | file bytes => cases hchild

/-- The directories on the way to a directory. -/
theorem IsDirectory.of_suffix (h : v.IsDirectory trail) (hsuffix : dir <:+ trail) : v.IsDirectory dir := by
  obtain ⟨below, rfl⟩ := hsuffix
  induction below with
  | nil => exact h
  | cons name below ih => exact ih h.of_cons

private theorem step_name (hdir : v.IsDirectory trail) (hname : IsName name) :
    v.step trail name =
      if (v.root.find? (name :: trail).reverse).isSome then .ok (name :: trail)
      else .error .missing := by
  obtain ⟨es, hes⟩ := hdir.entries
  rw [List.reverse_cons, FileTree.find?_concat, hes]
  simp only [step, hes, hname.ne_empty, hname.ne_dot, hname.ne_dots, or_self, if_false]
  rfl

/-- Name by name, a path leads along its trail: every directory on the way is there. -/
theorem foldlM_step (hdir : v.IsDirectory trail) : trail.reverse.foldlM v.step [] = .ok trail := by
  induction trail with
  | nil => rfl
  | cons name trail ih =>
    have hstep := step_name hdir.of_cons (hdir.names name List.mem_cons_self)
    obtain ⟨es, hes⟩ := hdir.entries
    rw [hes, Option.isSome_some, if_pos rfl] at hstep
    rw [List.reverse_cons, List.foldlM_append, ih hdir.of_cons]
    simp only [List.foldlM_cons, List.foldlM_nil, bind_pure]
    exact hstep

private theorem resolve_ofTrail (hdir : v.IsDirectory trail) (hname : IsName name) :
    v.resolve (ofTrail (name :: trail)) =
      if (v.root.find? (name :: trail).reverse).isSome then .ok (name :: trail)
      else .error .missing := by
  have hne : ofTrail (name :: trail) ≠ "" := by simp [ofTrail]
  have hnames : ∀ s ∈ name :: trail, IsName s := List.forall_mem_cons.2 ⟨hname, hdir.names⟩
  -- the empty segment before the first slash stays at the root
  have hroot : v.step [] "" = .ok [] := by
    obtain ⟨es, hes⟩ := (hdir.of_suffix trail.nil_suffix).entries
    simp only [step, hes, true_or, if_true]
  have hfold : (trail.reverse ++ [name]).foldlM v.step [] = v.step trail name := by
    rw [List.foldlM_append, foldlM_step hdir]
    simp only [List.foldlM_cons, List.foldlM_nil, bind_pure]
    rfl
  rw [resolve, if_neg hne, segments_ofTrail hnames (List.cons_ne_nil name trail), start,
    if_pos (startsWith_ofTrail _), List.foldlM_cons, hroot, ← step_name hdir hname, ← hfold,
    List.reverse_cons]
  rfl

private theorem toOption_entry_ofTrail (hdir : v.IsDirectory trail) (hname : IsName name) :
    (v.entry (ofTrail (name :: trail))).toOption = v.root.find? (name :: trail).reverse := by
  rw [entry, resolve_ofTrail hdir hname]
  cases hfound : v.root.find? (name :: trail).reverse with
  | none => rfl
  | some t =>
    simp only [Option.isSome_some, if_true, bind, Except.bind, hfound]
    rfl

private theorem toOption_read (path : String) :
    (v.read path).toOption = (v.entry path).toOption.bind FileTree.text? := by
  rw [read]
  cases v.entry path with
  | error p => rfl
  | ok t =>
    cases t with
    | directory es => rfl
    | file bytes =>
      simp only [bind, Except.bind, Except.toOption, Option.bind, FileTree.text?]
      cases String.fromUTF8? bytes with
      | none => rfl
      | some text => rfl

/-- Reading by the path of an entry of a directory gives the text that the tree holds there. -/
theorem toOption_read_ofTrail (hdir : v.IsDirectory trail) (hname : IsName name) :
    (v.read (ofTrail (name :: trail))).toOption = v.textAt? (name :: trail) := by
  rw [toOption_read, toOption_entry_ofTrail hdir hname, textAt?]

end Volume
end PassThrough

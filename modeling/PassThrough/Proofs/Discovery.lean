import PassThrough.Proofs.Trail
import PassThrough.Settings.Discovery

/-! Which settings apply in the current directory. The main statement is that the search passes over files that cannot be
read and over files that are not valid alike, and when this differs from letting the nearest file that can be read decide.
-/

namespace PassThrough

namespace Settings

variable {v : Volume} {dir : List String} {text : String} {s : Settings}

/-- The directories in which settings are looked for, the nearest first, each by its trail. -/
def searched (v : Volume) : List (List String) := v.current.tails.take searchDepth

/-- The text of the settings file in a directory, if there is one that can be read. -/
def textIn? (v : Volume) (dir : List String) : Option String := v.textAt? (fileName :: dir)

/-- The settings that the file in a directory describes, if there is one and it is valid. -/
def validIn? (v : Volume) (dir : List String) : Option Settings :=
  (textIn? v dir).bind fun text => (parse text).toOption

/-- `dir` is the nearest of the searched directories that has what `f` looks for. -/
def Nearest {α : Type} (v : Volume) (f : List String → Option α) (dir : List String) (a : α) : Prop :=
  ∃ nearer farther, searched v = nearer ++ dir :: farther ∧ f dir = some a ∧
    ∀ d ∈ nearer, f d = none

/-- The settings if the nearest file that can be read decides: what it describes, and the default settings if
that is not valid or there is no file. -/
def decidedByNearest (v : Volume) : Settings :=
  (((searched v).findSome? (textIn? v)).bind fun text => (parse text).toOption).getD {}

theorem findSome?_searched {α : Type} {f : List String → Option α} {a : α} :
    (searched v).findSome? f = some a ↔ ∃ dir, Nearest v f dir a := by
  rw [List.findSome?_eq_some_iff]
  constructor
  · rintro ⟨nearer, dir, farther, hsplit, hdir, hnearer⟩
    exact ⟨dir, nearer, farther, hsplit, hdir, hnearer⟩
  · rintro ⟨dir, nearer, farther, hsplit, hdir, hnearer⟩
    exact ⟨nearer, dir, farther, hsplit, hdir, hnearer⟩

private theorem firstValid_run (v : Volume) (paths : List String) :
    (firstValid Volume.store.read paths).run v =
      (paths.findSome? fun p => (v.read p).toOption.bind fun text => (parse text).toOption, v) := by
  induction paths with
  | nil => rfl
  | cons path rest ih =>
    have hread : (Volume.store.read path).run v = (v.read path, v) := rfl
    rw [firstValid, StateT.run_bind, hread, List.findSome?_cons]
    simp only [bind]
    cases (v.read path).toOption.bind fun text => (parse text).toOption with
    | none => exact ih
    | some s => rfl

private theorem isName_fileName : Path.IsName fileName := by
  constructor <;> decide

private theorem toOption_read_candidate (hv : v.IsDirectory v.current) (hdir : dir ∈ searched v) :
    (v.read (Path.join (Path.ofTrail dir) fileName)).toOption = textIn? v dir := by
  have hthere : v.IsDirectory dir :=
    hv.of_suffix ((List.mem_tails _ _).1 (List.mem_of_mem_take hdir))
  rw [Path.join_ofTrail hthere.names]
  exact Volume.toOption_read_ofTrail hthere isName_fileName

private theorem candidates_currentPath (hv : v.IsDirectory v.current) :
    candidates v.currentPath =
      (searched v).map fun dir => Path.join (Path.ofTrail dir) fileName := by
  have hpath : v.currentPath = Path.ofTrail v.current := rfl
  rw [candidates, hpath, Path.ancestors_ofTrail hv.names, List.map_map]
  rfl

private theorem findSome?_candidates (hv : v.IsDirectory v.current) :
    ((candidates v.currentPath).findSome? fun p =>
      (v.read p).toOption.bind fun text => (parse text).toOption) =
        (searched v).findSome? (validIn? v) := by
  let valid (p : String) := (v.read p).toOption.bind fun text => (parse text).toOption
  have hmap : (candidates v.currentPath).map valid = (searched v).map (validIn? v) := by
    rw [candidates_currentPath hv, List.map_map]
    apply List.map_congr_left
    intro dir hdir
    simp only [valid, Function.comp_apply, toOption_read_candidate hv hdir]
    rfl
  calc (candidates v.currentPath).findSome? valid
      = ((candidates v.currentPath).map valid).findSome? id := by
        rw [List.findSome?_map, Function.id_comp]
    _ = ((searched v).map (validIn? v)).findSome? id := by rw [hmap]
    _ = (searched v).findSome? (validIn? v) := List.findSome?_map

/-- The search changes nothing and finds the first valid file, by what the tree holds in each directory. -/
theorem discover_run (hv : v.IsDirectory v.current) :
    (discover Volume.store).run v = (((searched v).findSome? (validIn? v)).getD {}, v) := by
  have hdir : Volume.store.currentDir.run v = (some v.currentPath, v) := rfl
  rw [discover, StateT.run_bind, hdir]
  simp only [bind]
  rw [discoverFrom, StateT.run_bind, firstValid_run, findSome?_candidates hv]
  rfl

/-- The nearest file that can be read is the nearest valid one if it is valid. -/
theorem Nearest.valid (h : Nearest v (textIn? v) dir text) (hs : parse text = .ok s) :
    Nearest v (validIn? v) dir s := by
  obtain ⟨nearer, farther, hsplit, htext, hnearer⟩ := h
  refine ⟨nearer, farther, hsplit, ?_, ?_⟩
  · simp [validIn?, htext, hs, Except.toOption]
  · intro d hd
    simp [validIn?, hnearer d hd]

theorem decidedByNearest_of_text (h : Nearest v (textIn? v) dir text) :
    decidedByNearest v = (parse text).toOption.getD {} := by
  rw [decidedByNearest, findSome?_searched.2 ⟨dir, h⟩, Option.bind_some]

private theorem exists_text_of_valid (h : Nearest v (validIn? v) dir s) :
    ∃ near text, Nearest v (textIn? v) near text := by
  obtain ⟨nearer, farther, hsplit, hvalid, -⟩ := h
  obtain ⟨text, htext, -⟩ := Option.bind_eq_some_iff.1 hvalid
  have hmem : dir ∈ searched v := by simp [hsplit]
  have hfound : ((searched v).findSome? (textIn? v)).isSome :=
    List.findSome?_isSome_iff.2 ⟨dir, hmem, by rw [htext]; rfl⟩
  obtain ⟨first, hfirst⟩ := Option.isSome_iff_exists.1 hfound
  obtain ⟨near, hnear⟩ := findSome?_searched.1 hfirst
  exact ⟨near, first, hnear⟩

private theorem decidedByNearest_of_none_valid (h : ∀ dir ∈ searched v, validIn? v dir = none) :
    decidedByNearest v = {} := by
  cases htext : (searched v).findSome? (textIn? v) with
  | none => rw [decidedByNearest, htext]; rfl
  | some text =>
    obtain ⟨near, hnear⟩ := findSome?_searched.1 htext
    cases hparse : parse text with
    | error problem => rw [decidedByNearest_of_text hnear, hparse]; rfl
    | ok t =>
      have hfound := findSome?_searched.2 ⟨near, hnear.valid hparse⟩
      rw [List.findSome?_eq_none_iff.2 h] at hfound
      cases hfound

/-- The settings found are those of the nearest file that can be read and is valid, or else the default ones.
A nearest file that is valid decides. One that is not valid does not stop the search, so the settings are
others than those it decides on exactly if some valid file farther up sets anything. -/
theorem discover_nearest_valid (hv : v.IsDirectory v.current) :
    ∃ s, (discover Volume.store).run v = (s, v) ∧
      ((∃ dir, Nearest v (validIn? v) dir s) ∨
        ((∀ dir ∈ searched v, validIn? v dir = none) ∧ s = {})) ∧
      (∀ dir text t, Nearest v (textIn? v) dir text → parse text = .ok t → s = t) ∧
      (s ≠ decidedByNearest v ↔
        ∃ near text problem far, Nearest v (textIn? v) near text ∧ parse text = .error problem ∧
          Nearest v (validIn? v) far s ∧ s ≠ {}) := by
  rw [discover_run hv]
  cases hfound : (searched v).findSome? (validIn? v) with
  | none =>
    have hnone := List.findSome?_eq_none_iff.1 hfound
    have hno : ∀ dir s, ¬ Nearest v (validIn? v) dir s := by
      intro dir s hnear
      rw [findSome?_searched.2 ⟨dir, hnear⟩] at hfound
      cases hfound
    refine ⟨{}, rfl, Or.inr ⟨hnone, rfl⟩, ?_, ?_⟩
    · intro dir text t hnear ht
      exact absurd (hnear.valid ht) (hno dir t)
    · rw [decidedByNearest_of_none_valid hnone]
      simp
  | some s =>
    obtain ⟨far, hfar⟩ := findSome?_searched.1 hfound
    have hvalid : ∀ dir text t, Nearest v (textIn? v) dir text → parse text = .ok t → s = t := by
      intro dir text t hnear ht
      rw [findSome?_searched.2 ⟨dir, hnear.valid ht⟩] at hfound
      exact (Option.some.inj hfound).symm
    refine ⟨s, rfl, Or.inl ⟨far, hfar⟩, hvalid, ?_⟩
    constructor
    · intro hne
      obtain ⟨near, text, hnear⟩ := exists_text_of_valid hfar
      rw [decidedByNearest_of_text hnear] at hne
      cases hparse : parse text with
      | ok t =>
        rw [hparse] at hne
        exact absurd (hvalid near text t hnear hparse) hne
      | error problem =>
        rw [hparse] at hne
        exact ⟨near, text, problem, far, hnear, hparse, hfar, hne⟩
    · rintro ⟨near, text, problem, -, hnear, hproblem, -, hne⟩
      rw [decidedByNearest_of_text hnear, hproblem]
      exact hne

end Settings

/-- A settings file at the root and another in the current directory below it. -/
def Sample.nestedSettings (outer inner : String) : Volume where
  root := .directory [(Settings.fileName, .file outer.toUTF8),
    ("app", .directory [(Settings.fileName, .file inner.toUTF8)])]
  current := ["app"]

namespace Settings

private theorem isDirectory_nestedSettings (outer inner : String) :
    (Sample.nestedSettings outer inner).IsDirectory ["app"] where
  names := by
    intro s hs
    obtain rfl := List.mem_singleton.1 hs
    constructor <;> decide
  entries := ⟨_, rfl⟩

theorem discover_nearest_valid_inner :
    let v := Sample.nestedSettings "[detection]\nmin_relay_links = 3\n"
      "[detection]\nmin_relay_links = 5\n"
    v.IsDirectory v.current ∧
      (discover Volume.store).run v = (({} : Settings).withMinRelayLinks (some 5), v) := by
  intro v
  have hv : v.IsDirectory v.current := isDirectory_nestedSettings _ _
  obtain ⟨s, hrun, -, hvalid, -⟩ := discover_nearest_valid hv
  have hnear : Nearest v (textIn? v) ["app"] "[detection]\nmin_relay_links = 5\n" :=
    ⟨[], [[]], rfl, by decide +kernel, by simp⟩
  have hparse : parse "[detection]\nmin_relay_links = 5\n" =
      .ok (({} : Settings).withMinRelayLinks (some 5)) := by decide +kernel
  rw [hrun, hvalid _ _ _ hnear hparse]
  exact ⟨hv, rfl⟩

theorem discover_invalid_nearest :
    let v := Sample.nestedSettings "[detection]\nmin_relay_links = 3\n" "[detection"
    textIn? v v.current = some "[detection" ∧ (parse "[detection").toOption = none ∧
      decidedByNearest v = {} ∧
      ((discover Volume.store).run v).1 = ({} : Settings).withMinRelayLinks (some 3) := by
  dsimp only
  rw [discover_run (isDirectory_nestedSettings _ _)]
  decide +kernel

end Settings
end PassThrough

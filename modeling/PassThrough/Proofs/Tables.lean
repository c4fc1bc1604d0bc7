import PassThrough.Proofs.Scope

/-! Graphs stored in tables, where an access to an entry that is not there is a fault. Two indexes lead into the tables: from
the id of a function to its number, and from the place of a call to its site. Building the tables raises no fault, though the
calls are recorded while the tables of sites are only partly filled. -/

namespace PassThrough

namespace Graph.Lawful
variable {g : Graph} {n : NodeId} {s : SiteId}

/-- The site found for a place is the one with its number. -/
theorem site?_of_siteAt? (h : g.Lawful) {position : Position} {site : CallSite} (hs : g.siteAt? n n position = some site) :
    g.site? site.id = some site ∧ site.id.caller = n ∧ site.position = position := by
  rw [siteAt?, if_pos rfl] at hs
  obtain ⟨i, hi⟩ := List.mem_iff_getElem?.1 (List.mem_of_find?_eq_some hs)
  have hid : site.id = ⟨n, i⟩ := h.site?_id (s := ⟨n, i⟩) hi
  exact ⟨hid ▸ hi, congrArg SiteId.caller hid, by simpa using List.find?_some hs⟩

theorem site?_of_mem_incomingOf (h : g.Lawful) (hs : s ∈ g.incomingOf n) : ∃ site, g.site? s = some site := by
  obtain ⟨site, hsite, -⟩ := Option.bind_eq_some_iff.1 (h.mem_incomingOf.1 hs)
  exact ⟨site, hsite⟩

end Graph.Lawful

/-- An access that goes wrong: to an entry that a table does not have, or a counter taken below zero. -/
inductive Fault where
  | node (n : NodeId)
  | site (s : SiteId)
  | incoming (n : NodeId)
  | path (i : Nat)
  | depth
  deriving DecidableEq, Repr

/-- The entry, or a fault if there is none. -/
def checked {α : Type} (entry : Option α) (fault : Fault) : Except Fault α :=
  match entry with
  | some a => pure a
  | none => throw fault

@[simp] theorem checked_some {α : Type} (a : α) (fault : Fault) : checked (some a) fault = pure a := rfl

/-- A graph as it is stored, built or half built, with its indexes. -/
structure Tables extends Graph where
  ids : List (FunctionId × NodeId) := []
  places : List ((NodeId × Position) × SiteId) := []

namespace Tables

def nodeAt (t : Tables) (n : NodeId) : Except Fault Node := checked t.nodes[n]? (.node n)

def siteAt (t : Tables) (s : SiteId) : Except Fault CallSite := do
  let sites ← checked t.sites[s.caller]? (.site s)
  checked sites[s.index]? (.site s)

example : siteAt {} ⟨0, 0⟩ = .error (.site ⟨0, 0⟩) := rfl

def incomingAt (t : Tables) (n : NodeId) : Except Fault (List SiteId) := checked t.incoming[n]? (.incoming n)

/-- The function with an id, by its number. -/
def findNode (t : Tables) (f : FunctionId) : Except Fault (Option Node) :=
  match t.ids.lookup f with
  | none => pure none
  | some n => some <$> t.nodeAt n

/-- The site of `n` for the call at a position in its body, by the number of the site. -/
def siteFor (t : Tables) (n : NodeId) (position : Position) : Except Fault (Option CallSite) :=
  match t.places.lookup (n, position) with
  | none => pure none
  | some s => if s.caller = n then some <$> t.siteAt s else pure none

def calleeOf (t : Tables) (s : SiteId) : Except Fault (Option NodeId) := do
  let site ← t.siteAt s
  pure (site.target.bind fun f => t.ids.lookup f)

/-- Enters a function after the others. -/
def add (t : Tables) (node : Node) : Tables :=
  { t with nodes := t.nodes ++ [node], ids := (node.id, t.nodes.length) :: t.ids }

/-- Enters a function, unless there is one with its id. -/
def declare (v : Vocabulary) (x : Tables × List Diagnostic) (f : String × FunctionDecl) : Tables × List Diagnostic :=
  if (x.1.ids.lookup f.2.id).isSome then (x.1, x.2 ++ [duplicateDiagnostic f.1 f.2])
  else (x.1.add (Node.ofDecl v f.1 f.2), x.2)

/-- Adds a call to the sites of its caller found so far, unless it leaves the program. -/
def record (t : Tables) (caller : NodeId) (found : List CallSite × List Diagnostic) (call : CallAt) :
    Except Fault (List CallSite × List Diagnostic) :=
  let site (target : Option FunctionId) (bindings : List Binding) : CallSite :=
    { id := ⟨caller, found.1.length⟩, callee := call.callee, target, bindings, position := call.position,
      location := call.location }
  match call.target with
  | .unknown => pure (found.1 ++ [site none []], found.2)
  | .resolved f => do
    match ← t.findNode f with
    | none => pure found
    | some callee =>
      match bindArgs callee.paramNames call.args with
      | .ok bindings => pure (found.1 ++ [site (some f) bindings], found.2)
      | .error problem => do
        let node ← t.nodeAt caller
        let error := (Diagnostic.ofFailure node.id (.binding callee.name problem.message)).atLocation call.location
        pure (found.1 ++ [site none []], found.2 ++ [error])

/-- Fills in the sites of a function, after those of the functions before it. -/
def collect (x : Tables × List Diagnostic) (n : NodeId) : Except Fault (Tables × List Diagnostic) := do
  let node ← x.1.nodeAt n
  let found ← node.decl.renderCalls.foldlM (x.1.record n) ([], [])
  pure ({ x.1 with sites := x.1.sites ++ [found.1] }, x.2 ++ found.2)

/-- Enters a site in the index of places, and among those that reach its target. -/
def enter (t : Tables) (site : CallSite) : Except Fault Tables := do
  let t := { t with places := ((site.id.caller, site.position), site.id) :: t.places }
  match site.target.bind fun f => t.ids.lookup f with
  | none => pure t
  | some n => do
    let sites ← t.incomingAt n
    pure { t with incoming := t.incoming.set n (sites ++ [site.id]) }

/-- The tables for the functions that carry the marker, and what was wrong with them. -/
def build (v : Vocabulary) (marker : String) (files : List SourceFile) : Except Fault (Tables × List Diagnostic) := do
  let declared := (markedFunctions marker files).foldl (declare v) ({}, [])
  let (t, errors) ← (List.range declared.1.nodes.length).foldlM collect declared
  let t ← t.sites.flatten.foldlM enter { t with incoming := List.replicate t.nodes.length [] }
  pure (t, errors)

/-- The index of ids gives the numbers of the functions. -/
def Numbered (t : Tables) : Prop := ∀ f, t.ids.lookup f = t.idOf? f

theorem Numbered.findNode_eq {t : Tables} (h : t.Numbered) (f : FunctionId) :
    t.findNode f = pure (t.nodes.find? (·.id == f)) := by
  rw [findNode, h f, List.find?_eq_bind_findIdx?_getElem?, Graph.idOf?]
  cases hn : t.nodes.findIdx? (·.id == f) with
  | none => rfl
  | some n =>
    obtain ⟨hlt, -⟩ := List.findIdx?_eq_some_iff_getElem.1 hn
    simp [nodeAt, List.getElem?_eq_getElem hlt]

theorem Numbered.add {t : Tables} (h : t.Numbered) {node : Node} (hnew : t.idOf? node.id = none) :
    (t.add node).Numbered := by
  intro f
  rw [Tables.add, Graph.idOf?, List.findIdx?_append, List.lookup_cons]
  by_cases hf : f = node.id
  · rw [hf, ← Graph.idOf?, hnew]
    simp
  · have hother : (f == node.id) = false := by simpa using hf
    rw [hother, h f, Graph.idOf?]
    simp [Ne.symm hf]

/-- Entering functions one by one numbers them and keeps the first of each id. -/
theorem foldl_declare {t : Tables} (h : t.Numbered) (v : Vocabulary) (errors : List Diagnostic)
    (fs : List (String × FunctionDecl)) : ∃ ids, fs.foldl (declare v) (t, errors) =
      ({ t with nodes := (addNodes v t.nodes fs).1, ids := ids }, errors ++ (addNodes v t.nodes fs).2) ∧
      (fs.foldl (declare v) (t, errors)).1.Numbered := by
  induction fs generalizing t errors with
  | nil => exact ⟨t.ids, by simp [addNodes], h⟩
  | cons x rest ih =>
    obtain ⟨path, f⟩ := x
    have hany : (t.ids.lookup f.id).isSome = t.nodes.any (·.id == f.id) := by
      rw [h f.id, Graph.idOf?, List.findIdx?_isSome]
    rw [List.foldl_cons, addNodes, declare, hany]
    cases hseen : t.nodes.any (·.id == f.id) with
    | true =>
      obtain ⟨ids, heq, hnumbered⟩ := ih h (errors ++ [duplicateDiagnostic path f])
      exact ⟨ids, by simpa using heq, by simpa using hnumbered⟩
    | false =>
      have hnew : t.idOf? f.id = none := by
        rw [← Option.not_isSome_iff_eq_none, Graph.idOf?, List.findIdx?_isSome, hseen]
        simp
      exact ih (h.add hnew) errors

/-- What is recorded for a call, when its arguments cannot be bound. -/
def complaintAt? (nodes : List Node) (node : Node) (call : CallAt) : Option Diagnostic :=
  match call.resolve nodes with
  | .rejected callee problem =>
    some ((Diagnostic.ofFailure node.id (.binding callee problem.message)).atLocation call.location)
  | _ => none

/-- Recording a call adds its site, and a diagnostic if its arguments do not fit. -/
theorem record_eq {t : Tables} (h : t.Numbered) {n : NodeId} {node : Node} (hn : t.nodes[n]? = some node)
    (found : List CallSite × List Diagnostic) (call : CallAt) : t.record n found call = pure
      (if (call.resolve t.nodes).isSite then
        (found.1 ++ [CallSite.of t.nodes n found.1.length call], found.2 ++ (complaintAt? t.nodes node call).toList)
      else found) := by
  unfold record CallSite.of complaintAt? CallAt.resolve
  cases call.target with
  | unknown => simp [Resolution.isSite]
  | resolved f =>
    simp only [h.findNode_eq, pure_bind]
    cases t.nodes.find? (·.id == f) with
    | none => simp [Resolution.isSite]
    | some callee =>
      cases hbind : bindArgs callee.paramNames call.args with
      | ok bindings => simp [Resolution.isSite, hbind]
      | error problem => simp [Resolution.isSite, hbind, nodeAt, hn]

private theorem foldlM_record {t : Tables} (h : t.Numbered) {n : NodeId} {node : Node} (hn : t.nodes[n]? = some node)
    (found : List CallSite × List Diagnostic) (calls : List CallAt) : calls.foldlM (t.record n) found = pure
      (found.1 ++ (calls.filter fun call => (call.resolve t.nodes).isSite).mapIdx
          (fun i call => CallSite.of t.nodes n (i + found.1.length) call),
        found.2 ++ (calls.filter fun call => (call.resolve t.nodes).isSite).filterMap (complaintAt? t.nodes node)) := by
  induction calls generalizing found with
  | nil => simp
  | cons call rest ih =>
    rw [List.foldlM_cons, record_eq h hn, pure_bind, ih]
    cases hsite : (call.resolve t.nodes).isSite with
    | false => simp [hsite]
    | true =>
      cases hcomplaint : complaintAt? t.nodes node call <;>
        simp [hsite, hcomplaint, List.mapIdx_cons, Nat.add_assoc, Nat.add_comm 1]

/-- The sites of a function are filled in while the tables hold those of the functions before it only. -/
theorem collect_eq {t : Tables} (h : t.Numbered) {n : NodeId} {node : Node} (hn : t.nodes[n]? = some node)
    (errors : List Diagnostic) : collect (t, errors) n = pure
      ({ t with sites := t.sites ++ [sitesOfNode t.nodes n node] }, errors ++ bindDiagnostics t.nodes node) := by
  simp only [collect, nodeAt, hn, checked_some, pure_bind, foldlM_record h hn]
  rfl

private theorem foldlM_collect {t : Tables} (h : t.Numbered) (hsites : t.sites = []) (errors : List Diagnostic) {k : Nat}
    (hk : k ≤ t.nodes.length) : (List.range k).foldlM collect (t, errors) = pure
      ({ t with sites := (t.nodes.take k).mapIdx fun i node => sitesOfNode t.nodes i node },
        errors ++ (t.nodes.take k).flatMap (bindDiagnostics t.nodes)) := by
  induction k with
  | zero => simp [← hsites]
  | succ k ih =>
    have hn : t.nodes[k]? = some t.nodes[k] := List.getElem?_eq_getElem hk
    have htake : t.nodes.take (k + 1) = t.nodes.take k ++ [t.nodes[k]] := by rw [List.take_add_one, hn, Option.toList_some]
    have hnumbered : Numbered { t with sites := (t.nodes.take k).mapIdx fun i node => sitesOfNode t.nodes i node } := h
    have hlength : (t.nodes.take k).length = k := List.length_take_of_le (Nat.le_of_lt hk)
    rw [List.range_succ, List.foldlM_append, ih (Nat.le_of_lt hk), pure_bind, List.foldlM_cons, collect_eq hnumbered hn,
      pure_bind, htake, List.mapIdx_concat, hlength, List.flatMap_append, List.flatMap_singleton, List.append_assoc]
    rfl

/-- For each function, those of the sites that reach it. -/
def reaching (nodes : List Node) (sites : List CallSite) : List (List SiteId) :=
  nodes.map fun node => (sites.filter (·.target == some node.id)).map CallSite.id

private theorem reaching_nil (nodes : List Node) : reaching nodes [] = List.replicate nodes.length [] := by
  simp [reaching]

/-- The entry of a site in the index of places. -/
def placeOf (site : CallSite) : (NodeId × Position) × SiteId := ((site.id.caller, site.position), site.id)

private theorem reaching_concat_of_none {t : Tables} {site : CallSite} (h : site.target.bind t.idOf? = none)
    (before : List CallSite) : reaching t.nodes (before ++ [site]) = reaching t.nodes before := by
  refine List.map_congr_left fun node hnode => ?_
  have hother : (site.target == some node.id) = false := by
    refine beq_false_of_ne fun heq => ?_
    rw [heq, Option.bind_some, Graph.idOf?, List.findIdx?_eq_none_iff] at h
    simpa using h node hnode
  simp [hother]

private theorem reaching_concat_of_some {t : Tables} (hd : (t.nodes.map Node.id).Nodup) {site : CallSite} {n : NodeId}
    (h : site.target.bind t.idOf? = some n) (before : List CallSite) :
    ∃ sites, (reaching t.nodes before)[n]? = some sites ∧
      reaching t.nodes (before ++ [site]) = (reaching t.nodes before).set n (sites ++ [site.id]) := by
  obtain ⟨f, hf, hid⟩ := Option.bind_eq_some_iff.1 h
  obtain ⟨hlt, hn, -⟩ := List.findIdx?_eq_some_iff_getElem.1 hid
  have hnf : t.nodes[n].id = f := by simpa using hn
  refine ⟨_, by rw [reaching, List.getElem?_map, List.getElem?_eq_getElem hlt, Option.map_some], ?_⟩
  refine List.ext_getElem? fun i => ?_
  rw [List.getElem?_set, reaching, reaching, List.getElem?_map, List.getElem?_map, List.length_map]
  by_cases hi : n = i
  · subst hi
    simp [hlt, hf, hnf]
  · rw [if_neg hi]
    cases hnode : t.nodes[i]? with
    | none => rfl
    | some node =>
      -- only one function has the id of the target
      have hother : ¬ f = node.id := by
        intro heq
        obtain ⟨hlti, rfl⟩ := List.getElem?_eq_some_iff.1 hnode
        have hn' : n < (t.nodes.map Node.id).length := by simpa using hlt
        have hi' : i < (t.nodes.map Node.id).length := by simpa using hlti
        have hsame : (t.nodes.map Node.id)[n] = (t.nodes.map Node.id)[i] := by simpa [hnf] using heq
        exact hi (hd.getElem_inj_iff.1 hsame)
      simp [hf, hother]

/-- Entering a site finds the function that it reaches in the table. -/
theorem enter_eq {t : Tables} (h : t.Numbered) (hd : (t.nodes.map Node.id).Nodup) {before : List CallSite}
    (hincoming : t.incoming = reaching t.nodes before) (site : CallSite) : t.enter site = pure
      { t with incoming := reaching t.nodes (before ++ [site]), places := placeOf site :: t.places } := by
  have hids : (site.target.bind fun f => t.ids.lookup f) = site.target.bind t.idOf? := congrArg _ (funext h)
  simp only [enter, hids]
  cases htarget : site.target.bind t.idOf? with
  | none => simp only [reaching_concat_of_none htarget, ← hincoming, placeOf]
  | some n =>
    obtain ⟨sites, hsites, hset⟩ := reaching_concat_of_some hd htarget before
    simp only [incomingAt, hincoming, hsites, checked_some, pure_bind, hset, placeOf]

private theorem foldlM_enter {t : Tables} (h : t.Numbered) (hd : (t.nodes.map Node.id).Nodup) {before : List CallSite}
    (hincoming : t.incoming = reaching t.nodes before) (sites : List CallSite) : sites.foldlM enter t = pure
      { t with
        incoming := reaching t.nodes (before ++ sites)
        places := (sites.map placeOf).reverse ++ t.places } := by
  induction sites generalizing t before with
  | nil => simp [← hincoming]
  | cons site rest ih =>
    have hnumbered : Numbered { t with
        incoming := reaching t.nodes (before ++ [site])
        places := placeOf site :: t.places } := h
    rw [List.foldlM_cons, enter_eq h hd hincoming, pure_bind, ih hnumbered hd rfl]
    simp

/-- The tables hold a lawful graph, and the indexes find what a search finds. -/
structure Sound (t : Tables) : Prop where
  lawful : t.Lawful
  numbered : t.Numbered
  placed : ∀ n position, t.places.lookup (n, position) = (t.siteAt? n n position).map CallSite.id

/-- An index that holds the places of all sites finds the site at a place. -/
theorem lookup_places {g : Graph} (h : g.Lawful) (n : NodeId) (position : Position) :
    ((g.sites.flatten.map placeOf).reverse).lookup (n, position) = (g.siteAt? n n position).map CallSite.id := by
  have hfind : ∀ site ∈ g.sites.flatten, site.id.caller = n → site.position = position →
      g.siteAt? n n position = some site := by
    rintro site hsite rfl rfl
    have hs := h.mem_flatten_sites.1 hsite
    obtain ⟨node, -, hn, -⟩ := h.site?_eq_some_iff.1 hs
    rw [Graph.siteAt?, if_pos rfl]
    exact h.find?_position hn (List.mem_of_getElem? hs)
  cases hlookup : ((g.sites.flatten.map placeOf).reverse).lookup (n, position) with
  | some s =>
    obtain ⟨before, after, hsplit, -⟩ := List.lookup_eq_some_iff.1 hlookup
    have hmem : ((n, position), s) ∈ g.sites.flatten.map placeOf := by
      rw [← List.mem_reverse, hsplit]
      simp
    obtain ⟨site, hsite, heq⟩ := List.mem_map.1 hmem
    obtain ⟨⟨hn, hposition⟩, rfl⟩ : (site.id.caller = n ∧ site.position = position) ∧ site.id = s := by
      simpa [placeOf] using heq
    rw [hfind site hsite hn hposition, Option.map_some]
  | none =>
    cases hs : g.siteAt? n n position with
    | none => rfl
    | some site =>
      obtain ⟨hsite, hn, hposition⟩ := h.site?_of_siteAt? hs
      have hplace := List.lookup_eq_none_iff.1 hlookup (placeOf site)
        (List.mem_reverse.2 (List.mem_map_of_mem (h.mem_flatten_sites.2 hsite)))
      simp [placeOf, hn, hposition] at hplace

/-- Building the tables raises no fault: it gives the graph and its diagnostics, with indexes that fit. -/
theorem build_eq (v : Vocabulary) (marker : String) (files : List SourceFile) :
    ∃ t : Tables, build v marker files = pure (t, (Graph.build v marker files).2) ∧
      t.toGraph = (Graph.build v marker files).1 ∧ t.Sound := by
  have hempty : Numbered {} := fun f => rfl
  obtain ⟨ids, hdeclared, hnumbered⟩ := foldl_declare hempty v [] (markedFunctions marker files)
  have hd : ((addNodes v [] (markedFunctions marker files)).1.map Node.id).Nodup := addNodes_distinct v [] _ .nil
  have hlawful := Graph.build_lawful v marker files
  rw [hdeclared] at hnumbered
  -- the index of ids depends on the functions alone
  have hall : ∀ sites incoming, Numbered
      { nodes := (addNodes v [] (markedFunctions marker files)).1, sites := sites, incoming := incoming, ids := ids } :=
    fun _ _ => hnumbered
  refine ⟨{ Graph.build v marker files |>.1 with
    ids := ids, places := ((Graph.build v marker files).1.sites.flatten.map placeOf).reverse }, ?_, rfl, hlawful,
    hnumbered, lookup_places hlawful⟩
  simp only [build, hdeclared]
  rw [foldlM_collect hnumbered rfl _ (Nat.le_refl _), pure_bind]
  simp only [List.take_length, List.nil_append]
  rw [foldlM_enter (hall _ _) hd (reaching_nil _).symm, pure_bind, List.nil_append, List.append_nil]
  rfl

section Access
variable {t : Tables} {n : NodeId} {s : SiteId} {site : CallSite}

theorem nodeAt_eq {node : Node} (hn : t.node? n = some node) : t.nodeAt n = pure node := by
  rw [nodeAt, ← Graph.node?, hn, checked_some]

theorem siteAt_eq (hs : t.site? s = some site) : t.siteAt s = pure site := by
  cases hsites : t.sites[s.caller]? with
  | none => simp [Graph.site?, Graph.sitesOf, hsites] at hs
  | some sites =>
    have hsite : sites[s.index]? = some site := by simpa [Graph.site?, Graph.sitesOf, hsites] using hs
    rw [siteAt, hsites, checked_some, pure_bind, hsite, checked_some]

variable (h : t.Sound)
include h

theorem Sound.incomingAt_eq {node : Node} (hn : t.node? n = some node) : t.incomingAt n = pure (t.incomingOf n) := by
  have hlt : n < t.incoming.length := by
    rw [h.lawful.incoming_eq, List.length_map]
    exact (List.getElem?_eq_some_iff.1 hn).1
  rw [incomingAt, Graph.incomingOf, List.getElem?_eq_getElem hlt, checked_some, Option.getD_some]

theorem Sound.findNode_eq (f : FunctionId) : t.findNode f = pure (t.find? f) := h.numbered.findNode_eq f

theorem Sound.siteFor_eq (n : NodeId) (position : Position) : t.siteFor n position = pure (t.siteAt? n n position) := by
  rw [siteFor, h.placed]
  cases hs : t.siteAt? n n position with
  | none => rfl
  | some site =>
    obtain ⟨hsite, hcaller, -⟩ := h.lawful.site?_of_siteAt? hs
    simp [siteAt_eq hsite, hcaller]

theorem Sound.calleeOf_eq (hs : t.site? s = some site) : t.calleeOf s = pure (t.callee? s) := by
  rw [calleeOf, siteAt_eq hs, pure_bind, Graph.callee?, hs, Option.bind_some, funext h.numbered]

end Access

end Tables
end PassThrough

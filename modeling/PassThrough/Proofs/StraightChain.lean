import PassThrough.Proofs.Analysis
import PassThrough.Proofs.DeclarationOrder
import PassThrough.Proofs.Heads
import PassThrough.Proofs.Ledger
import PassThrough.Proofs.Representation

/-! Straight chains. A function creates a value and hands it on to the first of `n` relays, each relay hands it on to the next,
and the last function reads it. Whatever the order of the declarations, the graph has one chain, which passes all relays. -/

namespace PassThrough

/-- Where no function has two parameters of one name, each reactive link is met once. -/
theorem Graph.nodup_reactiveLinks {g : Graph} (h : ∀ node ∈ g.nodes, node.paramNames.Nodup) : g.reactiveLinks.Nodup := by
  rw [reactiveLinks_eq, List.nodup_flatMap]
  constructor
  · intro k _
    cases hn : g.node? k with
    | none => simp [reactiveLinksOf, hn]
    | some node =>
      have hnames : (node.reactiveParams.map Parameter.name).Nodup :=
        (h node (List.mem_of_getElem? hn)).sublist (List.filter_sublist.map Parameter.name)
      have hlinks : g.reactiveLinksOf k = (node.reactiveParams.map Parameter.name).map (Link.mk k) := by
        simp [reactiveLinksOf, hn]
      rw [hlinks]
      exact hnames.map fun _ _ heq => (Link.mk.inj heq).2
  · have hnode : ∀ k, ∀ l ∈ g.reactiveLinksOf k, l.node = k := by
      intro k l hl
      obtain ⟨node, -, hl⟩ := List.mem_flatMap.1 hl
      obtain ⟨p, -, rfl⟩ := List.mem_map.1 hl
      rfl
    refine List.nodup_range.imp fun hne l hj hk => hne ?_
    rw [← hnode _ l hj, ← hnode _ l hk]

private theorem Graph.Lawful.incomingOf_eq_singleton {g : Graph} (h : g.Lawful) {k : NodeId} {s : SiteId}
    (hcallee : ∀ s', g.callee? s' = some k ↔ s' = s) : g.incomingOf k = [s] := by
  have hnodup : (g.incomingOf k).Nodup := by
    refine (h.incomingOf_pairwise k).imp ?_
    rintro a _ hbefore rfl
    rcases hbefore with hlt | ⟨-, hlt⟩ <;> exact Nat.lt_irrefl _ hlt
  refine List.perm_singleton.1 ((List.perm_ext_iff_of_nodup hnodup (List.nodup_singleton s)).2 fun s' => ?_)
  rw [h.mem_incomingOf, hcallee, List.mem_singleton]

private theorem filterMap_eq_singleton {α β : Type} {f : α → Option β} {xs : List α} {x : α} {y : β} (hnodup : xs.Nodup)
    (hx : x ∈ xs) (hy : f x = some y) (hrest : ∀ x' ∈ xs, x' ≠ x → f x' = none) : xs.filterMap f = [y] := by
  obtain ⟨before, after, rfl⟩ := List.append_of_mem hx
  have hnotMem : x ∉ before ++ after := (List.nodup_cons.1 (List.nodup_middle.1 hnodup)).1
  have hnone : ∀ x' ∈ before ++ after, f x' = none := fun x' hx' =>
    hrest x' (List.perm_middle.mem_iff.2 (List.mem_cons_of_mem x hx')) fun heq => hnotMem (heq ▸ hx')
  rw [List.filterMap_append, List.filterMap_cons_some hy,
    List.filterMap_eq_nil_iff.2 fun x' hx' => hnone x' (List.mem_append_left _ hx'),
    List.filterMap_eq_nil_iff.2 fun x' hx' => hnone x' (List.mem_append_right _ hx'), List.nil_append]

namespace StraightChain

/-- The functions that get the value, in the order of the calls: `n` relays and the leaf. -/
def name (n i : Nat) : String := if i < n then "Relay" ++ toString i else "Leaf"

/-- A function that builds UI and has the value as its only parameter. -/
def header (t : TypeRef) (name : String) : FunctionHeader :=
  { name, annotations := [{ name := "Composable" }], params := [{ name := "v", type := some t }] }

def pass (next : FunctionHeader) : Stmt := .expr (.callTo next [.positional (.name "v")])

def read : Stmt := .expr (.libraryCall "Text" [.positional (.memberOf (.name "v") "value")])

def creation : Expr :=
  .libraryCall "remember"
    [.trailingLambda (.block false [.expr (.libraryCall "mutableStateOf" [.positional (.literal "0")])])]

/-- Hands the value on to the next function, or reads it if there is none. -/
def stage (t : TypeRef) (n i : Nat) : FunctionDecl :=
  { header t (name n i) with body := [if i < n then pass (header t (name n (i + 1))) else read] }

/-- Creates the value, keeps it in a local and hands it on. -/
def creator (t : TypeRef) (n : Nat) : FunctionDecl :=
  { name := "Creator", annotations := [{ name := "Composable" }]
    body := [.bind "v" creation, pass (header t (name n 0))] }

def program (t : TypeRef) (n : Nat) : List FunctionDecl := creator t n :: (List.range (n + 1)).map (stage t n)

/-- Where the value comes from: the creator holds it in a local. -/
def origin : Origin := ⟨some "v", ⟨"Creator", []⟩, .directCreation, {}⟩

/-- What there is to report for relay `i`. -/
def finding (fileOf : String → String) (t : TypeRef) (n i : Nat) : Finding where
  severity := .warning
  location := ({} : Location).inFile (fileOf (name n i))
  parameter := "v"
  parameterKind := ({} : Vocabulary).kindOf (some t)
  function := ⟨name n i, [t.name]⟩
  forwardedTo := name n (i + 1)
  chain := (List.range (n + 1)).map (name n)
  origin := some origin

private theorem relay_ne_leaf (i : Nat) : "Relay" ++ toString i ≠ "Leaf" := by
  intro heq
  simpa using congrArg String.toList heq

private theorem name_inj {n i j : Nat} (hi : i ≤ n) (hj : j ≤ n) (h : name n i = name n j) : i = j := by
  unfold name at h
  split at h <;> split at h
  · -- the number is read back from its digits
    have hdigits : Nat.toDigits 10 i = Nat.toDigits 10 j := by simpa using congrArg String.toList h
    rw [← Nat.ofDigitChars_toDigits (n := i) (by decide) (Nat.le_refl 10), hdigits,
      Nat.ofDigitChars_toDigits (by decide) (Nat.le_refl 10)]
  · exact absurd h (relay_ne_leaf i)
  · exact absurd h.symm (relay_ne_leaf j)
  · omega

private theorem stage_id (t : TypeRef) (n i : Nat) : (stage t n i).id = ⟨name n i, [t.name]⟩ := rfl

private theorem creator_id (t : TypeRef) (n : Nat) : (creator t n).id = ⟨"Creator", []⟩ := rfl

private theorem mem_program {t : TypeRef} {n : Nat} {f : FunctionDecl} :
    f ∈ program t n ↔ f = creator t n ∨ ∃ i ≤ n, f = stage t n i := by
  simp only [program, List.mem_cons, List.mem_map, List.mem_range, Nat.lt_succ_iff]
  exact or_congr_right (exists_congr fun i => and_congr_right fun _ => eq_comm)

private theorem ids_nodup (t : TypeRef) (n : Nat) : ((program t n).map (·.id)).Nodup := by
  rw [program, List.map_cons, List.map_map, List.nodup_cons]
  constructor
  · intro hmem
    obtain ⟨i, -, heq⟩ := List.mem_map.1 hmem
    have hsignature := congrArg FunctionId.signature heq
    exact absurd hsignature (by simp [stage_id, creator_id])
  · refine List.Nodup.map_on (fun i hi j hj heq => ?_) List.nodup_range
    rw [List.mem_range, Nat.lt_succ_iff] at hi hj
    exact name_inj hi hj (congrArg FunctionId.name heq)

/-- The functions of the program, each with the path of its file. -/
def placed (fileOf : String → String) (t : TypeRef) (n : Nat) : List (String × FunctionDecl) :=
  (program t n).map fun f => (fileOf f.name, f)

/-- The graph is one of the program, with a value of a reactive type: its functions are those of the program, in some
order. -/
structure Pictures (g : Graph) (fileOf : String → String) (t : TypeRef) (n : Nat) : Prop where
  lawful : g.Lawful
  reactive : (({} : Vocabulary).kindOf (some t)).isReactive = true
  mem_nodes : ∀ node, node ∈ g.nodes ↔ ∃ f ∈ program t n, node = Node.ofDecl {} (fileOf f.name) f

private theorem build_pictures {fileOf : String → String} {t : TypeRef} {n : Nat} {files : List SourceFile}
    (ht : (({} : Vocabulary).kindOf (some t)).isReactive = true)
    (h : (markedFunctions "Composable" files).Perm (placed fileOf t n)) :
    Pictures (Graph.build {} "Composable" files).1 fileOf t n where
  lawful := Graph.build_lawful {} "Composable" files
  reactive := ht
  mem_nodes := by
    have hids : ((markedFunctions "Composable" files).map (·.2.id)).Nodup := by
      rw [(h.map _).nodup_iff, placed, List.map_map]
      exact ids_nodup t n
    intro node
    rw [(Graph.build_eq_of_nodup {} "Composable" hids).1, (h.map _).mem_iff, placed, List.map_map, List.mem_map]
    exact exists_congr fun f => and_congr_right fun _ => eq_comm

/-- The number of the function that gets the value after `i` others. -/
def stageAt (g : Graph) (t : TypeRef) (n i : Nat) : NodeId := (g.idOf? (stage t n i).id).getD 0

def creatorAt (g : Graph) (t : TypeRef) (n : Nat) : NodeId := (g.idOf? (creator t n).id).getD 0

/-- The value as a parameter. -/
def link (g : Graph) (t : TypeRef) (n i : Nat) : Link := ⟨stageAt g t n i, "v"⟩

/-- The parameter as the graph holds it. -/
def parameter (fileOf : String → String) (t : TypeRef) (n i : Nat) : Parameter :=
  ⟨"v", some t.name, ({} : Vocabulary).kindOf (some t), ({} : Location).inFile (fileOf (name n i))⟩

/-- The only forward of a relay. -/
def forward (g : Graph) (t : TypeRef) (n i : Nat) : Forward := ⟨⟨stageAt g t n i, 0⟩, "v"⟩

/-- The chain from the creator's call through all relays to the leaf. -/
def chain (g : Graph) (t : TypeRef) (n : Nat) : Chain where
  links := (List.range n).map (link g t n)
  terminal := .consumed (link g t n n)
  entry := .site ⟨creatorAt g t n, 0⟩

/-- The call that hands the value on to the function with number `i`. -/
def passCall (t : TypeRef) (n i : Nat) (position : Position) : CallAt :=
  ⟨position, name n i, .resolved (stage t n i).id, [.positional (.name "v")], {}⟩

/-- The site of that call, the only one of its caller. -/
def passSite (caller : NodeId) (t : TypeRef) (n i : Nat) (position : Position) : CallSite :=
  ⟨⟨caller, 0⟩, name n i, some (stage t n i).id, [⟨"v", .name "v"⟩], position, {}⟩

private theorem renderCalls_stage (t : TypeRef) {n i : Nat} (hi : i < n) :
    (stage t n i).renderCalls = [passCall t n (i + 1) [0]] := by
  simp only [FunctionDecl.renderCalls, stage, hi, if_true]
  rfl

private theorem renderCalls_leaf (t : TypeRef) (n : Nat) : (stage t n n).renderCalls =
    [⟨[0], "Text", .resolved ⟨"Text", []⟩, [.positional (.memberOf (.name "v") "value")], {}⟩] := by
  simp only [FunctionDecl.renderCalls, stage, Nat.lt_irrefl, if_false]
  rfl

private theorem renderCalls_creator (t : TypeRef) (n : Nat) : ∃ args, (creator t n).renderCalls =
    [⟨[0], "remember", .resolved ⟨"remember", []⟩, args, {}⟩, passCall t n 0 [1]] :=
  ⟨_, rfl⟩

namespace Pictures
variable {g : Graph} {fileOf : String → String} {t : TypeRef} {n i : Nat}

private theorem node?_idOf? (h : Pictures g fileOf t n) {f : FunctionDecl} (hf : f ∈ program t n) :
    g.node? ((g.idOf? f.id).getD 0) = some (Node.ofDecl {} (fileOf f.name) f) := by
  obtain ⟨k, hk⟩ := List.mem_iff_getElem?.1 ((h.mem_nodes _).2 ⟨f, hf, rfl⟩)
  have hid : g.idOf? f.id = some k := h.lawful.idOf?_eq_some_iff.2 ⟨_, hk, rfl⟩
  rw [hid]
  exact hk

private theorem node?_stage (h : Pictures g fileOf t n) (hi : i ≤ n) :
    g.node? (stageAt g t n i) = some (Node.ofDecl {} (fileOf (name n i)) (stage t n i)) :=
  h.node?_idOf? (mem_program.2 (.inr ⟨i, hi, rfl⟩))

private theorem node?_creator (h : Pictures g fileOf t n) :
    g.node? (creatorAt g t n) = some (Node.ofDecl {} (fileOf "Creator") (creator t n)) :=
  h.node?_idOf? (mem_program.2 (.inl rfl))

private theorem eq_of_node? (h : Pictures g fileOf t n) {k : NodeId} {node : Node} (hk : g.node? k = some node) :
    k = creatorAt g t n ∨ ∃ i ≤ n, k = stageAt g t n i := by
  obtain ⟨f, hf, rfl⟩ := (h.mem_nodes node).1 (List.mem_of_getElem? hk)
  have hnumber := h.lawful.node_unique hk (h.node?_idOf? hf) rfl
  rcases mem_program.1 hf with rfl | ⟨i, hi, rfl⟩
  · exact .inl hnumber
  · exact .inr ⟨i, hi, hnumber⟩

private theorem find?_stage (h : Pictures g fileOf t n) (hi : i ≤ n) :
    g.nodes.find? (·.id == (stage t n i).id) = some (Node.ofDecl {} (fileOf (name n i)) (stage t n i)) :=
  h.lawful.find?_eq_some_iff.2 ⟨_, h.node?_stage hi, rfl⟩

private theorem resolve_passCall (h : Pictures g fileOf t n) (hi : i ≤ n) (position : Position) :
    (passCall t n i position).resolve g.nodes = .bound (stage t n i).id [⟨"v", .name "v"⟩] := by
  simp only [CallAt.resolve, passCall, h.find?_stage hi]
  rfl

private theorem of_passCall (h : Pictures g fileOf t n) (hi : i ≤ n) (caller : NodeId) (position : Position) :
    CallSite.of g.nodes caller 0 (passCall t n i position) = passSite caller t n i position := by
  rw [CallSite.of, h.resolve_passCall hi]
  rfl

/-- Calls of library functions leave the program. -/
theorem resolve_library (h : Pictures g fileOf t n) {call : CallAt} (callee : String) (hcallee : callee ≠ "Creator")
    (hcall : call.target = .resolved ⟨callee, []⟩) : call.resolve g.nodes = .outside := by
  have hnone : g.nodes.find? (·.id == ⟨callee, []⟩) = none := by
    rw [List.find?_eq_none]
    intro node hnode hid
    obtain ⟨f, hf, rfl⟩ := (h.mem_nodes node).1 hnode
    have heq : f.id = ⟨callee, []⟩ := beq_iff_eq.1 hid
    rcases mem_program.1 hf with rfl | ⟨i, -, rfl⟩
    · exact hcallee (congrArg FunctionId.name heq).symm
    · exact absurd (congrArg FunctionId.signature heq) (by simp [stage_id])
  simp only [CallAt.resolve, hcall, hnone]

private theorem sitesOf_stage (h : Pictures g fileOf t n) (hi : i < n) :
    g.sitesOf (stageAt g t n i) = [passSite (stageAt g t n i) t n (i + 1) [0]] := by
  have hcalls : siteCalls g.nodes (Node.ofDecl {} (fileOf (name n i)) (stage t n i)) = [passCall t n (i + 1) [0]] := by
    rw [siteCalls, Node.ofDecl, renderCalls_stage t hi, List.filter_singleton, h.resolve_passCall hi]
    rfl
  rw [h.lawful.sitesOf_eq (h.node?_stage (Nat.le_of_lt hi)), sitesOfNode, hcalls, List.mapIdx_singleton, h.of_passCall hi]

private theorem sitesOf_leaf (h : Pictures g fileOf t n) : g.sitesOf (stageAt g t n n) = [] := by
  rw [h.lawful.sitesOf_eq (h.node?_stage (Nat.le_refl n)), sitesOfNode, siteCalls, Node.ofDecl, renderCalls_leaf,
    List.filter_singleton, h.resolve_library "Text" (by decide) rfl]
  rfl

private theorem sitesOf_creator (h : Pictures g fileOf t n) :
    g.sitesOf (creatorAt g t n) = [passSite (creatorAt g t n) t n 0 [1]] := by
  obtain ⟨args, hargs⟩ := renderCalls_creator t n
  have hcalls : siteCalls g.nodes (Node.ofDecl {} (fileOf "Creator") (creator t n)) = [passCall t n 0 [1]] := by
    rw [siteCalls, Node.ofDecl, hargs, List.filter_cons, h.resolve_library "remember" (by decide) rfl,
      List.filter_singleton, h.resolve_passCall (Nat.zero_le n)]
    rfl
  rw [h.lawful.sitesOf_eq h.node?_creator, sitesOfNode, hcalls, List.mapIdx_singleton, h.of_passCall (Nat.zero_le n)]

private theorem site?_relay (h : Pictures g fileOf t n) (hi : i < n) :
    g.site? ⟨stageAt g t n i, 0⟩ = some (passSite (stageAt g t n i) t n (i + 1) [0]) := by
  rw [Graph.site?, h.sitesOf_stage hi]
  rfl

private theorem site?_creator (h : Pictures g fileOf t n) :
    g.site? ⟨creatorAt g t n, 0⟩ = some (passSite (creatorAt g t n) t n 0 [1]) := by
  rw [Graph.site?, h.sitesOf_creator]
  rfl

/-- The creator and the relays have one site each, and there are no others. -/
theorem eq_of_site? (h : Pictures g fileOf t n) {s : SiteId} {site : CallSite} (hs : g.site? s = some site) :
    s = ⟨creatorAt g t n, 0⟩ ∧ site.target = some (stage t n 0).id ∨
      ∃ j < n, s = ⟨stageAt g t n j, 0⟩ ∧ site.target = some (stage t n (j + 1)).id := by
  obtain ⟨caller, index⟩ := s
  obtain ⟨_, -, hcaller, -⟩ := h.lawful.site?_eq_some_iff.1 hs
  rcases h.eq_of_node? hcaller with rfl | ⟨j, hj, rfl⟩
  · rw [Graph.site?, h.sitesOf_creator, List.getElem?_singleton, Option.ite_none_right_eq_some] at hs
    obtain ⟨rfl, hs⟩ := hs
    obtain rfl := Option.some.inj hs
    exact .inl ⟨rfl, rfl⟩
  · rcases Nat.lt_or_eq_of_le hj with hj | rfl
    · rw [Graph.site?, h.sitesOf_stage hj, List.getElem?_singleton, Option.ite_none_right_eq_some] at hs
      obtain ⟨rfl, hs⟩ := hs
      obtain rfl := Option.some.inj hs
      exact .inr ⟨j, hj, rfl, rfl⟩
    · rw [Graph.site?, h.sitesOf_leaf] at hs
      cases hs

/-- A site that reaches a function is the one of the function before it. -/
theorem callee?_eq_some_iff (h : Pictures g fileOf t n) (hi : i ≤ n) {s : SiteId} :
    g.callee? s = some (stageAt g t n i) ↔
      s = ⟨creatorAt g t n, 0⟩ ∧ i = 0 ∨ ∃ j, j + 1 = i ∧ s = ⟨stageAt g t n j, 0⟩ := by
  rw [h.lawful.callee?_eq_some_iff]
  constructor
  · rintro ⟨site, node, hs, hn, htarget⟩
    obtain rfl := Option.some.inj ((h.node?_stage hi).symm.trans hn)
    have hnumber : ∀ k ≤ n, site.target = some (stage t n k).id → k = i := fun k hk heq =>
      name_inj hk hi (congrArg FunctionId.name (Option.some.inj (heq.symm.trans htarget)))
    rcases h.eq_of_site? hs with ⟨rfl, heq⟩ | ⟨j, hj, rfl, heq⟩
    · exact .inl ⟨rfl, (hnumber 0 (Nat.zero_le n) heq).symm⟩
    · exact .inr ⟨j, hnumber (j + 1) hj heq, rfl⟩
  · rintro (⟨rfl, rfl⟩ | ⟨j, rfl, rfl⟩)
    · exact ⟨_, _, h.site?_creator, h.node?_stage hi, rfl⟩
    · exact ⟨_, _, h.site?_relay hi, h.node?_stage hi, rfl⟩

private theorem incomingOf_first (h : Pictures g fileOf t n) : g.incomingOf (stageAt g t n 0) = [⟨creatorAt g t n, 0⟩] := by
  refine h.lawful.incomingOf_eq_singleton fun s => ?_
  rw [h.callee?_eq_some_iff (Nat.zero_le n)]
  simp

private theorem incomingOf_next (h : Pictures g fileOf t n) (hi : i < n) :
    g.incomingOf (stageAt g t n (i + 1)) = [⟨stageAt g t n i, 0⟩] := by
  refine h.lawful.incomingOf_eq_singleton fun s => ?_
  rw [h.callee?_eq_some_iff hi]
  simp

private theorem param?_stage (fileOf : String → String) (t : TypeRef) (n i : Nat) :
    (Node.ofDecl {} (fileOf (name n i)) (stage t n i)).param? "v" = some (parameter fileOf t n i) :=
  rfl

private theorem param?_link (h : Pictures g fileOf t n) (hi : i ≤ n) :
    g.param? (link g t n i) = some (parameter fileOf t n i) := by
  rw [Graph.param?, link, h.node?_stage hi]
  rfl

private theorem argumentUse_relay (h : Pictures g fileOf t n) (hi : i < n) :
    Scan.argumentUse ⟨g, stageAt g t n i, "v", ({} : Vocabulary).kindOf (some t)⟩
      (passSite (stageAt g t n i) t n (i + 1) [0]) 0 = .forward (forward g t n i) := by
  have hcallee : (g.find? (stage t n (i + 1)).id).bind (·.param? "v") = some (parameter fileOf t n (i + 1)) := by
    rw [Graph.find?, h.find?_stage hi]
    rfl
  have hkind := Kind.assignableTo_self h.reactive
  simp only [Scan.argumentUse, passSite, CallSite.paramOf?, List.getElem?_cons_zero, Option.map_some, hcallee, parameter,
    hkind, if_true]
  rfl

private theorem usageOf_relay (h : Pictures g fileOf t n) (hi : i < n) :
    g.usageOf (link g t n i) = ⟨.forwarded (forward g t n i), [forward g t n i], 1, 0⟩ := by
  have hsite : g.siteAt? (stageAt g t n i) (stageAt g t n i) [0] = some (passSite (stageAt g t n i) t n (i + 1) [0]) := by
    rw [Graph.siteAt?, if_pos rfl, h.sitesOf_stage hi]
    rfl
  have huses : g.uses (link g t n i) (Node.ofDecl {} (fileOf (name n i)) (stage t n i)) (({} : Vocabulary).kindOf (some t)) =
      [.forward (forward g t n i)] := by
    have hbody : (stage t n i).body = [pass (header t (name n (i + 1)))] := by simp [stage, hi]
    simp [Graph.uses, Node.ofDecl, hbody, Scan.blockUses, Scan.stmtUses, pass, Expr.callTo, Scan.exprUses,
      Argument.positional, Scan.argUses, Expr.name, Expr.ident?, link, hsite, h.argumentUse_relay hi]
  rw [h.lawful.usageOf_eq (h.node?_stage (Nat.le_of_lt hi)) (param?_stage fileOf t n i)]
  simp only [parameter, huses, Usage.ofUses, List.filterMap_cons, Use.forward?, List.filterMap_nil, Graph.reached, forward,
    h.site?_relay hi, Option.bind_some, passSite]
  rfl

private theorem isConsumed_leaf (h : Pictures g fileOf t n) : (g.usageOf (link g t n n)).isConsumed = true := by
  have hbody : (stage t n n).body = [read] := by simp [stage]
  have hsite : g.siteAt? (stageAt g t n n) (stageAt g t n n) [0] = none := by
    rw [Graph.siteAt?, if_pos rfl, h.sitesOf_leaf]
    rfl
  rw [Usage.isConsumed_iff, h.lawful.usageOf_eq (h.node?_stage (Nat.le_refl n)) (param?_stage fileOf t n n),
    Usage.ofUses_consumed_iff]
  simp [Graph.uses, Node.ofDecl, hbody, Scan.blockUses, Scan.stmtUses, read, Expr.libraryCall, Expr.memberOf, Scan.exprUses,
    Argument.positional, Scan.argUses, Expr.name, Expr.ident?, link, hsite]

private theorem relay_link (h : Pictures g fileOf t n) (hi : i < n) : g.Relay (link g t n i) := by
  rw [Graph.Relay, h.usageOf_relay hi]
  exact ⟨rfl, Nat.le_refl 1⟩

private theorem not_relay_leaf (h : Pictures g fileOf t n) : ¬ g.Relay (link g t n n) := by
  intro hr
  simpa [h.isConsumed_leaf] using hr.not_consumed

private theorem callee?_relay (h : Pictures g fileOf t n) (hi : i < n) :
    g.callee? ⟨stageAt g t n i, 0⟩ = some (stageAt g t n (i + 1)) :=
  (h.callee?_eq_some_iff hi).2 (.inr ⟨i, rfl, rfl⟩)

private theorem successor?_link (h : Pictures g fileOf t n) (hi : i < n) :
    g.successor? (link g t n i) = some (link g t n (i + 1)) := by
  rw [Graph.successor?, h.usageOf_relay hi]
  exact congrArg (Option.map fun k => Link.mk k "v") (h.callee?_relay hi)

/-- From any relay on, the value passes the remaining relays and stops at the leaf. -/
theorem relayRun (h : Pictures g fileOf t n) (k : Nat) (hi : i + k = n) :
    g.RelayRun (link g t n i) ((List.range' i k).map (link g t n)) (link g t n n) := by
  -- `k` counts the relays that are left
  induction k generalizing i with
  | zero =>
    obtain rfl : i = n := hi
    exact .stop _
  | succ k ih =>
    have hlt : i < n := by omega
    exact .step (h.relay_link hlt) (h.successor?_link hlt) (ih (by omega))

private theorem stopAt_leaf (h : Pictures g fileOf t n) : g.stopAt (link g t n n) = .consumed (link g t n n) := by
  have hd : (g.usageOf (link g t n n)).isDistribution = false := by
    simp [Usage.isDistribution, Usage.isForwarded, Usage.forward?, Usage.isConsumed_iff.1 h.isConsumed_leaf]
  simp [Graph.stopAt, hd, h.isConsumed_leaf]

/-- The creator has no parameter that it could hand on, so the chain is entered at its call. -/
theorem entryPoint?_first (h : Pictures g fileOf t n) :
    g.entryPoint? (link g t n 0) = some (.site ⟨creatorAt g t n, 0⟩) := by
  rw [h.lawful.entryPoint?_eq_some_iff, h.lawful.enteredAt_site_iff, link, h.incomingOf_first]
  have hsupplies : g.argument? ⟨creatorAt g t n, 0⟩ "v" = some (.name "v") := by
    rw [Graph.argument?, h.site?_creator]
    rfl
  have hparam : g.param? ⟨creatorAt g t n, "v"⟩ = none := by
    rw [Graph.param?, h.node?_creator]
    rfl
  simp [Graph.suppliesAfresh, hsupplies, Graph.isRelayedAt_eq, Expr.name, Expr.ident?, hparam]

private theorem entryPoint?_next (h : Pictures g fileOf t n) (hi : i < n) : g.entryPoint? (link g t n (i + 1)) = none := by
  have hsupplies : g.argument? ⟨stageAt g t n i, 0⟩ "v" = some (.name "v") := by
    rw [Graph.argument?, h.site?_relay hi]
    rfl
  have hparam : g.param? ⟨stageAt g t n i, "v"⟩ = some (parameter fileOf t n i) := h.param?_link (Nat.le_of_lt hi)
  have husage : g.usageOf ⟨stageAt g t n i, "v"⟩ = _ := h.usageOf_relay hi
  have hrelayed : g.isRelayedAt ⟨stageAt g t n i, 0⟩ (.name "v") "v" = true := by
    rw [Graph.isRelayedAt_eq]
    simp [Expr.name, Expr.ident?, hparam, husage, parameter, h.reactive, Usage.isDistribution, Usage.forward?, forward]
  rw [Graph.entryPoint?_eq_none_iff, link, h.incomingOf_next hi]
  simp [Graph.suppliesAfresh, hsupplies, hrelayed]

private theorem mem_reactiveLinks_iff (h : Pictures g fileOf t n) {l : Link} :
    l ∈ g.reactiveLinks ↔ ∃ i ≤ n, l = link g t n i := by
  rw [Graph.mem_reactiveLinks]
  constructor
  · rintro ⟨node, p, hn, hp, -, hname⟩
    rcases h.eq_of_node? hn with hcreator | ⟨i, hi, hstage⟩
    · rw [hcreator, h.node?_creator] at hn
      obtain rfl := Option.some.inj hn
      exact absurd hp List.not_mem_nil
    · rw [hstage, h.node?_stage hi] at hn
      obtain rfl := Option.some.inj hn
      obtain rfl : p = parameter fileOf t n i := List.mem_singleton.1 hp
      exact ⟨i, hi, by cases l; cases hstage; cases hname; rfl⟩
  · rintro ⟨i, hi, rfl⟩
    have hkind : (parameter fileOf t n i).kind.isReactive = true := by simp only [parameter, h.reactive]
    exact ⟨_, parameter fileOf t n i, h.node?_stage hi, List.mem_singleton_self _, hkind, rfl⟩

private theorem reactiveLinks_nodup (h : Pictures g fileOf t n) : g.reactiveLinks.Nodup := by
  refine Graph.nodup_reactiveLinks fun node hnode => ?_
  obtain ⟨f, hf, rfl⟩ := (h.mem_nodes node).1 hnode
  rcases mem_program.1 hf with rfl | ⟨i, -, rfl⟩
  · exact .nil
  · exact List.nodup_singleton "v"

/-- There is one chain, which passes all relays, unless there are none. -/
theorem chains_eq (h : Pictures g fileOf t n) : g.chains = if 1 ≤ n then [chain g t n] else [] := by
  -- every later link is supplied along the chain of its caller, so no chain starts there
  have hnone : ∀ l ∈ g.reactiveLinks, l ≠ link g t n 0 → g.chain? l = none := by
    intro l hl hne
    obtain ⟨i, hi, rfl⟩ := h.mem_reactiveLinks_iff.1 hl
    cases i with
    | zero => exact absurd rfl hne
    | succ i => rw [Graph.chain?, h.entryPoint?_next hi, Option.map_none, ite_self]
  split
  · rename_i hn
    have hrun := h.relayRun n (Nat.zero_add n)
    have hmem : link g t n 0 ∈ (List.range' 0 n).map (link g t n) :=
      List.mem_map_of_mem (List.mem_range'_1.2 ⟨Nat.le_refl 0, by omega⟩)
    obtain ⟨hfirst, hchain⟩ := hrun.chain?_eq h.lawful h.not_relay_leaf hmem h.entryPoint?_first
    rw [h.stopAt_leaf, ← List.range_eq_range'] at hchain
    exact filterMap_eq_singleton h.reactiveLinks_nodup hfirst hchain hnone
  · rename_i hn
    obtain rfl : n = 0 := by omega
    refine List.filterMap_eq_nil_iff.2 fun l hl => ?_
    by_cases heq : l = link g t 0 0
    · rw [heq, ← Option.not_isSome_iff_eq_none, h.lawful.isSome_chain?_iff]
      exact fun hr => h.not_relay_leaf hr.1
    · exact hnone l hl heq

private theorem path_chain (h : Pictures g fileOf t n) : (chain g t n).path g = (List.range (n + 1)).map (name n) := by
  have hlinks : (chain g t n).links ++ [(chain g t n).terminal.link] = (List.range (n + 1)).map (link g t n) := by
    rw [List.range_succ, List.map_append]
    rfl
  rw [Chain.path, hlinks, List.map_map]
  refine List.map_congr_left fun i hi => ?_
  simp only [Function.comp_apply, link, Graph.nameOf, h.node?_stage (Nat.lt_succ_iff.1 (List.mem_range.1 hi))]
  rfl

/-- The argument at the creator's call is the local, which the creation initialises. -/
theorem originStep_creator (h : Pictures g fileOf t n) :
    g.originStep {} ⟨creatorAt g t n, 0⟩ "v" = .found origin := by
  simp only [Graph.originStep, h.site?_creator, h.node?_creator]
  rfl

private theorem originOf_chain (h : Pictures g fileOf t n) (hn : 1 ≤ n) : g.originOf {} (chain g t n) = some origin := by
  obtain ⟨k, rfl⟩ := Nat.exists_eq_add_of_le' hn
  have hlinks : (chain g t (k + 1)).links = link g t (k + 1) 0 :: (List.range k).map (link g t (k + 1) ∘ Nat.succ) := by
    rw [chain, List.range_succ_eq_map, List.map_cons, List.map_map]
  have hentry : (chain g t (k + 1)).entry = .site ⟨creatorAt g t (k + 1), 0⟩ := rfl
  simp only [Graph.originOf, hlinks, hentry, Graph.originAt, link]
  rw [Graph.originFrom, h.originStep_creator]

private theorem stepsOf_chain (h : Pictures g fileOf t n) :
    Reporter.stepsOf g (chain g t n) = (List.range n).map fun i => (link g t n i, name n (i + 1)) := by
  rw [Reporter.stepsOf, h.path_chain, List.range_succ_eq_map, List.map_cons, List.tail_cons, List.map_map, chain,
    List.zip_map']
  rfl

private theorem findingAt?_link (h : Pictures g fileOf t n) (m : Nat) (hi : i < n) :
    Reporter.findingAt? g { minRelayLinks := m } ((List.range (n + 1)).map (name n)) (some origin)
      (link g t n i, name n (i + 1)) = some (finding fileOf t n i) := by
  have hsuppressed : (Node.ofDecl {} (fileOf (name n i)) (stage t n i)).decl.isSuppressed
      ["ReactivePassThrough", "StatePassThrough"] = false := rfl
  simp only [Reporter.findingAt?, link, h.node?_stage (Nat.le_of_lt hi), Option.bind_some, param?_stage, hsuppressed]
  simp only [Bool.false_eq_true, if_false, parameter, finding, Node.ofDecl, stage_id]

private theorem newFindings_chain (h : Pictures g fileOf t n) (m : Nat) :
    Reporter.newFindings g { minRelayLinks := m } [] (chain g t n, some origin) =
      (List.range n).map (finding fileOf t n) := by
  have hunseen : ∀ xs : List (Link × String), xs.filter (fun x => !List.contains [] x.1) = xs := by simp
  rw [Reporter.newFindings, hunseen, h.stepsOf_chain, h.path_chain, List.filterMap_map]
  exact (List.filterMap_congr fun i hi => h.findingAt?_link m (List.mem_range.1 hi)).trans
    (congrFun List.filterMap_eq_map (List.range n))

/-- All relays are reported, in their order, if there are enough of them. -/
theorem findings_reportChains (h : Pictures g fileOf t n) (m : Nat) :
    (reportChains { detection := { minRelayLinks := m } } g g.chains).findings =
      if m ≤ n then (List.range n).map (finding fileOf t n) else [] := by
  by_cases hn : 1 ≤ n
  · have hchains : g.chains = [chain g t n] := by rw [h.chains_eq, if_pos hn]
    have hqualifies : (chain g t n).qualifies m = decide (m ≤ n) := by
      simp [Chain.qualifies, Chain.isConsumed, chain]
    by_cases hm : m ≤ n
    · have hnodup : (chain g t n).links.Nodup := (h.lawful.chain_links (hchains ▸ List.mem_singleton_self _)).1
      have hreport : reportChains { detection := { minRelayLinks := m } } g g.chains =
          (Reporter.report { graph := g, detection := { minRelayLinks := m } } (chain g t n) (some origin)).1 := by
        simp [reportChains, hchains, hqualifies, hm, h.originOf_chain hn]
      rw [hreport, Reporter.report_eq, if_pos hm, ← h.newFindings_chain m]
      exact (List.nil_append _).trans (Reporter.added_eq_newFindings _ hnodup (some origin))
    · simp [reportChains, hchains, hm, hqualifies]
  · obtain rfl : n = 0 := by omega
    simp [reportChains, h.chains_eq]

end Pictures

end StraightChain

/-- A straight program, its functions declared in any order and in any files, has one chain, or none if it has no relay. If
there are as many relays as the threshold asks for, all of them are reported, in the order in which the value passes them: each
with the function that it hands the value to, the functions of the whole chain, and the local of the creator as the origin. -/
theorem analyze_straight_chain (n m : Nat) (t : TypeRef) (fileOf : String → String) (files : List SourceFile)
    (ht : (({} : Vocabulary).kindOf (some t)).isReactive = true)
    (hfiles : (markedFunctions "Composable" files).Perm (StraightChain.placed fileOf t n)) :
    let report := analyze { detection := { minRelayLinks := m } } files
    report.findings = (if m ≤ n then (List.range n).map (StraightChain.finding fileOf t n) else []) ∧
      report.stats.chains = if 1 ≤ n then 1 else 0 := by
  intro report
  have h := StraightChain.build_pictures ht hfiles
  have hreport : report = _ := analyze_eq { detection := { minRelayLinks := m } } files
  constructor
  · rw [hreport]
    exact h.findings_reportChains m
  · rw [hreport]
    dsimp only
    rw [h.chains_eq]
    split <;> rfl

theorem analyze_straight_chain_leaf_first :
    let t : TypeRef := { name := "MutableState<Int>" }
    let files : List SourceFile := [⟨"screens.kt", (StraightChain.program t 2).reverse⟩]
    let report := analyze {} files
    (markedFunctions "Composable" files).Perm (StraightChain.placed (fun _ => "screens.kt") t 2) ∧
      report.findings.map (fun f => (f.function.name, f.forwardedTo)) = [("Relay0", "Relay1"), ("Relay1", "Leaf")] ∧
      report.findings.map Finding.origin = List.replicate 2 (some ⟨some "v", ⟨"Creator", []⟩, .directCreation, {}⟩) ∧
      report.stats.chains = 1 := by
  intro t files report
  have hfiles : (markedFunctions "Composable" files).Perm (StraightChain.placed (fun _ => "screens.kt") t 2) :=
    List.reverse_perm (StraightChain.placed (fun _ => "screens.kt") t 2)
  have hreactive : (({} : Vocabulary).kindOf (some t)).isReactive = true := by decide +kernel
  obtain ⟨hfindings, hchains⟩ := analyze_straight_chain 2 2 t (fun _ => "screens.kt") files hreactive hfiles
  refine ⟨hfiles, ?_, ?_, ?_⟩
  · rw [hfindings]
    decide +kernel
  · rw [hfindings]
    decide +kernel
  · rw [hchains]
    rfl

end PassThrough

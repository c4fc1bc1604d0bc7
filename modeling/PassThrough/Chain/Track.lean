import PassThrough.Chain.Basic

/-! Finding the chains of a graph. The walks ask for usages one at a time, through `ask`, so that
they run with memory as well as without. They keep the pool of links that they have not met yet,
which bounds them; a link outside the pool has been met before. -/

namespace PassThrough.Graph
variable {m : Type → Type} [Monad m]

/-- The parameter to which a forward leads. -/
def next? (g : Graph) (f : Forward) : Option Link :=
  (g.callee? f.site).map fun n => ⟨n, f.param⟩

def without (pool : List Link) (l : Link) : List Link := pool.filter (· ≠ l)

theorem length_without_lt {pool : List Link} {l : Link} (h : l ∈ pool) :
    (without pool l).length < pool.length := by
  refine List.length_filter_lt_length_iff_exists.2 ⟨l, h, ?_⟩
  simp

/-- Whether some link of `pending`, or a link below one along any forward, is read. -/
def readerBelow (g : Graph) (ask : Link → m Usage) (pool : List Link) : List Link → m Bool
  | [] => pure false
  | l :: pending =>
    if _h : l ∈ pool then do
      let u ← ask l
      if u.isConsumed then pure true
      else
        readerBelow g ask (without pool l) ((u.forwards.filterMap g.next?).reverse ++ pending)
    else readerBelow g ask pool pending
termination_by pending => (pool.length, pending.length)
decreasing_by
  · exact Prod.Lex.left _ _ (length_without_lt _h)
  · exact Prod.Lex.right _ (Nat.lt_succ_self _)

/-- Whether the value is read below a parameter that is handed to several functions. -/
def reachesReader (g : Graph) (ask : Link → m Usage) (l : Link) : m Bool :=
  readerBelow g ask (l :: g.links) [l]

/-- Follows the forwards of a link through the links of the pool. -/
def followFrom (g : Graph) (ask : Link → m Usage) (pool : List Link) (l : Link) : m Walk :=
  if _h : l ∈ pool then do
    let u ← ask l
    if u.isDistribution then
      let read ← g.reachesReader ask l
      pure ⟨[], if read then .distributed l else .unused l⟩
    else
      match u.forward? with
      | none => pure ⟨[], if u.isConsumed then .consumed l else .unused l⟩
      | some f =>
        match g.next? f with
        | none => pure ⟨[], .unused l⟩
        | some next => do
          let w ← followFrom g ask (without pool l) next
          pure ⟨l :: w.links, w.terminal⟩
  else pure ⟨[], .cycle l⟩
termination_by pool.length
decreasing_by exact length_without_lt _h

def follow (g : Graph) (ask : Link → m Usage) (l : Link) : m Walk :=
  followFrom g ask (l :: g.links) l

/-- Whether an argument bound at a site is the caller handing on one of its own parameters, along
the forward that chains follow. -/
def relays (g : Graph) (ask : Link → m Usage) (s : SiteId) (argument : Expr) (param : String) :
    m Bool :=
  match argument.ident? with
  | none => pure false
  | some name =>
    match g.param? ⟨s.caller, name⟩ with
    | none => pure false
    | some p =>
      if p.kind.isReactive then do
        let u ← ask ⟨s.caller, name⟩
        pure (!u.isDistribution && u.forward? == some ⟨s, param⟩)
      else pure false

/-- Where a chain that starts at a parameter is entered, looking at the given sites; `supplied` says
that an earlier site supplies the parameter. A parameter that is supplied only along chains starts
none. -/
def entryFrom (g : Graph) (ask : Link → m Usage) (param : String) (supplied : Bool) :
    List SiteId → m (Option Entry)
  | [] => pure (if supplied then none else some .root)
  | s :: rest =>
    match g.argument? s param with
    | none => entryFrom g ask param supplied rest
    | some argument => do
      if ← g.relays ask s argument param then entryFrom g ask param true rest
      else pure (some (.site s))

def entryOf (g : Graph) (ask : Link → m Usage) (l : Link) : m (Option Entry) :=
  entryFrom g ask l.param false (g.incomingOf l.node)

/-- The chain that starts at a parameter, if one does. -/
def chainAt (g : Graph) (ask : Link → m Usage) (l : Link) : m (Option Chain) := do
  let u ← ask l
  if !u.isForwarded || u.isDistribution then pure none
  else
    match ← g.entryOf ask l with
    | none => pure none
    | some entry => do
      let w ← g.follow ask l
      pure (some { w with entry })

def chainsAt (g : Graph) (ask : Link → m Usage) : List Link → m (List Chain)
  | [] => pure []
  | l :: rest => do
    let c ← g.chainAt ask l
    let cs ← chainsAt g ask rest
    pure (c.toList ++ cs)

/-- All chains of the graph, by function and then by parameter. -/
def track (g : Graph) (ask : Link → m Usage) : m (List Chain) :=
  chainsAt g ask g.reactiveLinks

end PassThrough.Graph

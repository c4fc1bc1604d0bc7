import PassThrough.Chain.Track
import PassThrough.Origin.Scope

/-! Walking back from a call site to the expression that creates the value passed there. -/

namespace PassThrough

/-- One step back: the origin is found, the walk stops without one, or the value comes from a
parameter of the caller. -/
inductive OriginStep where
  | found (origin : Origin)
  | lost
  | outer (param : String)

namespace Graph

/-- What the caller's own parameter gives, if the name is one. -/
def outerParam (caller : Node) (name : String) : OriginStep :=
  match caller.param? name with
  | some p => .outer p.name
  | none => .lost

/-- Where a name used as an argument at a site gets its value. -/
def nameStep (v : Vocabulary) (caller : Node) (site : CallSite) (name : String) : OriginStep :=
  match caller.decl.binderAt site.position name with
  | none => outerParam caller name
  | some .inner => .lost
  | some (.val true _ _) => .lost
  | some (.val false none _) => .lost
  | some (.val false (some e) location) =>
    match v.creationKind e with
    | some kind => .found ⟨some name, caller.id, kind, location⟩
    | none =>
      match e.ident? with
      | some source => outerParam caller source
      | none => .lost

/-- Where the argument bound to a parameter at a site gets its value. -/
def originStep (g : Graph) (v : Vocabulary) (s : SiteId) (param : String) : OriginStep :=
  match g.site? s, g.node? s.caller with
  | some site, some caller =>
    match site.argument? param with
    | none => .lost
    | some e =>
      match v.creationKind e with
      | some kind => .found ⟨none, caller.id, kind, site.location⟩
      | none =>
        match e.ident? with
        | some name => nameStep v caller site name
        | none => .lost
  | _, _ => .lost

/-- The first site that supplies a parameter. -/
def supplier? (g : Graph) (l : Link) : Option SiteId :=
  (g.incomingOf l.node).find? fun s => (g.argument? s l.param).isSome

/-- Walks back through the callers, each of whose parameters is passed once. -/
def originFrom (g : Graph) (v : Vocabulary) (pool : List Link) (s : SiteId) (param : String) :
    Option Origin :=
  match g.originStep v s param with
  | .found origin => some origin
  | .lost => none
  | .outer outer =>
    if _h : ⟨s.caller, outer⟩ ∈ pool then
      match g.supplier? ⟨s.caller, outer⟩ with
      | some supplier => originFrom g v (without pool ⟨s.caller, outer⟩) supplier outer
      | none => none
    else none
termination_by pool.length
decreasing_by exact length_without_lt _h

/-- The origin of the argument bound to a parameter at a site. -/
def originAt (g : Graph) (v : Vocabulary) (s : SiteId) (param : String) : Option Origin :=
  g.originFrom v g.links s param

/-- The origin of the value that a chain hands on. -/
def originOf (g : Graph) (v : Vocabulary) (c : Chain) : Option Origin :=
  match c.entry, c.links with
  | .site s, head :: _ => g.originAt v s head.param
  | _, _ => none

end Graph
end PassThrough

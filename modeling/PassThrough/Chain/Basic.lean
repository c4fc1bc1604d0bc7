import PassThrough.Usage.Memo

/-! Pass-through chains. -/

namespace PassThrough

/-- How a chain ends: the value is read, handed to several functions of which one reads it,
dropped, or comes back to a parameter that the chain has passed. -/
inductive Terminal where
  | consumed (link : Link)
  | distributed (link : Link)
  | unused (link : Link)
  | cycle (link : Link)
  deriving DecidableEq, Repr

def Terminal.link : Terminal → Link
  | .consumed l => l
  | .distributed l => l
  | .unused l => l
  | .cycle l => l

/-- Where the first parameter of a chain gets its value: from nowhere in the graph, or at a call
site. -/
inductive Entry where
  | root
  | site (id : SiteId)
  deriving DecidableEq, Repr

/-- The parameters that hand the value on, and where it ends up. -/
structure Walk where
  links : List Link
  terminal : Terminal
  deriving DecidableEq, Repr

structure Chain extends Walk where
  entry : Entry
  deriving DecidableEq, Repr

namespace Chain

/-- The value is needed at the end of the chain. -/
def isConsumed (c : Chain) : Bool :=
  match c.terminal with
  | .consumed _ => true
  | .distributed _ => true
  | _ => false

def qualifies (c : Chain) (minLinks : Nat) : Bool :=
  c.isConsumed && minLinks ≤ c.links.length

/-- The names of the functions from the first link to the terminal. -/
def path (c : Chain) (g : Graph) : List String :=
  (c.links ++ [c.terminal.link]).map fun l => g.nameOf l.node

end Chain
end PassThrough

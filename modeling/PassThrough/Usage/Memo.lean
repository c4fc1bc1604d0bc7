import PassThrough.Usage.Scan

/-! Usages worked out once and remembered. -/

namespace PassThrough

/-- The usages known so far and the diagnostics recorded so far. -/
structure Memo where
  usages : List (Link × Usage) := []
  errors : List Diagnostic := []

namespace Memo

def known? (m : Memo) (l : Link) : Option Usage := m.usages.lookup l

/-- Remembers a usage in place of the one known for the parameter. -/
def store (m : Memo) (l : Link) (u : Usage) : Memo :=
  if m.usages.any (·.1 == l) then
    { m with usages := m.usages.map fun e => if e.1 == l then (l, u) else e }
  else { m with usages := m.usages ++ [(l, u)] }

def record (m : Memo) (d : Diagnostic) : Memo := { m with errors := m.errors ++ [d] }

def size (m : Memo) : Nat := m.usages.length

end Memo

namespace Graph

/-- The usage of a parameter, worked out afresh. What cannot be classified counts as unused. -/
def usageOf (g : Graph) (l : Link) : Usage :=
  match g.classify l with
  | .ok u => u
  | .error _ => {}

def usageDiagnostic (g : Graph) (l : Link) (p : UsageProblem) : Diagnostic :=
  match g.node? l.node with
  | some node => Diagnostic.ofFailure node.id p.failure
  | none => { message := p.failure.message }

/-- The usage of a parameter, from memory if it is known. A failure is recorded once. -/
def memoUsage (g : Graph) (l : Link) : StateM Memo Usage := fun m =>
  match m.known? l with
  | some u => (u, m)
  | none =>
    match g.classify l with
    | .ok u => (u, m.store l u)
    | .error p => ({}, (m.record (g.usageDiagnostic l p)).store l {})

end Graph
end PassThrough

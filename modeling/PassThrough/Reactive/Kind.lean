/-! Kinds of reactive containers, ordered by which may stand in for which. -/

namespace PassThrough

/-- `plain` is everything that is no reactive container. -/
inductive Kind where
  | plain
  | valueHolder
  | mutableValueHolder
  | stream
  | hotStream
  | mutableHotStream
  deriving DecidableEq, Repr, Inhabited

namespace Kind

def all : List Kind :=
  [.plain, .valueHolder, .mutableValueHolder, .stream, .hotStream, .mutableHotStream]

def text : Kind → String
  | .plain => "none"
  | .valueHolder => "value-holder"
  | .mutableValueHolder => "mutable-value-holder"
  | .stream => "stream"
  | .hotStream => "hot-stream"
  | .mutableHotStream => "mutable-hot-stream"

def ofText? (s : String) : Option Kind := all.find? (·.text == s)

def isReactive (k : Kind) : Bool := k != .plain

/-- Whether a container of the first kind may be passed where the second is expected. -/
def assignableTo : Kind → Kind → Bool
  | .plain, _ => false
  | .valueHolder, .valueHolder => true
  | .mutableValueHolder, .valueHolder => true
  | .mutableValueHolder, .mutableValueHolder => true
  | .stream, .stream => true
  | .hotStream, .stream => true
  | .hotStream, .hotStream => true
  | .mutableHotStream, .stream => true
  | .mutableHotStream, .hotStream => true
  | .mutableHotStream, .mutableHotStream => true
  | _, _ => false

/-- How deep the kind lies below the ones it can stand in for. -/
def specificity : Kind → Nat
  | .plain => 0
  | .valueHolder => 1
  | .stream => 1
  | .mutableValueHolder => 2
  | .hotStream => 2
  | .mutableHotStream => 3

end Kind
end PassThrough

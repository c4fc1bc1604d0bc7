import PassThrough.Text.Digits

/-! JSON values, and the record shapes that the readers of this library accept. -/

namespace PassThrough

/-- A JSON value. A number written as digits alone is `natural`; any other number keeps its text.
Members stay in the order of the text, repeated names included. -/
inductive Json where
  | null
  | bool (value : Bool)
  | natural (value : Nat)
  | number (literal : String)
  | string (value : String)
  | array (items : List Json)
  | object (members : List (String × Json))
  deriving Repr, Inhabited

namespace Json

mutual
/-- How many arrays and objects are nested in the value at most. -/
def depth : Json → Nat
  | .array items => depthItems items + 1
  | .object members => depthMembers members + 1
  | _ => 0
def depthItems : List Json → Nat
  | [] => 0
  | j :: rest => max j.depth (depthItems rest)
def depthMembers : List (String × Json) → Nat
  | [] => 0
  | (_, j) :: rest => max j.depth (depthMembers rest)
end

def text? : Json → Option String
  | .string s => some s
  | _ => none

def bool? : Json → Option Bool
  | .bool b => some b
  | _ => none

/-- A count that fits in 64 bits. -/
def count? : Json → Option Nat
  | .natural n => if n < Text.countLimit then some n else none
  | _ => none

def list? {α : Type} (decode : Json → Option α) : Json → Option (List α)
  | .array items => items.mapM decode
  | _ => none

/-- What a record says about one of its fields: a value, or nothing. -/
abbrev Slot := Option Json

namespace Slot
variable {α : Type}

def required (decode : Json → Option α) : Slot → Option α
  | some j => decode j
  | none => none

def withDefault (value : α) (decode : Json → Option α) : Slot → Option α
  | some j => decode j
  | none => some value

/-- A field that may be left out or be `null`. -/
def optional (decode : Json → Option α) : Slot → Option (Option α)
  | some .null => some none
  | some j => (decode j).map some
  | none => some none

end Slot

/-- The value of the member `name`; `none` if the name is repeated. -/
def member? (members : List (String × Json)) (name : String) : Option Slot :=
  match members.filter (·.1 == name) with
  | [] => some none
  | [m] => some (some m.2)
  | _ => none

/-- The fields of a record, in the order of `names`. A record is an object, whose other members
are ignored, or an array of its fields, of which the last ones may be left out. -/
def fields? (names : List String) : Json → Option (List Slot)
  | .object members => names.mapM (member? members)
  | .array items =>
    if items.length ≤ names.length then
      some (items.map some ++ List.replicate (names.length - items.length) none)
    else none
  | _ => none

/-- One alternative of a tagged record: the name that selects it and its fields. -/
structure Variant (τ : Type) where
  tag : τ
  name : String
  fields : List String

namespace Variant
variable {τ : Type}

/-- The alternative that a `kind` selects, by name or by number. -/
def select (variants : List (Variant τ)) : Json → Option (Variant τ)
  | .string s => variants.find? (·.name == s)
  | .natural n => variants[n]?
  | _ => none

/-- The alternative and the fields of a tagged record: an object with a member `kind`, or an array
that starts with its kind. -/
def read? (variants : List (Variant τ)) : Json → Option (τ × List Slot)
  | .object members => do
    let kind ← (← member? members "kind")
    let v ← select variants kind
    return (v.tag, ← (Json.object members).fields? v.fields)
  | .array (kind :: items) => do
    let v ← select variants kind
    return (v.tag, ← (Json.array items).fields? v.fields)
  | _ => none

end Variant
end Json
end PassThrough

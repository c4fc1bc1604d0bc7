import PassThrough.Text.Digits

/-! TOML values. -/

namespace PassThrough

/-- A TOML value. Floats and dates are told apart from the rest but not read. A number is unreadable
if it has no value, or one that neither 128 bits nor a double can hold. -/
inductive Toml where
  | string (value : String)
  | integer (value : Int)
  | float
  | boolean (value : Bool)
  | datetime
  | unreadable
  | array (items : List Toml)
  | table (entries : List (String × Toml))
  deriving Repr, Inhabited

namespace Toml

def text? : Toml → Option String
  | .string s => some s
  | _ => none

/-- A count that fits in 64 bits. -/
def count? : Toml → Option Nat
  | .integer n => if 0 ≤ n && n < Text.countLimit then some n.toNat else none
  | _ => none

def texts? : Toml → Option (List String)
  | .array items => items.mapM text?
  | _ => none

mutual
/-- Whether no number in a value is unreadable. -/
def isReadable : Toml → Bool
  | .unreadable => false
  | .array items => itemsReadable items
  | .table entries => entriesReadable entries
  | _ => true
def itemsReadable : List Toml → Bool
  | [] => true
  | t :: rest => t.isReadable && itemsReadable rest
def entriesReadable : List (String × Toml) → Bool
  | [] => true
  | (_, t) :: rest => t.isReadable && entriesReadable rest
end

/-- The fields of a record, in the order of `names`: a table, whose other entries only have to be
readable, or an array of its fields in order, whose other items do not matter. A date holds none of
them. -/
def fields? (names : List String) : Toml → Option (List (Option Toml))
  | .table entries =>
    if entriesReadable (entries.filter fun e => !names.contains e.1) then
      some (names.map fun n => entries.lookup n)
    else none
  | .array items => some (names.mapIdx fun i _ => items[i]?)
  | .datetime => some (names.map fun _ => none)
  | _ => none

/-- The name that selects one of several alternatives, alone or as the only key of a table with an
empty value. -/
def choice? : Toml → Option String
  | .string s => some s
  | .table [(name, .table [])] => some name
  | .table [(name, .array [])] => some name
  | _ => none

def withDefault {α : Type} (value : α) (decode : Toml → Option α) : Option Toml → Option α
  | some t => decode t
  | none => some value

end Toml
end PassThrough

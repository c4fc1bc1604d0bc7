import PassThrough.Toml.Basic

/-! Putting a TOML document together from its headers and entries. A table is opened by one header
only, and what dotted keys have built no header may open. -/

namespace PassThrough.Toml

/-- How a table came to be: by its header, above the table of a header, or by dotted keys. -/
inductive TableOrigin where
  | header
  | above
  | dotted
  deriving DecidableEq, Repr

/-- A part of a document under construction: a finished value, a table, or a list of tables with
the last one first. -/
inductive Item where
  | value (v : Toml)
  | table (origin : TableOrigin) (entries : List (String × Item))
  | tables (elements : List (List (String × Item)))

abbrev Entries := List (String × Item)

namespace Entries

/-- Replaces the entry of a key that is there. -/
def set (es : Entries) (key : String) (item : Item) : Entries :=
  es.map fun e => if e.1 == key then (key, item) else e

/-- Opens the table of a header. -/
def openTable : List String → Entries → Option Entries
  | [], _ => none
  | [key], es =>
    match es.lookup key with
    | none => some (es ++ [(key, .table .header [])])
    | some (.table .above sub) => some (set es key (.table .header sub))
    | some _ => none
  | key :: k :: path, es =>
    match es.lookup key with
    | none => (openTable (k :: path) []).map fun sub => es ++ [(key, .table .above sub)]
    | some (.table origin sub) =>
      (openTable (k :: path) sub).map fun sub => set es key (.table origin sub)
    | some (.tables (last :: earlier)) =>
      (openTable (k :: path) last).map fun last => set es key (.tables (last :: earlier))
    | some _ => none

/-- Opens a new table at the end of a list of tables. -/
def pushTable : List String → Entries → Option Entries
  | [], _ => none
  | [key], es =>
    match es.lookup key with
    | none => some (es ++ [(key, .tables [[]])])
    | some (.tables elements) => some (set es key (.tables ([] :: elements)))
    | some _ => none
  | key :: k :: path, es =>
    match es.lookup key with
    | none => (pushTable (k :: path) []).map fun sub => es ++ [(key, .table .above sub)]
    | some (.table origin sub) =>
      (pushTable (k :: path) sub).map fun sub => set es key (.table origin sub)
    | some (.tables (last :: earlier)) =>
      (pushTable (k :: path) last).map fun last => set es key (.tables (last :: earlier))
    | some _ => none

/-- Adds an entry under a dotted key. The key may lead through a table above a header's, or through
the last of a list of tables, but the entry itself goes into neither. -/
def insert : List String → Toml → Entries → Option Entries
  | [], _, _ => none
  | [key], v, es =>
    match es.lookup key with
    | none => some (es ++ [(key, .value v)])
    | some _ => none
  | key :: k :: path, v, es =>
    match es.lookup key with
    | none => (insert (k :: path) v []).map fun sub => es ++ [(key, .table .dotted sub)]
    | some (.table .dotted sub) =>
      (insert (k :: path) v sub).map fun sub => set es key (.table .dotted sub)
    | some (.table .above sub) =>
      if path.isEmpty then none
      else (insert (k :: path) v sub).map fun sub => set es key (.table .above sub)
    | some (.tables (last :: earlier)) =>
      if path.isEmpty then none
      else (insert (k :: path) v last).map fun last => set es key (.tables (last :: earlier))
    | some _ => none

/-- Adds an entry to the table that the last header opened. -/
def insertUnder : List String → List String → Toml → Entries → Option Entries
  | [], key, v, es => insert key v es
  | h :: header, key, v, es =>
    match es.lookup h with
    | some (.table origin sub) =>
      (insertUnder header key v sub).map fun sub => set es h (.table origin sub)
    | some (.tables (last :: earlier)) =>
      (insertUnder header key v last).map fun last => set es h (.tables (last :: earlier))
    | _ => none

end Entries

mutual
def Item.toToml : Item → Toml
  | .value v => v
  | .table _ entries => .table (entriesToToml entries)
  | .tables elements => .array (tablesToToml elements).reverse
def entriesToToml : List (String × Item) → List (String × Toml)
  | [] => []
  | (key, item) :: rest => (key, item.toToml) :: entriesToToml rest
def tablesToToml : List (List (String × Item)) → List Toml
  | [] => []
  | entries :: rest => .table (entriesToToml entries) :: tablesToToml rest
end

/-- The table of an inline list of entries. -/
def inlineTable? (entries : List (List String × Toml)) : Option Toml := do
  let es ← entries.foldlM (fun es (key, v) => Entries.insert key v es) []
  return .table (entriesToToml es)

end PassThrough.Toml

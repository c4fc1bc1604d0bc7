/-! Paths written with slashes. -/

namespace PassThrough.Path

/-- What stands between the slashes of a path. -/
def segments (path : String) : List String := (path.split '/').toList.map (·.copy)

/-- Whether a segment names nothing. A dot names something only at the start of a relative path. -/
def isVoid (rooted isFirst : Bool) (segment : String) : Bool :=
  segment == "" || (segment == "." && (rooted || !isFirst))

/-- Drops the void segments at the end of a path, given last segment first. -/
def dropVoid (rooted : Bool) : List String → List String
  | [] => []
  | s :: rest => if isVoid rooted rest.isEmpty s then dropVoid rooted rest else s :: rest

/-- The path without its last component, if it has one. -/
def parent? (path : String) : Option String :=
  let rooted := path.startsWith "/"
  -- nothing stands before the slash that a rooted path starts with
  let names := if rooted then (segments path).tail else segments path
  match dropVoid rooted names.reverse with
  | [] => none
  | _ :: rest =>
    some ((if rooted then "/" else "") ++ "/".intercalate (dropVoid rooted rest).reverse)

/-- A directory and those above it, at most `limit` of them, the nearest first. -/
def ancestors (start : String) : (limit : Nat) → List String
  | 0 => []
  | limit + 1 =>
    start :: match parent? start with
      | some dir => ancestors dir limit
      | none => []

/-- The path of an entry of a directory. -/
def join (dir name : String) : String :=
  if dir = "" ∨ dir.endsWith "/" then dir ++ name else dir ++ "/" ++ name

/-- What follows the last dot of a file name. A dot at its start marks a hidden file. -/
def extension? (name : String) : Option String :=
  match (name.splitOn ".").reverse with
  | [] | [_] | [_, ""] => none
  | ext :: _ => some ext

/-- Names are ordered by their characters, from the first on. -/
def charsLE : List Char → List Char → Bool
  | [], _ => true
  | _ :: _, [] => false
  | c :: cs, d :: ds => c.toNat < d.toNat || (c == d && charsLE cs ds)

/-- Paths are ordered name by name. -/
def namesLE : List String → List String → Bool
  | [], _ => true
  | _ :: _, [] => false
  | a :: as, b :: bs => if a == b then namesLE as bs else charsLE a.toList b.toList

end PassThrough.Path

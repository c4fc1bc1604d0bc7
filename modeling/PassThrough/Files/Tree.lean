import PassThrough.Files.Basic
import PassThrough.Files.Path

/-! File systems held in memory. -/

namespace PassThrough

inductive FileTree where
  | file (bytes : ByteArray)
  | directory (entries : List (String × FileTree))

namespace FileTree

def kind : FileTree → EntryKind
  | .file _ => .file
  | .directory _ => .directory

def child? : FileTree → String → Option FileTree
  | .directory entries, name => entries.lookup name
  | .file _, _ => none

def find? (t : FileTree) (names : List String) : Option FileTree :=
  names.foldlM child? t

def entries : FileTree → List (String × FileTree)
  | .directory es => es
  | .file _ => []

/-- The tree with `new` at a place, and directories made on the way to it. -/
def put (t : FileTree) : List String → FileTree → FileTree
  | [], new => new
  | name :: names, new =>
    let below := put ((t.child? name).getD (.directory [])) names new
    .directory (t.entries.filter (·.1 != name) ++ [(name, below)])

mutual

/-- The regular files of a tree, each by the names that lead to it. -/
def files : FileTree → List (List String)
  | .file _ => [[]]
  | .directory entries => filesOf entries

def filesOf : List (String × FileTree) → List (List String)
  | [] => []
  | (name, t) :: rest => (files t).map (name :: ·) ++ filesOf rest

end

end FileTree

/-- A file tree and the names that lead to the current directory, the last first. -/
structure Volume where
  root : FileTree := .directory []
  current : List String := []

namespace Volume

/-- One step of a path, from the directory that `trail` leads to. -/
def step (v : Volume) (trail : List String) (segment : String) :
    Except FileProblem (List String) :=
  match v.root.find? trail.reverse with
  | some (.directory entries) =>
    if segment = "" ∨ segment = "." then .ok trail
    else if segment = ".." then .ok trail.tail
    else if (entries.lookup segment).isSome then .ok (segment :: trail)
    else .error .missing
  | _ => .error .notDirectory

/-- Where a path starts: at the root, or in the current directory. -/
def start (v : Volume) (path : String) : List String :=
  if path.startsWith "/" then [] else v.current

/-- The names that a path leads along, the last first. -/
def resolve (v : Volume) (path : String) : Except FileProblem (List String) :=
  if path = "" then .error .missing
  else (Path.segments path).foldlM v.step (v.start path)

def entry (v : Volume) (path : String) : Except FileProblem FileTree := do
  match v.root.find? (← v.resolve path).reverse with
  | some t => .ok t
  | none => .error .missing

def read (v : Volume) (path : String) : Except FileProblem String := do
  match ← v.entry path with
  | .directory _ => .error .isDirectory
  | .file bytes =>
    match String.fromUTF8? bytes with
    | some text => .ok text
    | none => .error .notText

/-- Where a file is written: in an existing directory, under a name of its own. -/
def place (v : Volume) (path : String) : Except FileProblem (List String) := do
  if path = "" then .error .missing
  else
    let segments := (Path.segments path).reverse
    let named := segments.dropWhile (· == "")
    match named with
    | [] => .error .isDirectory
    | name :: above =>
      let dir ← above.reverse.foldlM v.step (v.start path)
      match v.root.find? dir.reverse with
      | some (.directory entries) =>
        if named.length < segments.length ∨ name = "." ∨ name = ".." then .error .isDirectory
        else
          match entries.lookup name with
          | some (.directory _) => .error .isDirectory
          | _ => .ok (name :: dir)
      | _ => .error .notDirectory

def write (v : Volume) (path text : String) : Except FileProblem Volume := do
  let trail ← v.place path
  return { v with root := v.root.put trail.reverse (.file text.toUTF8) }

def currentPath (v : Volume) : String := "/" ++ "/".intercalate v.current.reverse

def filesBelow (v : Volume) (path : String) : List (List String) :=
  match v.entry path with
  | .ok t => t.files
  | .error _ => []

/-- The volume as a file system. -/
def store : FileStore (StateM Volume) where
  currentDir := return some (← get).currentPath
  kind? path := return ((← get).entry path).toOption.map FileTree.kind
  read path := return (← get).read path
  write path text := do
    match (← get).write path text with
    | .ok v =>
      set v
      return .ok ()
    | .error p => return .error p
  filesBelow path := return (← get).filesBelow path

end Volume
end PassThrough

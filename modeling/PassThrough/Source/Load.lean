import PassThrough.Files.Basic
import PassThrough.Files.Path
import PassThrough.Source.Reader

/-! Loading programs from files. -/

namespace PassThrough

variable {m : Type → Type} [Monad m]

/-- Whether a file found in a directory holds a program. -/
def holdsProgram (names : List String) : Bool :=
  names.getLast?.bind Path.extension? == some "json"

/-- The program files below a directory, in the order of their names. -/
def programsBelow (store : FileStore m) (dir : String) : m (List String) := do
  let found := (← store.filesBelow dir).filter holdsProgram
  return (found.mergeSort Path.namesLE).map (·.foldl Path.join dir)

/-- The files that a path stands for: a file stands for itself, a directory for the programs below. -/
def filesOfPath (store : FileStore m) (path : String) : ExceptT Failure m (List String) := do
  match ← store.kind? path with
  | some .file => return [path]
  | some .directory => return ← ExceptT.lift (programsBelow store path)
  | none => throw (.fileSystem "path does not exist" none)

def programFiles (store : FileStore m) : List String → ExceptT Failure m (List String)
  | [] => return []
  | path :: rest => return (← filesOfPath store path) ++ (← programFiles store rest)

def loadFile (store : FileStore m) (path : String) : ExceptT Failure m (List SourceFile) := do
  match ← store.read path with
  | .ok text => parseProgram path text
  | .error p =>
    throw ((Failure.fileSystem p.message none).withContext ("Failed to read model file " ++ path))

/-- The source files that program files describe, in order. -/
def loadFiles (store : FileStore m) : List String → ExceptT Failure m (List SourceFile)
  | [] => return []
  | path :: rest => return (← loadFile store path) ++ (← loadFiles store rest)

end PassThrough

import PassThrough.Files.Basic
import PassThrough.Files.Path
import PassThrough.Settings.Toml

/-! Finding the settings that apply. -/

namespace PassThrough.Settings

variable {m : Type → Type} [Monad m]

def fileName : String := ".relaymap.toml"

/-- How many directories are searched for a settings file. -/
def searchDepth : Nat := 10

/-- The settings of the first file that can be read and says something valid. -/
def firstValid (read : String → m (Except FileProblem String)) :
    List String → m (Option Settings)
  | [] => return none
  | path :: rest => do
    match (← read path).toOption.bind fun text => (parse text).toOption with
    | some s => return some s
    | none => firstValid read rest

/-- Where settings are looked for from a directory, the nearest place first. -/
def candidates (dir : String) : List String :=
  (Path.ancestors dir searchDepth).map (Path.join · fileName)

/-- The settings for work in a directory. -/
def discoverFrom (read : String → m (Except FileProblem String)) (dir : String) : m Settings := do
  return (← firstValid read (candidates dir)).getD {}

def discover (store : FileStore m) : m Settings := do
  match ← store.currentDir with
  | some dir => discoverFrom store.read dir
  | none => return {}

/-- The settings of a file that was asked for. -/
def load (store : FileStore m) (path : String) : m (Except Failure Settings) := do
  match ← store.read path with
  | .error p => return .error (.fileSystem "Failed to read config file" (some p.message))
  | .ok text => return (parse text).mapError (·.withContext ("Loading " ++ path))

end PassThrough.Settings

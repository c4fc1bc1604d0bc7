/-! Access to files. -/

namespace PassThrough

/-- Why a file cannot be read or written. -/
inductive FileProblem where
  | missing
  | notDirectory
  | isDirectory
  | notText
  | other (message : String)
  deriving DecidableEq, Repr

def FileProblem.message : FileProblem → String
  | .missing => "No such file or directory (os error 2)"
  | .notDirectory => "Not a directory (os error 20)"
  | .isDirectory => "Is a directory (os error 21)"
  | .notText => "stream did not contain valid UTF-8"
  | .other message => message

inductive EntryKind where
  | file
  | directory
  deriving DecidableEq, Repr

/-- What the commands need of a file system. Paths are relative to the current directory. -/
structure FileStore (m : Type → Type) where
  currentDir : m (Option String)
  kind? : String → m (Option EntryKind)
  read : String → m (Except FileProblem String)
  write : String → String → m (Except FileProblem Unit)
  /-- The regular files below a directory, each by the names that lead to it. -/
  filesBelow : String → m (List (List String))

end PassThrough

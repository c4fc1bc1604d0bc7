import PassThrough.Command.Run

/-! The program on real files. -/

namespace PassThrough

/-- The problem that an error number stands for. Some calls give the number negated. -/
def FileProblem.ofCode (code : UInt32) (details : String) : FileProblem :=
  let number := if code.toNat < 0x80000000 then code.toNat else 0x100000000 - code.toNat
  if number = 2 then .missing
  else if number = 20 then .notDirectory
  else if number = 21 then .isDirectory
  else .other (details ++ " (os error " ++ toString number ++ ")")

def FileProblem.ofError : IO.Error → FileProblem
  | .noFileOrDirectory _ code details => .ofCode code details
  | .inappropriateType _ code details => .ofCode code details
  | .permissionDenied _ code details => .ofCode code details
  | .resourceBusy code details => .ofCode code details
  | .resourceExhausted _ code details => .ofCode code details
  | .invalidArgument _ code details => .ofCode code details
  | .otherError code details => .ofCode code details
  | e => .other (toString e)

/-- The regular files below a directory. What cannot be read is left out. -/
partial def regularFiles (dir : String) : IO (List (List String)) := do
  let mut found := []
  try
    for entry in ← ((← IO.currentDir) / dir).readDir do
      match (← entry.path.symlinkMetadata).type with
      | .file => found := [entry.fileName] :: found
      | .dir =>
        let below ← regularFiles entry.path.toString
        found := below.map (entry.fileName :: ·) ++ found
      | _ => pure ()
  catch _ => pure ()
  return found

def diskStore : FileStore IO where
  currentDir := do
    try return some (← IO.currentDir).toString
    catch _ => return none
  kind? path := do
    try
      match (← ((← IO.currentDir) / path).metadata).type with
      | .file => return some .file
      | _ => return some .directory
    catch _ => return none
  read path := do
    try
      match String.fromUTF8? (← IO.FS.readBinFile path) with
      | some text => return .ok text
      | none => return .error .notText
    catch e => return .error (.ofError e)
  write path text := do
    try
      IO.FS.writeFile path text
      return .ok ()
    catch e => return .error (.ofError e)
  filesBelow := regularFiles

/-- Whether to paint: forced on, forced off, or else on a terminal that is not told otherwise. -/
def wantsColour (force never allowed : Option String) (isTerminal : Bool) : Bool :=
  if force.any (· != "0") then true
  else if never.isSome then false
  else allowed.all (· != "0") && isTerminal

end PassThrough

open PassThrough in
def main (words : List String) : IO UInt32 := do
  let stdout ← IO.getStdout
  let colour := wantsColour (← IO.getEnv "CLICOLOR_FORCE") (← IO.getEnv "NO_COLOR")
    (← IO.getEnv "CLICOLOR") (← stdout.isTty)
  let exit ← runWords diskStore colour words
  stdout.putStr exit.output
  stdout.flush
  (← IO.getStderr).putStr exit.errors
  return exit.code.toUInt32

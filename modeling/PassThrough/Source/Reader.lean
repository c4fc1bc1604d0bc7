import PassThrough.Failure
import PassThrough.Json.Reader
import PassThrough.Source.Json

/-! Reading programs from JSON text. -/

namespace PassThrough

/-- Why a text is no program: it is not JSON, or its JSON describes none. -/
inductive ProgramProblem where
  | malformed
  | unfit
  deriving DecidableEq, Repr

def ProgramProblem.message : ProgramProblem → String
  | .malformed => "malformed JSON"
  | .unfit => "data did not match any variant of untagged enum ModelFile"

/-- The program that a text describes. Whether the first value fits is judged before the end of the
text. -/
def readProgram (text : String) : Except ProgramProblem (List SourceFile) :=
  match Json.first? Json.maxDepth text with
  | none => .error .malformed
  | some (j, rest) =>
    match program? Json.maxDepth j with
    | none => .error .unfit
    | some files => if rest.all Json.isGap then .ok files else .error .malformed

def parseProgram (path text : String) : Except Failure (List SourceFile) :=
  match readProgram text with
  | .ok files => .ok files
  | .error p => .error (.parse path p.message)

end PassThrough

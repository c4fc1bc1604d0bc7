import PassThrough.Source.Basic

/-! What can go wrong, and how it is said. -/

namespace PassThrough

/-- A failure that ends an operation. A file-system failure keeps the text of its cause. -/
inductive Failure where
  | fileSystem (message : String) (cause : Option String)
  | parse (file : String) (reason : String)
  | configuration (message : String)
  | binding (callee : String) (problem : String)
  | analysis (message : String)
  | context (context : String) (message : String)
  | io (message : String)
  | toml (message : String)
  deriving DecidableEq, Repr

namespace Failure

def message : Failure → String
  | .fileSystem m _ => "File system error: " ++ m
  | .parse file reason => "Parse error in " ++ file ++ ": " ++ reason
  | .configuration m => "Configuration error: " ++ m
  | .binding callee problem => "Cannot bind arguments of call to '" ++ callee ++ "': " ++ problem
  | .analysis m => "Analysis error: " ++ m
  | .context c m => c ++ ": " ++ m
  | .io m => m
  | .toml m => m

def withContext (f : Failure) (c : String) : Failure := .context c f.message

/-- The texts of the failure and of what caused it, the outermost first. -/
def causes (f : Failure) : List String :=
  match f with
  | .fileSystem _ (some cause) => [f.message, cause]
  | _ => [f.message]

end Failure

/-- A failure confined to one function or call, collected while the analysis goes on. -/
structure Diagnostic where
  function : Option FunctionId := none
  location : Option Location := none
  message : String
  deriving DecidableEq, Repr

namespace Diagnostic

def ofFailure (f : FunctionId) (failure : Failure) : Diagnostic :=
  { function := some f, message := failure.message }

def atLocation (d : Diagnostic) (l : Location) : Diagnostic := { d with location := some l }

def text (d : Diagnostic) : String :=
  (match d.function with
    | some f => f.text ++ ": "
    | none => "") ++ d.message ++
  (match d.location with
    | some l => " (" ++ l.text ++ ")"
    | none => "")

end Diagnostic
end PassThrough

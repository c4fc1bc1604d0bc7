import PassThrough.Source.Basic

/-! Annotations that silence the findings of a function. -/

namespace PassThrough

def suppressionAnnotations : List String := ["Suppress", "SuppressWarnings"]

/-- An annotation argument without the blanks and then the quotes around it. -/
def unquoted (argument : String) : String :=
  String.ofList (Text.trimWhile (· == '"') (Text.trimWhile Text.isBlank argument.toList))

namespace FunctionHeader

/-- The ids that the suppression annotations list. -/
def suppressedIds (f : FunctionHeader) : List String :=
  (f.annotations.filter fun a => suppressionAnnotations.contains a.simpleName).flatMap fun a =>
    a.arguments.map unquoted

def isSuppressed (f : FunctionHeader) (ids : List String) : Bool :=
  f.suppressedIds.any fun found => ids.any fun id => Text.equalIgnoringCase id found

end FunctionHeader
end PassThrough

/-! Reading the words of a command line. -/

namespace PassThrough

/-- What stops the reading of a command line: a mistake, or a question about the program. -/
inductive UsageStop where
  | missingOperand
  | unknownArgument
  | invalidValue
  | invalidNumber
  | repeated
  | unexpectedValue
  | unknownCommand
  | noCommand
  | helpAsked
  | versionAsked
  deriving DecidableEq, Repr

/-- What an option does: it switches something on, it counts, it asks for help, or it takes a value
that must pass a test. -/
inductive OptionRole where
  | switch
  | counter
  | help
  | valued (test : String → Option UsageStop)

def OptionRole.takesValue : OptionRole → Bool
  | .valued _ => true
  | _ => false

structure OptionSpec where
  name : String
  short : Option Char
  role : OptionRole

/-- The options of a command, and the test of its operands if it takes any. -/
structure Grammar where
  options : List OptionSpec
  operand : Option (String → Option UsageStop)

/-- Words read but not yet judged: an option and its value, or operands in a row. -/
inductive Pending where
  | nothing
  | value (option : OptionSpec) (given : Option String)
  | operands (texts : List String)

/-- What has been read so far. The options given stand in order; all but those with a value have an
empty one. -/
structure Reading where
  given : List (String × String) := []
  operands : List String := []
  pending : Pending := .nothing
  /-- Whether all further words are operands. -/
  literal : Bool := false

namespace Reading

def has (r : Reading) (name : String) : Bool := r.given.any (·.1 == name)

def value? (r : Reading) (name : String) : Option String := r.given.lookup name

def add (r : Reading) (name value : String) : Reading :=
  { r with given := r.given ++ [(name, value)] }

/-- Judges one option. Only counters may be repeated. -/
def accept (r : Reading) (o : OptionSpec) (value : Option String) : Except UsageStop Reading :=
  match o.role with
  | .help => .error .helpAsked
  | .counter => .ok (r.add o.name "")
  | .switch => if r.has o.name then .error .repeated else .ok (r.add o.name "")
  | .valued test =>
    match value with
    | none => .error .invalidValue
    | some v =>
      if r.has o.name then .error .repeated
      else
        match test v with
        | some stop => .error stop
        | none => .ok (r.add o.name v)

/-- Judges what is pending. -/
def settle (g : Grammar) (r : Reading) : Except UsageStop Reading :=
  match r.pending with
  | .nothing => .ok r
  | .value o given => ({ r with pending := .nothing } : Reading).accept o given
  | .operands texts =>
    match g.operand.bind texts.findSome? with
    | some stop => .error stop
    | none => .ok { r with operands := r.operands ++ texts, pending := .nothing }

/-- Takes an option, after what is pending. -/
def option (g : Grammar) (r : Reading) (o : OptionSpec) (attached : Option String) :
    Except UsageStop Reading := do
  let r ← r.settle g
  if o.role.takesValue && attached.isNone then return { r with pending := .value o none }
  else r.accept o attached

/-- A long option, with its value behind an equals sign if it has one. -/
def long (g : Grammar) (r : Reading) (text : List Char) : Except UsageStop Reading :=
  let name := String.ofList (text.takeWhile (· != '='))
  let attached := match text.dropWhile (· != '=') with
    | _ :: v => some (String.ofList v)
    | [] => none
  match g.options.find? (·.name == name) with
  | none => .error .unknownArgument
  | some o =>
    if attached.isSome && !o.role.takesValue then .error .unexpectedValue
    else r.option g o attached

/-- Short options in one word. What follows one that takes a value is its value. -/
def shorts (g : Grammar) (r : Reading) : List Char → Except UsageStop Reading
  | [] => .ok r
  | c :: rest =>
    match g.options.find? (·.short == some c) with
    | none => .error .unknownArgument
    | some o =>
      if o.role.takesValue then
        r.option g o (match rest with
          | [] => none
          | '=' :: v => some (String.ofList v)
          | v => some (String.ofList v))
      else do
        let r ← r.option g o none
        r.shorts g rest

def operand (g : Grammar) (r : Reading) (word : String) : Except UsageStop Reading :=
  match g.operand with
  | none => .error .unknownArgument
  | some _ =>
    match r.pending with
    | .operands texts => .ok { r with pending := .operands (texts ++ [word]) }
    | _ => do
      let r ← r.settle g
      return { r with pending := .operands [word] }

/-- A word that is no option: the value that an option waits for, or an operand. -/
def plain (g : Grammar) (r : Reading) (word : String) : Except UsageStop Reading :=
  match r.pending with
  | .value o none => .ok { r with pending := .value o (some word) }
  | _ => r.operand g word

def word (g : Grammar) (r : Reading) (w : String) : Except UsageStop Reading :=
  if r.literal then r.operand g w
  else
    match w.toList with
    | ['-', '-'] => .ok { r with literal := true }
    | '-' :: '-' :: text => r.long g text
    | '-' :: c :: text => r.shorts g (c :: text)
    | _ => r.plain g w

/-- Ends the reading. A command that takes operands needs one. -/
def finish (g : Grammar) (r : Reading) : Except UsageStop Reading := do
  let r ← r.settle g
  if g.operand.isSome && r.operands.isEmpty then .error .missingOperand else return r

end Reading

/-- What the words after the name of a command say. -/
def Grammar.read (g : Grammar) (words : List String) : Except UsageStop Reading := do
  let r ← words.foldlM (Reading.word g) {}
  r.finish g

end PassThrough

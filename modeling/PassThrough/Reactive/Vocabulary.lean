import PassThrough.Reactive.Kind
import PassThrough.Source.Basic

/-! The names of a framework's reactive containers, and the kinds that declared types have. -/

namespace PassThrough

/-- Type names by kind, and the calls that collect, create or memoise a container. -/
structure Vocabulary where
  valueHolder : List String := ["State"]
  mutableValueHolder : List String := ["MutableState", "SnapshotMutableState"]
  stream : List String := ["Flow"]
  hotStream : List String := ["StateFlow", "SharedFlow"]
  mutableHotStream : List String := ["MutableStateFlow", "MutableSharedFlow"]
  collectionOperations : List String :=
    ["collectAsState", "collectAsStateWithLifecycle", "observeAsState", "subscribeAsState"]
  creationFunctions : List String :=
    ["mutableStateOf", "mutableIntStateOf", "mutableLongStateOf", "mutableFloatStateOf",
      "mutableDoubleStateOf", "derivedStateOf", "produceState", "MutableStateFlow",
      "MutableSharedFlow", "flowOf", "flow", "stateIn", "shareIn"]
  memoWrappers : List String := ["remember", "rememberSaveable"]
  deriving DecidableEq, Repr

/-- The bare name of a type as written: no type arguments, blanks, nullability marks or package. -/
def simpleTypeName (raw : String) : String :=
  let bare := Text.trimWhile Text.isBlank (raw.toList.takeWhile (· != '<'))
  String.ofList (Text.lastSegment (Text.dropEndWhile (· == '?') bare))

namespace Vocabulary

/-- Each listed type with its kind; where groups share a name, the later group stands first. -/
def kinds (v : Vocabulary) : List (String × Kind) :=
  let group (k : Kind) (names : List String) := names.map fun n => (simpleTypeName n, k)
  group .mutableHotStream v.mutableHotStream ++ group .hotStream v.hotStream ++
    group .stream v.stream ++ group .mutableValueHolder v.mutableValueHolder ++
    group .valueHolder v.valueHolder

def kindOfName (v : Vocabulary) (raw : String) : Kind :=
  (v.kinds.lookup (simpleTypeName raw)).getD .plain

/-- The last of the most specific kinds. -/
def mostSpecific (ks : List Kind) : Kind :=
  ks.foldl (fun best k => if best.specificity ≤ k.specificity then k else best) .plain

/-- The kind of a declared type: that of its own name if it has one, else the most specific kind
among its supertypes. -/
def kindOf (v : Vocabulary) : Option TypeRef → Kind
  | none => .plain
  | some t =>
    let own := v.kindOfName t.name
    if own.isReactive then own else mostSpecific (t.supertypes.map v.kindOfName)

end Vocabulary
end PassThrough

import PassThrough.Json.Printer
import PassThrough.Settings.Basic
import PassThrough.Toml.Reader

/-! Settings files. -/

namespace PassThrough

def Detection.ofToml? (t : Toml) : Option Detection := do
  let d : Detection := {}
  match ← t.fields? ["ui_marker", "min_relay_links", "severity", "suppression_ids"] with
  | [marker, links, severity, ids] =>
    return {
      uiMarker := ← Toml.withDefault d.uiMarker Toml.text? marker
      minRelayLinks := ← Toml.withDefault d.minRelayLinks Toml.count? links
      severity := ←
        Toml.withDefault d.severity (fun t => t.choice?.bind Severity.ofText?) severity
      suppressionIds := ← Toml.withDefault d.suppressionIds Toml.texts? ids }
  | _ => none

def Vocabulary.ofToml? (t : Toml) : Option Vocabulary := do
  let v : Vocabulary := {}
  match ← t.fields? ["value_holder", "mutable_value_holder", "stream", "hot_stream",
    "mutable_hot_stream", "collection_operations", "creation_functions", "memo_wrappers"] with
  | [valueHolder, mutableValueHolder, stream, hotStream, mutableHotStream, collection, creation,
      memo] =>
    return {
      valueHolder := ← Toml.withDefault v.valueHolder Toml.texts? valueHolder
      mutableValueHolder := ←
        Toml.withDefault v.mutableValueHolder Toml.texts? mutableValueHolder
      stream := ← Toml.withDefault v.stream Toml.texts? stream
      hotStream := ← Toml.withDefault v.hotStream Toml.texts? hotStream
      mutableHotStream := ← Toml.withDefault v.mutableHotStream Toml.texts? mutableHotStream
      collectionOperations := ←
        Toml.withDefault v.collectionOperations Toml.texts? collection
      creationFunctions := ← Toml.withDefault v.creationFunctions Toml.texts? creation
      memoWrappers := ← Toml.withDefault v.memoWrappers Toml.texts? memo }
  | _ => none

namespace Settings

def ofToml? (t : Toml) : Option Settings := do
  match ← t.fields? ["detection", "reactive_types"] with
  | [detection, vocabulary] =>
    return ⟨← Toml.withDefault {} Detection.ofToml? detection,
      ← Toml.withDefault {} Vocabulary.ofToml? vocabulary⟩
  | _ => none

/-- The settings that a text describes, if they are valid. -/
def parse (text : String) : Except Failure Settings :=
  match (Toml.parse? text).bind ofToml? with
  | some s => s.validate
  | none => .error (.toml "TOML parse error")

/-- A list of texts: a single one on the line of its key, more on lines of their own. -/
def listText : List String → String
  | [] => "[]"
  | [s] => "[" ++ Json.quote s ++ "]"
  | texts => "[\n" ++ String.join (texts.map fun s => "    " ++ Json.quote s ++ ",\n") ++ "]"

def line (key value : String) : String := key ++ " = " ++ value ++ "\n"

/-- A settings file that says what `s` says. -/
def text (s : Settings) : String :=
  let d := s.detection
  let v := s.vocabulary
  "# Relaymap Configuration\n\n[detection]\n" ++
    line "ui_marker" (Json.quote d.uiMarker) ++
    line "min_relay_links" (toString d.minRelayLinks) ++
    line "severity" (Json.quote d.severity.text) ++
    line "suppression_ids" (listText d.suppressionIds) ++
    "\n[reactive_types]\n" ++
    line "value_holder" (listText v.valueHolder) ++
    line "mutable_value_holder" (listText v.mutableValueHolder) ++
    line "stream" (listText v.stream) ++
    line "hot_stream" (listText v.hotStream) ++
    line "mutable_hot_stream" (listText v.mutableHotStream) ++
    line "collection_operations" (listText v.collectionOperations) ++
    line "creation_functions" (listText v.creationFunctions) ++
    line "memo_wrappers" (listText v.memoWrappers)

def toJson (s : Settings) : Json :=
  let texts (ts : List String) : Json := .array (ts.map .string)
  let d := s.detection
  let v := s.vocabulary
  .object [
    ("detection", .object [("ui_marker", .string d.uiMarker),
      ("min_relay_links", .natural d.minRelayLinks), ("severity", .string d.severity.text),
      ("suppression_ids", texts d.suppressionIds)]),
    ("reactive_types", .object [("value_holder", texts v.valueHolder),
      ("mutable_value_holder", texts v.mutableValueHolder), ("stream", texts v.stream),
      ("hot_stream", texts v.hotStream), ("mutable_hot_stream", texts v.mutableHotStream),
      ("collection_operations", texts v.collectionOperations),
      ("creation_functions", texts v.creationFunctions),
      ("memo_wrappers", texts v.memoWrappers)])]

end Settings
end PassThrough

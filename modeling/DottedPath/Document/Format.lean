import DottedPath.Document.JsonText
import DottedPath.Document.YamlRead
import DottedPath.Document.YamlText

/-!
The formats of documents: which one a name stands for, and the reading and writing of values in
each.
-/

namespace DottedPath.Document

/-- How a document is written. -/
inductive Format where
  | json
  | yaml
deriving DecidableEq, Repr

/-- Why a text is no document. -/
inductive DocumentError where
  | notJson
  | notYaml
  | unrecognized
deriving DecidableEq, Repr

/-- The text of a failure. -/
def DocumentError.message : DocumentError → String
  | notJson => "Failed to parse JSON"
  | notYaml => "Failed to parse YAML"
  | unrecognized => "input is neither valid JSON nor valid YAML"

/-! ### Names -/

/-- A text without an ending, if it has it. -/
def withoutEnding (ending text : List Char) : List Char :=
  if ending.isSuffixOf text then text.take (text.length - ending.length) else text

/-- The parts of a path to a file: what stands between slashes, a point for "here" left out. -/
def pathParts (path : String) : List String :=
  (path.splitOn "/").filter fun part => !part.isEmpty && part != "."

/-- The name of a file without the way to it. -/
def fileName? (path : String) : Option String :=
  (pathParts path).getLast?.filter (· != "..")

/-- What follows the last point of a name. A point in front is no mark of an extension. -/
def extension? (name : String) : Option String :=
  let cs := name.toList.reverse
  let last := cs.takeWhile (· != '.')
  if last.length + 1 < cs.length then some (String.ofList last.reverse) else none

/-- Names a compressed file. -/
def isCompressedName (path : String) : Bool :=
  (fileName? path).bind extension? == some "gz"

namespace Format

/-- The name of a format. -/
def name : Format → String
  | json => "json"
  | yaml => "yaml"

/-- The format that a name stands for, in any case of letters. -/
def ofName? (name : String) : Option Format :=
  match name.map Char.toLower with
  | "json" => some json
  | "yaml" => some yaml
  | "yml" => some yaml
  | _ => none

/-- The format of a file with a name, compressed or not. -/
def ofPath (path : String) : Format :=
  let cs := withoutEnding ".gz".toList path.toList
  if ".yaml".toList.isSuffixOf cs || ".yml".toList.isSuffixOf cs then yaml else json

/-! ### Values -/

/-- The value of a text in a format. -/
def parse (format : Format) (text : String) : ExceptT DocumentError StoreM Value :=
  match format with
  | json =>
    match Json.parse? text with
    | some j => (j.toValue : StoreM Value)
    | none => throw .notJson
  | yaml =>
    match Yaml.parse? text with
    | some y => (y.toValue : StoreM Value)
    | none => throw .notYaml

/-- The text of a value in a format; it ends with a line break. -/
def render (format : Format) (indent : Nat) (s : Store) (v : Value) : String :=
  match format with
  | json => (Json.ofValue s v).text (.pretty indent) ++ "\n"
  | yaml => (Yaml.ofValue s v).text

/-- The value of a text in the first format that it fits, and that format. -/
def sniff (text : String) : ExceptT DocumentError StoreM (Value × Format) :=
  match Json.parse? text with
  | some j => do pure (← (j.toValue : StoreM Value), json)
  | none =>
    match Yaml.parse? text with
    | some y => do pure (← (y.toValue : StoreM Value), yaml)
    | none => throw .unrecognized

end Format

end DottedPath.Document

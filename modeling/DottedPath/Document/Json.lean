import DottedPath.Decimal.Layout
import DottedPath.Value.View

/-!
JSON documents as trees, and the values they stand for. What JSON lacks is written by what it has:
tuples and sets as arrays, objects by their attributes, bytes by their numbers, keys by their text.
-/

namespace DottedPath.Document

/-- A JSON document. Its numbers are integers of sixty-four bits or finite doubles. -/
inductive Json where
  | null
  | bool (b : Bool)
  | int (i : Int)
  | float (f : Float)
  | str (s : String)
  | array (items : List Json)
  | object (fields : List (String × Json))
deriving Inhabited

/-- The fields after a write: a name that is there keeps its place and takes the new content. -/
def putField {α : Type} (fields : List (String × α)) (name : String) (x : α) :
    List (String × α) :=
  match fields.findIdx? fun (n, _) => n == name with
  | some i => fields.modify i fun (n, _) => (n, x)
  | none => fields ++ [(name, x)]

/-- A list of fields, where a repeated name keeps its first place and last content. -/
def fieldsOf {α : Type} (fields : List (String × α)) : List (String × α) :=
  fields.foldl (fun fs (n, x) => putField fs n x) []

namespace Json

mutual

/-- The value of a document. -/
def toValue : Json → StoreM Value
  | null => pure .null
  | bool b => pure (.bool b)
  | int i => pure (.int i)
  | float f => pure (.float f)
  | str s => pure (.str s)
  | array items => do alloc (.list (← itemValues items))
  | object fields => do
    let entries ← fieldValues fields
    alloc (.dict ((← get).dictOf entries))

def itemValues : List Json → StoreM (List Value)
  | [] => pure []
  | x :: xs => do
    let v ← toValue x
    let vs ← itemValues xs
    pure (v :: vs)

def fieldValues : List (String × Json) → StoreM (List (Value × Value))
  | [] => pure []
  | (name, x) :: fields => do
    let v ← toValue x
    let entries ← fieldValues fields
    pure ((.str name, v) :: entries)

end

/-- The document of a double: NaN and the infinities have none. -/
def ofFloat (f : Float) : Json :=
  match Decimal.Reading.ofFloat f with
  | .finite _ => float f
  | _ => null

/-- The document of a value, going at most the given number of containers deep. -/
def ofValueWithin (s : Store) : Nat → Value → Json
  | _, .null => null
  | _, .bool b => bool b
  | _, .int i => int i
  | _, .float f => ofFloat f
  | _, .str t => str t
  | _, .bytes bs => array (bs.map fun b => int b.toNat)
  | 0, .ref _ => null
  | n + 1, .ref h =>
    if s.isKeyed (.ref h) || s.isAttributed (.ref h) then
      object (fieldsOf ((s.entries (.ref h)).map fun (k, v) => (s.text k, ofValueWithin s n v)))
    else array ((s.elements (.ref h)).map (ofValueWithin s n))

/-- The document of a value that does not hold itself. -/
def ofValue (s : Store) (v : Value) : Json :=
  ofValueWithin s (s.size + 1) v

end Json

end DottedPath.Document

import DottedPath.Decimal.Reader
import DottedPath.Value.View

/-!
YAML documents as trees, the values they stand for, and what a plain scalar means. A tag says
nothing about the value of what it is on.
-/

namespace DottedPath.Document

/-- A YAML document. -/
inductive Yaml where
  | null
  | bool (b : Bool)
  | int (i : Int)
  | float (f : Float)
  | str (s : String)
  | sequence (items : List Yaml)
  | mapping (entries : List (Yaml × Yaml))
  | tagged (tag : String) (content : Yaml)
deriving Inhabited

namespace Yaml

mutual

/-- The same node. Mappings compare without regard to order, and NaN equals itself. -/
def same : Yaml → Yaml → Bool
  | null, null => true
  | bool a, bool b => a == b
  | int a, int b => a == b
  | float a, float b => a == b || (a != a && b != b)
  | str a, str b => a == b
  | sequence xs, sequence ys => sameItems xs ys
  | mapping es, mapping fs => es.length == fs.length && sameEntries es fs
  | tagged a x, tagged b y => a == b && same x y
  | _, _ => false

def sameItems : List Yaml → List Yaml → Bool
  | [], [] => true
  | x :: xs, y :: ys => same x y && sameItems xs ys
  | _, _ => false

/-- Each entry of the first list is one of the second. -/
def sameEntries : List (Yaml × Yaml) → List (Yaml × Yaml) → Bool
  | [], _ => true
  | (k, v) :: es, fs => fs.any (fun (l, w) => same k l && same v w) && sameEntries es fs

end

/-- The entries after a write: a key that is there keeps its place and takes the new content. -/
def putEntry (entries : List (Yaml × Yaml)) (key content : Yaml) : List (Yaml × Yaml) :=
  match entries.findIdx? fun (k, _) => same k key with
  | some i => entries.modify i fun (k, _) => (k, content)
  | none => entries ++ [(key, content)]

mutual

/-- The value of a document. Integers of more than sixty-four bits become doubles. -/
def toValue : Yaml → StoreM Value
  | null => pure .null
  | bool b => pure (.bool b)
  | int i => pure (if Word.fits i then .int i else .float (Float.ofInt i))
  | float f => pure (.float f)
  | str s => pure (.str s)
  | sequence items => do alloc (.list (← itemValues items))
  | mapping entries => do
    let entries ← entryValues entries
    alloc (.dict ((← get).dictOf entries))
  | tagged _ content => toValue content

def itemValues : List Yaml → StoreM (List Value)
  | [] => pure []
  | x :: xs => do
    let v ← toValue x
    let vs ← itemValues xs
    pure (v :: vs)

def entryValues : List (Yaml × Yaml) → StoreM (List (Value × Value))
  | [] => pure []
  | (k, x) :: entries => do
    let k ← toValue k
    let v ← toValue x
    let rest ← entryValues entries
    pure ((k, v) :: rest)

end

/-- The document of a value, going at most the given number of containers deep. -/
def ofValueWithin (s : Store) : Nat → Value → Yaml
  | _, .null => null
  | _, .bool b => bool b
  | _, .int i => int i
  | _, .float f => float f
  | _, .str t => str t
  | _, .bytes bs => sequence (bs.map fun b => int b.toNat)
  | 0, .ref _ => null
  | n + 1, .ref h =>
    if s.isKeyed (.ref h) || s.isAttributed (.ref h) then
      mapping ((s.entries (.ref h)).foldl (fun es (k, v) =>
        putEntry es (ofValueWithin s n k) (ofValueWithin s n v)) [])
    else sequence ((s.elements (.ref h)).map (ofValueWithin s n))

/-- The document of a value that does not hold itself. -/
def ofValue (s : Store) (v : Value) : Yaml :=
  ofValueWithin s (s.size + 1) v

/-! ### Plain scalars -/

/-- Digits after a leading zero: such a word is a text. -/
def isPaddedNumber (cs : List Char) : Bool :=
  let body := match cs with
    | '-' :: ds => ds
    | '+' :: ds => ds
    | ds => ds
  match body with
  | '0' :: d :: ds => (d :: ds).all Char.isDigit
  | _ => false

/-- The magnitude of an integer without sign, in the base that a marker in front names. -/
def readMagnitude? : List Char → Option Nat
  | '0' :: 'x' :: ds => Decimal.readNat? 16 ds
  | '0' :: 'o' :: ds => Decimal.readNat? 8 ds
  | '0' :: 'b' :: ds => Decimal.readNat? 2 ds
  | ds => Decimal.readNat? 10 ds

/-- The integer of a word. -/
def readInt? (cs : List Char) : Option Int :=
  if isPaddedNumber cs then none
  else
    match cs with
    | '-' :: ds => (readMagnitude? ds).map fun n => -(n : Int)
    | '+' :: ds => (readMagnitude? ds).map fun n => (n : Int)
    | ds => (readMagnitude? ds).map fun n => (n : Int)

/-- The double of a word. The words for infinity and NaN begin with a point. -/
def readFloat? (cs : List Char) : Option Float :=
  let word := String.ofList cs
  if [".inf", ".Inf", ".INF", "+.inf", "+.Inf", "+.INF"].contains word then some (1.0 / 0.0)
  else if ["-.inf", "-.Inf", "-.INF"].contains word then some (-1.0 / 0.0)
  else if [".nan", ".NaN", ".NAN"].contains word then some (0.0 / 0.0)
  else if isPaddedNumber cs then none
  else
    (Decimal.readFloat? cs).filter fun f =>
      match Decimal.Reading.ofFloat f with
      | .finite _ => true
      | _ => false

/-- The least and the greatest integer that a document can hold. -/
def holdsInt (i : Int) : Bool :=
  decide (-2 ^ 63 ≤ i ∧ i < 2 ^ 64)

/-- What a plain scalar means. Integers that a document cannot hold are no documents. -/
def ofPlain? (word : String) : Option Yaml :=
  if ["", "~", "null", "Null", "NULL"].contains word then some null
  else if ["true", "True", "TRUE"].contains word then some (bool true)
  else if ["false", "False", "FALSE"].contains word then some (bool false)
  else
    match readInt? word.toList with
    | some i =>
      if holdsInt i then some (int i)
      else if decide (-2 ^ 127 ≤ i ∧ i < 2 ^ 128) then none
      else some ((readFloat? word.toList).elim (str word) float)
    | none => some ((readFloat? word.toList).elim (str word) float)

end Yaml

end DottedPath.Document

import DottedPath.Value.Comparison
import DottedPath.Value.Text

/-!
Views of a value's parts: elements by position, entries by key, and sequences of the same kind made
of other elements. A text counts as the sequence of its characters, bytes as that of their numbers.
-/

namespace DottedPath

/-- An index counted from the start of a sequence: a negative one counts from the end. -/
def fromStart (length : Nat) (index : Int) : Int :=
  if index < 0 then length + index else index

/-- The position that an index names in a sequence. -/
def resolveIndex? (length : Nat) (index : Int) : Option Nat :=
  if 0 ≤ fromStart length index ∧ fromStart length index < length then
    some (fromStart length index).toNat
  else none

theorem resolveIndex?_lt {length : Nat} {index : Int} {i : Nat}
    (h : resolveIndex? length index = some i) : i < length := by
  unfold resolveIndex? at h
  split at h
  · cases h
    omega
  · cases h

namespace Store

/-- The elements of a sequence, a set, a text or bytes. -/
def elements (s : Store) : Value → List Value
  | .str t => t.toList.map fun c => .str (String.ofList [c])
  | .bytes bs => bs.map fun b => .int b.toNat
  | .ref h =>
    match s.get? h with
    | some (.list xs) => xs
    | some (.tuple xs) => xs
    | some (.set ms) => ms
    | some (.frozenset ms) => ms
    | _ => []
  | _ => []

/-- The entries of a dict, or the attributes of an object with their names as keys. -/
def entries (s : Store) (v : Value) : List (Value × Value) :=
  match s.container? v with
  | some (.dict es) => es
  | some (.object _ as _) => as.map fun (name, x) => (.str name, x)
  | _ => []

/-- The value of a key, if the value is a dict that has it. -/
def dictGet? (s : Store) (v key : Value) : Option Value :=
  match s.container? v with
  | some (.dict es) => s.lookup? es key
  | _ => none

/-- An attribute, if the value is an object that has it. -/
def attrGet? (s : Store) (v : Value) (name : String) : Option Value :=
  match s.container? v with
  | some (.object _ as _) => as.lookup name
  | _ => none

/-- The position that an index names in a value with a length. -/
def position? (s : Store) (v : Value) (index : Int) : Option Nat :=
  (s.length? v).bind fun n => resolveIndex? n index

/-- The element at an index. -/
def elementAt? (s : Store) (v : Value) (index : Int) : Option Value :=
  if s.isIndexed v then (s.position? v index).bind fun i => (s.elements v)[i]? else none

/-- `needle` occurs in `hay` as a run of consecutive characters. -/
def hasInfix (needle : List Char) : List Char → Bool
  | [] => needle.isEmpty
  | c :: cs => needle.isPrefixOf (c :: cs) || hasInfix needle cs

/-- Membership: of a text in a text, of a key in a dict, of a name in an object, of an element in
everything else. -/
def contains (s : Store) (v needle : Value) : Bool :=
  match v, needle with
  | .str t, .str n => hasInfix n.toList t.toList
  | v, needle =>
    match s.container? v, needle with
    | some (.dict es), _ => (s.lookup? es needle).isSome
    | some (.set ms), _ => (s.keyIndex? ms needle).isSome
    | some (.frozenset ms), _ => (s.keyIndex? ms needle).isSome
    | some (.object _ as _), .str n => (as.lookup n).isSome
    | _, _ => (s.elements v).any fun x => s.equals x needle

end Store

/-- A sequence of the kind of `like` with the given elements. What is no sequence gives a list. -/
def withElements (like : Value) (items : List Value) : StoreM Value := fun s =>
  match like, s.container? like with
  | .str _, _ => (.str ("".intercalate (items.map s.text)), s)
  | .bytes _, _ =>
    let numbers := items.filterMap fun
      | .scalar x => x.toInt?
      | .ref _ => none
    (.bytes (numbers.map fun i => UInt8.ofNat (i % 256).toNat), s)
  | _, some (.tuple _) => alloc (.tuple items) s
  | _, some (.set _) => alloc (.set (s.membersOf items)) s
  | _, some (.frozenset _) => alloc (.frozenset (s.membersOf items)) s
  | _, _ => alloc (.list items) s

/-- An empty container of the same kind. -/
def emptyLike (like : Value) : StoreM Value := fun s =>
  match s.container? like with
  | some (.dict _) => alloc (.dict []) s
  | some (.object name _ frozen) => alloc (.object name [] frozen) s
  | _ => withElements like [] s

end DottedPath

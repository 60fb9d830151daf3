import DottedPath.Value.Scalar

/-!
Values and the store that holds their containers. A container is reached through its handle, so
that an edit made through one handle is seen through every other one, and containers may hold
themselves. Only lists, dicts, sets and objects that are not frozen are ever overwritten.
-/

namespace DottedPath

/-- The place of a container in a store. -/
structure Handle where
  index : Nat
deriving DecidableEq, Repr

/-- A scalar, or the handle of a container. -/
inductive Value where
  | scalar (x : Scalar)
  | ref (h : Handle)
deriving Inhabited

namespace Value

@[match_pattern] def null : Value := scalar .null

@[match_pattern] def bool (b : Bool) : Value := scalar (.bool b)

@[match_pattern] def int (i : Int) : Value := scalar (.int i)

@[match_pattern] def float (f : Float) : Value := scalar (.float f)

@[match_pattern] def str (s : String) : Value := scalar (.str s)

@[match_pattern] def bytes (bs : List UInt8) : Value := scalar (.bytes bs)

/-- The handle of a container. -/
def handle? : Value → Option Handle
  | ref h => some h
  | scalar _ => none

/-- Both are the same handle. -/
def sameHandle (a b : Value) : Bool :=
  match a, b with
  | ref g, ref h => g == h
  | _, _ => false

end Value

/-- The content of a container. Dicts, sets and objects keep the order of insertion. -/
inductive Container where
  | list (items : List Value)
  | tuple (items : List Value)
  | dict (entries : List (Value × Value))
  | set (members : List Value)
  | frozenset (members : List Value)
  | object (name : String) (attrs : List (String × Value)) (frozen : Bool)
deriving Inhabited

namespace Container

def kind : Container → Kind
  | list _ => .list
  | tuple _ => .tuple
  | dict _ => .dict
  | set _ => .set
  | frozenset _ => .frozenset
  | object _ _ _ => .object

/-- The number of items, entries, members or attributes. -/
def size : Container → Nat
  | list xs => xs.length
  | tuple xs => xs.length
  | dict es => es.length
  | set ms => ms.length
  | frozenset ms => ms.length
  | object _ as _ => as.length

/-- May be edited in place. -/
def isMutable : Container → Bool
  | list _ => true
  | dict _ => true
  | set _ => true
  | object _ _ frozen => !frozen
  | tuple _ => false
  | frozenset _ => false

/-- The values directly inside, keys before their values. -/
def parts : Container → List Value
  | list xs => xs
  | tuple xs => xs
  | dict es => es.flatMap fun (k, v) => [k, v]
  | set ms => ms
  | frozenset ms => ms
  | object _ as _ => as.map Prod.snd

end Container

/-- The containers of a computation, each at the place its handle names. -/
structure Store where
  cells : Array Container
deriving Inhabited

/-- Computations that read, create and edit containers. -/
abbrev StoreM := StateM Store

namespace Store

def empty : Store := ⟨#[]⟩

def size (s : Store) : Nat := s.cells.size

/-- The content at a handle. -/
def get? (s : Store) (h : Handle) : Option Container :=
  s.cells[h.index]?

/-- The content of a value that is a container. -/
def container? (s : Store) (v : Value) : Option Container :=
  v.handle?.bind s.get?

/-- Overwrites the content at a handle. -/
def set (s : Store) (h : Handle) (c : Container) : Store :=
  ⟨s.cells.setIfInBounds h.index c⟩

/-- Adds a container. -/
def push (s : Store) (c : Container) : Store :=
  ⟨s.cells.push c⟩

/-- The handle that the next container gets. -/
def next (s : Store) : Handle := ⟨s.cells.size⟩

@[simp] theorem size_set (s : Store) (h : Handle) (c : Container) : (s.set h c).size = s.size := by
  simp [Store.set, size]

@[simp] theorem size_push (s : Store) (c : Container) : (s.push c).size = s.size + 1 := by
  simp [push, size]

theorem get?_push_next (s : Store) (c : Container) : (s.push c).get? s.next = some c := by
  simp [get?, push, next]

theorem get?_push_of_lt {s : Store} {h : Handle} (c : Container) (lt : h.index < s.size) :
    (s.push c).get? h = s.get? h := by
  have : h.index ≠ s.cells.size := Nat.ne_of_lt lt
  simp [get?, push, Array.getElem?_push, this]

theorem get?_set_ne {s : Store} {g h : Handle} (c : Container) (ne : g ≠ h) :
    (s.set h c).get? g = s.get? g := by
  have : h.index ≠ g.index := fun e => ne (by cases g; cases h; simp_all)
  simp [get?, Store.set, this]

theorem get?_set_self {s : Store} {h : Handle} (c : Container) (lt : h.index < s.size) :
    (s.set h c).get? h = some c := by
  simp only [get?, Store.set]
  rw [Array.getElem?_setIfInBounds_self_of_lt lt]

/-- The kind of a value. A handle that names no container counts as the one of an object. -/
def kind (s : Store) : Value → Kind
  | .scalar x => x.kind
  | .ref h => ((s.get? h).map Container.kind).getD .object

/-- The number of parts of a container, of characters or of bytes. -/
def length? (s : Store) : Value → Option Nat
  | .scalar x => x.length?
  | .ref h => (s.get? h).map Container.size

/-- Holds for a value that a condition takes as true. Objects always do. -/
def truthy (s : Store) : Value → Bool
  | .scalar x => x.truthy
  | .ref h =>
    match s.get? h with
    | some (.object _ _ _) => true
    | some c => c.size != 0
    | none => true

/-- Can be edited in place. -/
def isMutable (s : Store) (v : Value) : Bool :=
  ((s.container? v).map Container.isMutable).getD false

/-- Has keys. -/
def isKeyed (s : Store) (v : Value) : Bool :=
  s.kind v == .dict

/-- Has positions: a list, a tuple, a text or bytes. -/
def isIndexed (s : Store) (v : Value) : Bool :=
  [Kind.list, .tuple, .str, .bytes].contains (s.kind v)

/-- Has attributes. -/
def isAttributed (s : Store) (v : Value) : Bool :=
  s.kind v == .object

/-- A list or a tuple. -/
def isListLike (s : Store) (v : Value) : Bool :=
  [Kind.list, .tuple].contains (s.kind v)

/-- A set or a frozen set. -/
def isSetLike (s : Store) (v : Value) : Bool :=
  [Kind.set, .frozenset].contains (s.kind v)

/-- A text or bytes. -/
def isText (s : Store) (v : Value) : Bool :=
  [Kind.str, .bytes].contains (s.kind v)

/-- A path can go into it, or a write through it. -/
def isEnterable (s : Store) (v : Value) : Bool :=
  !([Kind.none, .bool, .int, .float].contains (s.kind v))

end Store

/-- Creates a container. -/
def alloc (c : Container) : StoreM Value := fun s =>
  (.ref s.next, s.push c)

/-- Overwrites a container. -/
def overwrite (h : Handle) (c : Container) : StoreM Unit := fun s =>
  ((), s.set h c)

end DottedPath

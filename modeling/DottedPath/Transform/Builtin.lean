import DottedPath.Text.Blank
import DottedPath.Text.Case
import DottedPath.Transform.Percent
import DottedPath.Transform.Registry

/-!
The transforms that every registry starts with.
-/

namespace DottedPath.Builtin

/-- The scalar of a value that is one. -/
def scalar? : Value → Option Scalar
  | .scalar x => some x
  | .ref _ => none

/-- A pure step that may fail. -/
def ofExcept {α : Type} (r : Except String α) : ExceptT String StoreM α :=
  ExceptT.mk (pure r)

/-- The text of a string. -/
def stringOf (v : Value) : ExceptT String StoreM String := do
  match v with
  | .str t => pure t
  | v => throw ((← getThe Store).repr v ++ " is not a string")

/-- `str`: the text of a value, or the value in a format. -/
def toStr : Transform := fun v args _ => do
  let s ← getThe Store
  let plain := Value.str (s.text v)
  match args.head? with
  | none => pure plain
  | some .null => pure plain
  | some template =>
    if template matches .str "" then pure plain
    else do pure (.str (← ofExcept (Percent.format s (s.text template) v)))

/-- Takes a text off the start as often as it stands there. The bound is on the number of times. -/
def dropLeading (lead : List Char) : Nat → List Char → List Char
  | 0, cs => cs
  | n + 1, cs => if lead.isPrefixOf cs then dropLeading lead n (cs.drop lead.length) else cs

/-- Digits without the markers of their base. -/
def withoutMarkers (base : Nat) (cs : List Char) : List Char :=
  let markers := match base with
    | 16 => ["0x", "0X"]
    | 8 => ["0o", "0O"]
    | 2 => ["0b", "0B"]
    | _ => []
  markers.foldl (fun cs m => dropLeading m.toList (cs.length + 1) cs) cs

/-- The base that an argument asks for; ten if it names none between two and thirty-six. -/
def baseOf (arg : Value) : Nat :=
  match (scalar? arg).bind Scalar.toInt? with
  | some b => if 2 ≤ b ∧ b ≤ 36 then b.toNat else 10
  | none => 10

/-- An integer in a base: blanks around it, a minus sign, and markers of the base are allowed. -/
def readInBase? (base : Nat) (text : String) : Option Int :=
  match Text.trim text.toList with
  | '-' :: ds => (Decimal.readInt? base (withoutMarkers base ds)).map fun i => Word.wrap (-i)
  | ds => Decimal.readInt? base (withoutMarkers base ds)

/-- A value as an integer, without a base. -/
def wholeOf? : Value → Option Int
  | .float f =>
    match Decimal.Reading.ofFloat f with
    | .finite _ => some (Word.ofFloat f)
    | _ => none
  | .str t => Decimal.readInt? 10 ((Text.trim t.toList).filter (· != '_'))
  | .scalar x => x.toInt?
  | .ref _ => none

/-- `int`: a number without its fractional part, or the integer that a text stands for. -/
def toInt : Transform := fun v args _ => do
  let s ← getThe Store
  let result := match args.head? with
    | none => wholeOf? v
    | some .null => wholeOf? v
    | some base => readInBase? (baseOf base) (s.text v)
  match result with
  | some i => pure (.int i)
  | none => throw ("invalid literal for int(): " ++ s.repr v)

/-- `float`, `decimal`: a number as a double. -/
def toFloat : Transform := fun v _ _ => do
  let s ← getThe Store
  match v with
  | .str t =>
    match Decimal.readFloat? (Text.trim t.toList) with
    | some f => pure (.float f)
    | none => throw ("could not convert string to float: " ++ s.repr v)
  | v => do pure (.float (← ofExcept (Percent.number s v)))

/-- `none`: null for a value among the arguments, or for any false one if there are none. Null
among the arguments stands for the empty text too. -/
def toNone : Transform := fun v args _ => do
  let s ← getThe Store
  let hit :=
    if args.isEmpty then !s.truthy v
    else args.any fun a =>
      match a with
      | .null => (v matches .null) || (v matches .str "")
      | a => s.equals a v
  pure (if hit then .null else v)

/-- Characters without those at both ends that pass a test. -/
def trimBy (p : Char → Bool) (cs : List Char) : List Char :=
  ((cs.dropWhile p).reverse.dropWhile p).reverse

/-- `strip`: a text without blanks, or without the characters of the argument, at its ends. -/
def strip : Transform := fun v args _ => do
  let cs := (← stringOf v).toList
  let p := match args.head? with
    | some (.str set) => if set.isEmpty then Text.isBlank else set.toList.contains
    | _ => Text.isBlank
  pure (.str (String.ofList (trimBy p cs)))

/-- `len`: the length of a value; for one that has none, the argument. -/
def length : Transform := fun v args named => do
  let s ← getThe Store
  match s.length? v with
  | some n => pure (.int n)
  | none =>
    match args.head?.or (named.lookup "default") with
    | some (.null) => throw (noLength s v)
    | some d => pure d
    | none => throw (noLength s v)
where
  noLength (s : Store) (v : Value) : String :=
    "object of type '" ++ (s.kind v).name ++ "' has no len()"

/-- `lowercase`. -/
def lowercase : Transform := fun v _ _ => do
  pure (.str (Text.lowercase (← stringOf v)))

/-- `uppercase`. -/
def uppercase : Transform := fun v _ _ => do
  pure (.str (Text.uppercase (← stringOf v)))

/-- The sum of two scalars, if there is one. Integers must not leave their range; a sum in which
not both are integers is a double. -/
def addScalars? (a b : Scalar) : Option Scalar :=
  match a, b with
  | .int i, .int j => (Word.checked? (i + j)).map .int
  | .str s, .str t => some (.str (s ++ t))
  | .bytes s, .bytes t => some (.bytes (s ++ t))
  | a, b =>
    match a.toFloat?, b.toFloat? with
    | some x, some y => some (.float (x + y))
    | _, _ => none

/-- `add`: the sum of numbers, or one text, bytes, list or tuple after the other. -/
def add : Transform := fun v args _ => do
  let s ← getThe Store
  match args.head? with
  | none => throw "add needs an operand"
  | some w =>
    let unsupported := "unsupported operand types for +: '" ++ (s.kind v).name ++ "' and '" ++
      (s.kind w).name ++ "'"
    match v, w with
    | .scalar a, .scalar b =>
      match addScalars? a b with
      | some c => pure (.scalar c)
      | none => throw unsupported
    | v, w =>
      if s.kind v == s.kind w && s.isListLike v then
        (withElements v (s.elements v ++ s.elements w) : StoreM Value)
      else throw unsupported

/-- The elements of a value that has some: those of a sequence, or the keys of a dict. -/
def elementsOf (v : Value) : ExceptT String StoreM (List Value) := do
  let s ← getThe Store
  match s.kind v with
  | .dict => pure ((s.entries v).map Prod.fst)
  | .list | .tuple | .set | .frozenset | .str | .bytes => pure (s.elements v)
  | k => throw ("'" ++ k.name ++ "' object is not iterable")

/-- `list`: a new list of the elements. -/
def toList : Transform := fun v _ _ => do
  let items ← elementsOf v
  (alloc (.list items) : StoreM Value)

/-- `tuple`: a tuple of the elements. -/
def toTuple : Transform := fun v _ _ => do
  let items ← elementsOf v
  (alloc (.tuple items) : StoreM Value)

/-- `set`: a new set of the elements. -/
def toSet : Transform := fun v _ _ => do
  let items ← elementsOf v
  let s ← getThe Store
  (alloc (.set (s.membersOf items)) : StoreM Value)

end DottedPath.Builtin

namespace DottedPath

/-- The registry of the transforms of this module. -/
def Registry.builtin : Registry :=
  ⟨[("str", Builtin.toStr), ("int", Builtin.toInt), ("float", Builtin.toFloat),
    ("decimal", Builtin.toFloat), ("none", Builtin.toNone), ("strip", Builtin.strip),
    ("len", Builtin.length), ("lowercase", Builtin.lowercase), ("uppercase", Builtin.uppercase),
    ("add", Builtin.add), ("list", Builtin.toList), ("tuple", Builtin.toTuple),
    ("set", Builtin.toSet)]⟩

end DottedPath

import DottedPath.Decimal.Layout
import DottedPath.Decimal.Word
import DottedPath.Text.Quoted
import DottedPath.Text.Utf8
import DottedPath.Value.Kind

/-!
Scalars: the values without parts. Booleans count as the integers zero and one in comparisons, and
integers compare with doubles as doubles. As keys of a collection two equal numbers are the same
key only if they also agree as integers or bit by bit.
-/

namespace DottedPath

/-- A value without parts. -/
inductive Scalar where
  | null
  | bool (b : Bool)
  | int (i : Int)
  | float (f : Float)
  | str (s : String)
  | bytes (bs : List UInt8)
deriving Inhabited, BEq

namespace Scalar

def kind : Scalar → Kind
  | null => .none
  | bool _ => .bool
  | int _ => .int
  | float _ => .float
  | str _ => .str
  | bytes _ => .bytes

/-- The integer that a number without a fractional type stands for. -/
def toInt? : Scalar → Option Int
  | int i => some i
  | bool b => some (if b then 1 else 0)
  | _ => none

/-- The double nearest to a number. -/
def toFloat? : Scalar → Option Float
  | float f => some f
  | x => x.toInt?.map Float.ofInt

/-- Holds for a value that a condition takes as true. -/
def truthy : Scalar → Bool
  | null => false
  | bool b => b
  | int i => i != 0
  | float f => f != 0.0
  | str s => !s.isEmpty
  | bytes bs => !bs.isEmpty

/-- The number of characters or bytes. -/
def length? : Scalar → Option Nat
  | str s => some s.length
  | bytes bs => some bs.length
  | _ => none

/-- Equality of values: numbers of any type compare by what they stand for. -/
def equals (a b : Scalar) : Bool :=
  match a, b with
  | null, null => true
  | str s, str t => s == t
  | bytes s, bytes t => s == t
  | a, b =>
    match a.toInt?, b.toInt? with
    | some i, some j => i == j
    | _, _ =>
      match a.toFloat?, b.toFloat? with
      | some x, some y => x == y
      | _, _ => false

/-- The integer that a double counts as when it serves as a key: whole doubles of a size where
integers and doubles still correspond. -/
def integerKey? (f : Float) : Option Int :=
  match Decimal.Reading.ofFloat f with
  | .finite b =>
    if b.isWhole && b.truncated < 9000000000000000000 then some (Word.ofFloat f) else none
  | _ => none

/-- What equal numbers must share to be the same key. -/
def sameNumberKey (a b : Scalar) : Bool :=
  match a, b with
  | float x, float y =>
    match integerKey? x, integerKey? y with
    | some i, some j => i == j
    | none, none => x.toBits == y.toBits
    | _, _ => false
  | float x, b => (integerKey? x).isSome && integerKey? x == b.toInt?
  | a, float y => (integerKey? y).isSome && a.toInt? == integerKey? y
  | _, _ => true

/-- Equality of keys. -/
def sameKey (a b : Scalar) : Bool :=
  equals a b && sameNumberKey a b

/-- The order of bytes, the first difference deciding. -/
def compareBytes : List UInt8 → List UInt8 → Ordering
  | [], [] => .eq
  | [], _ :: _ => .lt
  | _ :: _, [] => .gt
  | a :: as, b :: bs => (compare a b).then (compareBytes as bs)

/-- The order of characters by code point, the first difference deciding. -/
def compareChars : List Char → List Char → Ordering
  | [], [] => .eq
  | [], _ :: _ => .lt
  | _ :: _, [] => .gt
  | a :: as, b :: bs => (compare a.toNat b.toNat).then (compareChars as bs)

/-- The order of doubles; NaN is not comparable. -/
def compareFloats? (x y : Float) : Option Ordering :=
  if x < y then some .lt else if y < x then some .gt else if x == y then some .eq else none

/-- The order of scalars: text with text, bytes with bytes, numbers with numbers. -/
def order? (a b : Scalar) : Option Ordering :=
  match a, b with
  | str s, str t => some (compareChars s.toList t.toList)
  | bytes s, bytes t => some (compareBytes s t)
  | a, b =>
    match a.toInt?, b.toInt? with
    | some i, some j => some (compare i j)
    | _, _ =>
      match a.toFloat?, b.toFloat? with
      | some x, some y => compareFloats? x y
      | _, _ => none

/-- The literal form of a scalar. -/
def repr : Scalar → String
  | null => "None"
  | bool true => "True"
  | bool false => "False"
  | int i => Decimal.intText i
  | float f => Decimal.Layout.plain.text f
  | str s => Text.shown s
  | bytes bs => Text.shownBytes bs

/-- The text of a scalar: a string stands for itself. -/
def text : Scalar → String
  | str s => s
  | x => x.repr

end Scalar

end DottedPath

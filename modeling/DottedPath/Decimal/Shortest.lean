import DottedPath.Decimal.Binary
import DottedPath.Decimal.Digits

/-!
The fewest decimal digits that read back as the same double, and of those the nearest ones. For
each number of digits the two neighbours of the value on that decimal grid are tested against the
interval of reals that round to it, in exact arithmetic.
-/

namespace DottedPath.Decimal

/-- A value with its interval, all over the unit `2 ^ unit`. -/
structure Interval where
  low : Nat
  value : Nat
  high : Nat
  unit : Int
  closed : Bool

/-- The reals that round to a nonzero double: half the gap to each neighbour, where the gap below
a power of two is half as wide, with the ends if the last bit of the mantissa is zero. -/
def Binary.interval (b : Binary) : Interval :=
  let m := b.mantissa
  let narrow := m == 2 ^ 52 && b.exponent > -1074
  { low := 4 * m - (if narrow then 1 else 2)
    value := 4 * m
    high := 4 * m + 2
    unit := b.exponent - 2
    closed := m % 2 == 0 }

/-- `a * 2 ^ e` against `b * 10 ^ k`, as two whole numbers in the same ratio. -/
def scaled (a : Nat) (e : Int) (b : Nat) (k : Int) : Nat × Nat :=
  (a * 2 ^ e.toNat * 10 ^ (-k).toNat, b * 2 ^ (-e).toNat * 10 ^ k.toNat)

/-- The decimal exponent of the first digit of `a * 2 ^ e`. The estimate from the binary logarithm
is at most one off. -/
def decimalExponent (a : Nat) (e : Int) : Int :=
  let estimate := Int.fdiv (((Nat.log2 a : Nat) + e) * 30103) 100000
  let (x, y) := scaled a e 1 estimate
  if x < y then estimate - 1
  else
    let (x, y) := scaled a e 1 (estimate + 1)
    if y ≤ x then estimate + 1 else estimate

/-- Lies in the interval, as a point of the grid `10 ^ k`. -/
def Interval.contains (i : Interval) (d : Nat) (k : Int) : Bool :=
  let (lo, x) := scaled i.low i.unit d k
  let (hi, _) := scaled i.high i.unit d k
  if i.closed then lo ≤ x && x ≤ hi else lo < x && x < hi

/-- The nearer of the two neighbours of the value on the grid `10 ^ k` that lie in the interval; of
two at the same distance the larger. -/
def Interval.onGrid? (i : Interval) (k : Int) : Option Nat :=
  let (num, den) := scaled i.value i.unit 1 k
  let d := num / den
  match i.contains d k, i.contains (d + 1) k with
  | true, true => some (if num - d * den < (d + 1) * den - num then d else d + 1)
  | true, false => some d
  | false, true => some (d + 1)
  | false, false => none

/-- The digits and the exponent of the shortest decimal that rounds to a nonzero double. Seventeen
digits always suffice. -/
def Binary.shortest (b : Binary) : Nat × Int :=
  let i := b.interval
  let top := decimalExponent i.value i.unit
  let hit := (List.range 17).findSome? fun (n : Nat) =>
    (i.onGrid? (top - n)).map fun d => stripZeros 400 d (top - n)
  hit.getD (0, 0)

end DottedPath.Decimal

import DottedPath.Decimal.Binary
import DottedPath.Decimal.Digits
import DottedPath.Decimal.Shortest

/-!
Decimal texts with a given number of places. The exact value is rounded to the nearest multiple of
the last place, a half to the even one.
-/

namespace DottedPath.Decimal

/-- The whole number nearest to `num / den`, a half going to the even one. -/
def roundDiv (num den : Nat) : Nat :=
  let q := num / den
  let r := num % den
  if 2 * r < den then q
  else if den < 2 * r then q + 1
  else if q % 2 == 0 then q else q + 1

/-- A point before the last `places` digits. -/
def withPoint (places : Nat) (digits : List Char) : List Char :=
  if places == 0 then digits
  else
    let ds := padZeros (places + 1) digits
    ds.take (ds.length - places) ++ '.' :: ds.drop (ds.length - places)

/-- The magnitude with `places` digits after the point. -/
def Binary.fixed (b : Binary) (places : Nat) : List Char :=
  let (num, den) := b.quotient
  withPoint places (natDigits (roundDiv (num * 10 ^ places) den))

/-- The magnitude as one digit, `places` digits after the point, and the exponent of the first. -/
def Binary.scientific (b : Binary) (places : Nat) : List Char × Int :=
  if b.mantissa == 0 then (withPoint places (List.replicate (places + 1) '0'), 0)
  else
    let lead := decimalExponent b.mantissa b.exponent
    let (num, den) := scaled b.mantissa b.exponent 1 (lead - places)
    let d := roundDiv num den
    if 10 ^ (places + 1) ≤ d then (withPoint places (natDigits (d / 10)), lead + 1)
    else (withPoint places (natDigits d), lead)

end DottedPath.Decimal

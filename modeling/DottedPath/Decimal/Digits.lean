/-!
Decimal digits of whole numbers, and their arrangement around a point or before an exponent.
-/

namespace DottedPath.Decimal

/-- The decimal digits of a number, without leading zeros except for zero itself. -/
def natDigits (n : Nat) : List Char :=
  Nat.toDigits 10 n

/-- The decimal text of a number. -/
def natText (n : Nat) : String :=
  String.ofList (natDigits n)

/-- The decimal text of an integer, with a minus sign if it is negative. -/
def intText (i : Int) : String :=
  if i < 0 then "-" ++ natText i.natAbs else natText i.natAbs

/-- Digits filled up with zeros in front to a width. -/
def padZeros (width : Nat) (digits : List Char) : List Char :=
  List.replicate (width - digits.length) '0' ++ digits

/-- Divides out factors of ten: `strip d k` has the value `d * 10 ^ k` with no zero at the end of
its digits, unless the number is zero. The first argument bounds the number of digits. -/
def stripZeros : Nat → Nat → Int → Nat × Int
  | 0, d, k => (d, k)
  | n + 1, d, k =>
    if d ≠ 0 ∧ d % 10 = 0 then stripZeros n (d / 10) (k + 1) else (d, k)

/-- Nonzero value `digits * 10 ^ exponent` written without an exponent; a whole number gets `.0`. -/
def positional (digits : Nat) (exponent : Int) : List Char :=
  let ds := natDigits digits
  if 0 ≤ exponent then ds ++ List.replicate exponent.toNat '0' ++ ['.', '0']
  else
    let places := (-exponent).toNat
    let ds := padZeros (places + 1) ds
    ds.take (ds.length - places) ++ '.' :: ds.drop (ds.length - places)

/-- The first digit, and the others after a point if there are others. -/
def significand (digits : Nat) : List Char :=
  match natDigits digits with
  | d :: e :: ds => d :: '.' :: e :: ds
  | ds => ds

/-- The exponent of the first digit of `digits * 10 ^ exponent`. -/
def leadingExponent (digits : Nat) (exponent : Int) : Int :=
  exponent + ((natDigits digits).length - 1 : Nat)

end DottedPath.Decimal

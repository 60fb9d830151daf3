import DottedPath.Decimal.Word

/-!
Reading numbers from text: integers of sixty-four bits in any base, and doubles.
-/

namespace DottedPath.Decimal

/-- The value of a digit, if it is one in the base. -/
def digitValue? (base : Nat) (c : Char) : Option Nat :=
  let v? :=
    if '0' ≤ c && c ≤ '9' then some (c.toNat - 48)
    else if 'a' ≤ c && c ≤ 'z' then some (c.toNat - 87)
    else if 'A' ≤ c && c ≤ 'Z' then some (c.toNat - 55)
    else none
  v?.filter (· < base)

/-- Digits, at least one, read as a number. -/
def readNat? (base : Nat) : List Char → Option Nat
  | [] => none
  | c :: cs => (c :: cs).foldlM (fun n c => (digitValue? base c).map (base * n + ·)) 0

/-- An optional sign and digits, within sixty-four bits. -/
def readInt? (base : Nat) : List Char → Option Int
  | '-' :: ds => (readNat? base ds).bind fun n => Word.checked? (-(n : Int))
  | '+' :: ds => (readNat? base ds).bind fun n => Word.checked? n
  | ds => (readNat? base ds).bind fun n => Word.checked? n

/-- The double nearest to `digits * 10 ^ exponent`. Exponents far outside the range of doubles are
answered without computing the power. -/
def floatOf (digits : Nat) (exponent : Int) : Float :=
  let lead := exponent + (Nat.toDigits 10 digits).length
  if digits == 0 || lead < -400 then 0.0
  else if 400 < lead then 1.0 / 0.0
  else if exponent < 0 then Float.ofScientific digits true exponent.natAbs
  else Float.ofScientific digits false exponent.toNat

/-- The exponent after `e`: an optional sign and at least one digit. -/
def readExponent? : List Char → Option Int
  | '-' :: ds => (readNat? 10 ds).map fun n => -(n : Int)
  | '+' :: ds => (readNat? 10 ds).map fun n => (n : Int)
  | ds => (readNat? 10 ds).map fun n => (n : Int)

/-- Digits with an optional point, at least one digit on either side of it, and an optional
exponent. -/
def readMagnitude? (cs : List Char) : Option Float :=
  let whole := cs.takeWhile Char.isDigit
  let rest := cs.dropWhile Char.isDigit
  let (fraction, rest) :=
    match rest with
    | '.' :: r => (r.takeWhile Char.isDigit, r.dropWhile Char.isDigit)
    | r => ([], r)
  (readNat? 10 (whole ++ fraction)).bind fun digits =>
    match rest with
    | [] => some (floatOf digits (-(fraction.length : Int)))
    | e :: r =>
      if e == 'e' || e == 'E' then
        (readExponent? r).map fun x => floatOf digits (x - (fraction.length : Int))
      else none

/-- A magnitude, or one of the words for infinity and NaN in any case of letters. -/
def readUnsigned? (cs : List Char) : Option Float :=
  let word := cs.map Char.toLower
  if word == "inf".toList || word == "infinity".toList then some (1.0 / 0.0)
  else if word == "nan".toList then some (0.0 / 0.0)
  else readMagnitude? cs

/-- A double: an optional sign before an unsigned one. -/
def readFloat? : List Char → Option Float
  | '-' :: cs => (readUnsigned? cs).map Float.neg
  | '+' :: cs => readUnsigned? cs
  | cs => readUnsigned? cs

end DottedPath.Decimal

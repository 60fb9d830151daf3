/-!
A double as a whole number times a power of two. Everything exact about printing a double starts
from this form; the floating point unit plays no part in it.
-/

namespace DottedPath.Decimal

-- A power of a whole number is that of the core library, whatever other instances are in sight.
attribute [instance (1100), default_instance 20000] instPowNat

/-- The magnitude `mantissa * 2 ^ exponent` with its sign. -/
structure Binary where
  negative : Bool
  mantissa : Nat
  exponent : Int
deriving DecidableEq, Repr

/-- What a double stands for. -/
inductive Reading where
  | nan
  | infinite (negative : Bool)
  | finite (value : Binary)
deriving DecidableEq, Repr

/-- Takes the sign, the exponent and the fraction out of the bits of a double. Numbers below the
least normal one have no implicit leading bit. -/
def Reading.ofFloat (f : Float) : Reading :=
  let bits : Nat := f.toBits.toNat
  let fraction : Nat := bits % 2 ^ 52
  let biased : Nat := bits / 2 ^ 52 % 2048
  let negative := bits / 2 ^ 63 == 1
  if biased == 2047 then
    if fraction == 0 then .infinite negative else .nan
  else if biased == 0 then .finite ⟨negative, fraction, -1074⟩
  else .finite ⟨negative, fraction + 2 ^ 52, (biased : Int) - 1075⟩

/-- The magnitude as a quotient of two whole numbers. -/
def Binary.quotient (b : Binary) : Nat × Nat :=
  if 0 ≤ b.exponent then (b.mantissa * 2 ^ b.exponent.toNat, 1)
  else (b.mantissa, 2 ^ (-b.exponent).toNat)

/-- The magnitude cut to a whole number. -/
def Binary.truncated (b : Binary) : Nat :=
  b.quotient.1 / b.quotient.2

/-- Has no fractional part. -/
def Binary.isWhole (b : Binary) : Bool :=
  b.quotient.1 % b.quotient.2 == 0

end DottedPath.Decimal

import DottedPath.Decimal.Shortest

/-!
The text of a double: shortest digits, laid out by a format. A layout says which magnitudes are
written without an exponent, how the exponent is written, and how the values without digits are.
-/

namespace DottedPath.Decimal

/-- How a double is written. -/
structure Layout where
  /-- The least and the greatest exponent of the first digit that is written without `e`. -/
  least : Int
  greatest : Int
  /-- Writes `e+16` rather than `e16`. -/
  plus : Bool
  /-- Least number of digits of the exponent. -/
  exponentWidth : Nat
  nan : String
  infinity : String
  negativeInfinity : String

/-- The text of values, of keys and of messages. -/
def Layout.plain : Layout := ⟨-4, 15, true, 2, "nan", "inf", "-inf"⟩

/-- Numbers in a JSON text, where the values without digits do not occur. -/
def Layout.json : Layout := ⟨-5, 15, true, 1, "null", "null", "null"⟩

/-- Numbers in a YAML text. -/
def Layout.yaml : Layout := ⟨-5, 15, false, 1, ".nan", ".inf", "-.inf"⟩

/-- The text of a nonzero magnitude `digits * 10 ^ exponent`. -/
def Layout.magnitude (l : Layout) (digits : Nat) (exponent : Int) : List Char :=
  let lead := leadingExponent digits exponent
  if l.least ≤ lead ∧ lead ≤ l.greatest then positional digits exponent
  else
    let sign := if lead < 0 then ['-'] else if l.plus then ['+'] else []
    significand digits ++ 'e' :: sign ++ padZeros l.exponentWidth (natDigits lead.natAbs)

/-- The text of a double. -/
def Layout.text (l : Layout) (f : Float) : String :=
  match Reading.ofFloat f with
  | .nan => l.nan
  | .infinite negative => if negative then l.negativeInfinity else l.infinity
  | .finite b =>
    let sign := if b.negative then ['-'] else []
    if b.mantissa == 0 then String.ofList (sign ++ ['0', '.', '0'])
    else
      let (digits, exponent) := b.shortest
      String.ofList (sign ++ l.magnitude digits exponent)

end DottedPath.Decimal

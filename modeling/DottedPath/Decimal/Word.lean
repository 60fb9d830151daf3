import DottedPath.Decimal.Binary

/-!
Integers of sixty-four bits. Values hold such integers as `Int`; this module says which integers
fit, what a sum that does not fit becomes, and which integer a double is cut to.
-/

namespace DottedPath.Word

/-- The least and the greatest integer of sixty-four bits. -/
def least : Int := -2 ^ 63

def greatest : Int := 2 ^ 63 - 1

/-- Lies in the range of sixty-four bits. -/
def fits (i : Int) : Bool :=
  decide (least ≤ i ∧ i ≤ greatest)

/-- The integer of sixty-four bits that is congruent modulo `2 ^ 64`. -/
def wrap (i : Int) : Int :=
  i.bmod (2 ^ 64)

/-- The integer, if it fits. -/
def checked? (i : Int) : Option Int :=
  if fits i then some i else none

/-- A double without its fractional part, held within the range; NaN becomes zero. -/
def ofFloat (f : Float) : Int :=
  match Decimal.Reading.ofFloat f with
  | .nan => 0
  | .infinite negative => if negative then least else greatest
  | .finite b =>
    let n : Int := if b.negative then -(b.truncated : Int) else b.truncated
    max least (min greatest n)

theorem fits_iff {i : Int} : fits i = true ↔ -2 ^ 63 ≤ i ∧ i ≤ 2 ^ 63 - 1 :=
  decide_eq_true_iff

theorem wrap_of_fits {i : Int} (h : fits i = true) : wrap i = i := by
  have := fits_iff.1 h
  unfold wrap
  rw [Int.bmod_eq_of_le] <;> omega

theorem fits_wrap (i : Int) : fits (wrap i) = true := by
  have h1 := Int.le_bmod (x := i) (m := 2 ^ 64) (by decide)
  have h2 := Int.bmod_lt (x := i) (m := 2 ^ 64) (by decide)
  exact fits_iff.2 (by unfold wrap; omega)

end DottedPath.Word

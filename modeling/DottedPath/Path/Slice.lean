import DottedPath.Decimal.Word

/-!
Slices of a sequence: a start, a stop and a step, any of them left out. Positions are stepped in
sixty-four bits; those that fall outside the sequence name no element.
-/

namespace DottedPath

/-- One end of a slice: an index, or the length of the sequence. -/
inductive Bound where
  | index (i : Int)
  | length
deriving DecidableEq, Repr

/-- A slice with its parts as written. -/
structure SliceRange where
  start : Option Bound
  stop : Option Bound
  step : Option Int
deriving DecidableEq, Repr

namespace SliceRange

/-- The whole sequence. -/
def full : SliceRange := ⟨none, none, none⟩

/-- The steps go forward. -/
def isForward (step : Int) : Bool :=
  0 < step

/-- A bound as a position. Negative indexes count from the end, and an index past the end on either
side is moved to the end that steps of the given sign can reach. -/
def resolve (length : Nat) (step : Int) (omitted : Int) : Option Bound → Int
  | none => omitted
  | some .length => length
  | some (.index i) =>
    if i < 0 then max (length + i) (if isForward step then 0 else -1)
    else min i (if isForward step then length else length - 1)

/-- The positions from `i` on, up to but not including `stop`. Each sum is reduced to what the
arithmetic can hold. The bound is on their number. -/
def stepFrom (reduce : Int → Int) (step stop : Int) : Nat → Int → List Int
  | 0, _ => []
  | n + 1, i =>
    if (if isForward step then i < stop else stop < i) then
      i :: stepFrom reduce step stop n (reduce (i + step))
    else []

/-- The positions of a slice in a sequence, in the order of the slice, where sums are reduced: not at
all with `id`. -/
def positionsBy (reduce : Int → Int) (r : SliceRange) (length : Nat) : List Int :=
  let step := r.step.getD 1
  if step == 0 then []
  else
    let start := resolve length step (if isForward step then 0 else length - 1) r.start
    let stop := resolve length step (if isForward step then length else -1) r.stop
    stepFrom reduce step stop (length + 2) start

/-- The positions of a slice in a sequence, stepped in sixty-four bits. -/
def positions (r : SliceRange) (length : Nat) : List Int :=
  r.positionsBy Word.wrap length

/-- A run of neighbours in ascending order. -/
def isContiguous (r : SliceRange) : Bool :=
  r.step.isNone || r.step == some 1

end SliceRange

end DottedPath

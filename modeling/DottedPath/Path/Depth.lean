/-!
Depth windows of recursive segments: `start:stop:step`. Depths count from the top; a negative bound
counts from the leaves and is compared with the greatest distance to a leaf below.
-/

namespace DottedPath

/-- A depth window with its parts as written. -/
structure DepthRange where
  start : Option Int
  stop : Option Int
  step : Option Int
deriving DecidableEq, Repr

namespace DepthRange

/-- No window: every depth. -/
def unbounded : DepthRange := ⟨none, none, none⟩

/-- A bound counts from the leaves. -/
def hasNegative (d : DepthRange) : Bool :=
  d.start.any (· < 0) || d.stop.any (· < 0)

/-- The distance to a leaf that a negative bound names. -/
def leafDistance (bound : Int) : Int :=
  -bound - 1

/-- A start that counts from the leaves asks for that very distance. -/
def startHolds (d : DepthRange) (distance : Int) : Bool :=
  d.start.all fun s => 0 ≤ s || distance == leafDistance s

/-- A stop that counts from the leaves asks for at least that distance. -/
def stopHolds (d : DepthRange) (distance : Int) : Bool :=
  d.stop.all fun s => 0 ≤ s || leafDistance s ≤ distance

/-- The depth is a whole number of steps past the start. -/
def stepHolds (step : Option Int) (start depth : Int) : Bool :=
  step.all fun n => 0 < n && (depth - start) % n == 0

/-- Tests a depth, given the greatest distance from there to a leaf. A start alone asks for that
depth; with a stop or a step it is the first depth of the window. -/
def contains (d : DepthRange) (depth distance : Int) : Bool :=
  if d == unbounded then true
  else if !d.startHolds distance then false
  else if d.start.any (· < 0) && d.stop.isNone && d.step.isNone then true
  else if !d.stopHolds distance then false
  else
    let start := d.start.map fun s => if s < 0 then depth else s
    if d.stop.isNone && d.step.isNone then start == some depth
    else
      let from_ := start.getD 0
      let stop := d.stop.filter (0 ≤ ·)
      from_ ≤ depth && stop.all (depth ≤ ·) && stepHolds d.step from_ depth

end DepthRange

end DottedPath

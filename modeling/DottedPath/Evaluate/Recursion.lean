import DottedPath.Evaluate.Items

/-!
Recursive descent. It goes down from a value level by level and reports what it passes, a container
before its parts. A container that is met again inside itself is reported, but not entered again, so
the descent ends on every value.

Without branches the entries of a dict are followed if their key matches, and those of a list or
tuple always: its elements are reported only if their position matches.
-/

namespace DottedPath

/-- What a recursive segment asks for. -/
structure Recursion where
  key : KeyPattern
  branches : List Branch
  depth : DepthRange
  filter : Option Filter
  first : Bool

/-- The descent of a segment that is recursive, whatever wraps it. -/
def Segment.recursion? (seg : Segment) : Option Recursion :=
  match seg.unwrapped with
  | .recursive key branches depth filter first => some ⟨key, branches, depth, filter, first⟩
  | _ => none

/-- A part that a descent goes to. It is reported only if it is marked so. -/
structure Child where
  step : Step
  value : Value
  reported : Bool

/-- The parts that a descent without branches goes to. -/
def plainChildren (s : Store) (key : KeyPattern) (node : Value) : List Child :=
  if s.isKeyed node then
    ((s.entries node).filter fun (k, _) => s.keyMatches key k).map fun (k, v) => ⟨.key k, v, true⟩
  else if s.isListLike node then
    (s.numbered node).map fun (i, v) => ⟨.slot i, v, s.keyMatches key i⟩
  else []

namespace Context

variable (ctx : Context)

/-- The parts that the first segments of branches select. A hard cut after a branch that selects
something leaves out the others. -/
def branchChildren : List Branch → Value → Eval (List Child)
  | [], _ => pure []
  | .mk [] _ :: bs, node => branchChildren bs node
  | .mk (seg :: _) cut :: bs, node => do
    let found ← ctx.items seg node
    let here := found.map fun (step, v) => ⟨step, v, true⟩
    if cut == .hard && !found.isEmpty then pure here
    else do
      let more ← branchChildren bs node
      pure (here ++ more)

/-- The parts that a descent goes to from a value. Texts have none. -/
def children (r : Recursion) (node : Value) : Eval (List Child) := do
  let s ← store
  if s.isText node then pure []
  else if r.branches.isEmpty then pure (plainChildren s r.key node)
  else ctx.branchChildren r.branches node

/-- The longest way down to a leaf, going at most the given number of levels. What is on the way
already counts as a leaf, and so do the elements of a slice. -/
def leafDistanceWithin (r : Recursion) : Nat → List Handle → Value → Eval Nat
  | 0, _, _ => pure 0
  | n + 1, above, node => do
    if node.handle?.any above.contains then pure 0
    else
      let above := node.handle?.toList ++ above
      let below ← (← ctx.children r node).mapM fun child =>
        if child.step.descends then leafDistanceWithin r n above child.value else pure 0
      pure (below.foldl (fun most d => max most (d + 1)) 0)

/-- The longest way down to a leaf. A way enters each container at most once. -/
def leafDistance (r : Recursion) (node : Value) : Eval Nat := do
  ctx.leafDistanceWithin r ((← store).size + 2) [] node

/-- A candidate at a depth passes the filter and the depth window. -/
def reports (r : Recursion) (v : Value) (depth : Nat) : Eval Bool := do
  if ← ctx.passes r.filter v then
    let distance ← if r.depth.hasNegative then ctx.leafDistance r v else pure 0
    pure (r.depth.contains depth distance)
  else pure false

/-- Adds to `found` what a descent reports below a value, going at most the given number of levels.
With `first` it stops once it has found something. -/
def descend (r : Recursion) : Nat → List Handle → Location → Nat → Value → List Found →
    Eval (List Found)
  | 0, _, _, _, _, found => pure found
  | n + 1, above, base, depth, node, found => do
    (← ctx.children r node).foldlM (fun found child => do
      if r.first && !found.isEmpty then pure found
      else
        let location := base ++ [child.step]
        let hit ← if child.reported then ctx.reports r child.value depth else pure false
        let found := if hit then found ++ [(location, child.value)] else found
        if child.value.handle?.any above.contains || !child.step.descends then pure found
        else
          descend r n (child.value.handle?.toList ++ above) location (depth + 1) child.value found)
      found

/-- What a descent reports below a value, in order. A way down enters each container at most
once. -/
def collect (r : Recursion) (node : Value) : Eval (List Found) := do
  let found ← ctx.descend r ((← store).size + 2) node.handle?.toList [] 0 node []
  pure (firstOnly r.first found)

end Context

end DottedPath

import DottedPath.Evaluate.Child
import DottedPath.Evaluate.Recursion

/-!
Replacing along a descent: what a recursive segment reports is replaced or removed, the parts of a
container before the container itself.
-/

namespace DottedPath

/-- The number of parts of all containers. -/
def Store.partCount (s : Store) : Nat :=
  s.cells.foldl (fun n c => n + c.parts.length) 0

/-- A bound on the levels of a replacement. A container can be come by in as many ways as there are
sequences of parts, and each time the rest of the path may add its own levels below it. -/
def Store.replaceDepth (s : Store) (restLength : Nat) : Nat :=
  (s.partCount + 2) ^ (s.size + 2) * (restLength + 1)

namespace Context

variable (ctx : Context)

/-- Replaces below a value, going at most the given number of levels. The parts of a part come
before the part itself; `edit` gives what replaces it, or `none` to remove it. Removals come last,
from the last part to the first. -/
def replaceWithin (r : Recursion) (guard : Option ValueTest)
    (edit : Value → Eval (Option Value)) : Nat → List Handle → Nat → Value → Eval Value
  | 0, _, _, node => pure node
  | n + 1, above, depth, node => do
    if node.handle?.any above.contains then pure node
    else
      let above := node.handle?.toList ++ above
      let (node, doomed) ← (← ctx.children r node).foldlM (fun (node, doomed) child => do
          let (node, v) ←
            if child.step.descends then do
              let v ← replaceWithin r guard edit n above (depth + 1) child.value
              pure (← (setChild node child.step v : StoreM Value), v)
            else pure (node, child.value)
          let hit ← if child.reported then ctx.reports r v depth else pure false
          let hit ← match hit, guard with
            | true, some test => ctx.guardHolds test v
            | hit, _ => pure hit
          if hit then
            match ← edit v with
            | some w => do pure (← (setChild node child.step w : StoreM Value), doomed)
            | none => pure (node, doomed ++ [child.step])
          else pure (node, doomed))
        (node, [])
      doomed.reverse.foldlM (fun node step => (popChild node step : StoreM Value)) node

/-- Replaces all that a descent reports below a value; the rest of the path has a length. -/
def replaceReported (r : Recursion) (guard : Option ValueTest) (restLength : Nat)
    (edit : Value → Eval (Option Value)) (node : Value) : Eval Value := do
  ctx.replaceWithin r guard edit ((← store).replaceDepth restLength) [] 0 node

/-- The first location that a descent reports and a guard lets pass. -/
def firstReported? (r : Recursion) (guard : Option ValueTest) (node : Value) :
    Eval (Option Location) := do
  let found ← ctx.collect { r with first := false } node
  let hit ← match guard with
    | none => pure found.head?
    | some test => found.findM? fun (_, v) => ctx.guardHolds test v
  pure (hit.map Prod.fst)

end Context

end DottedPath

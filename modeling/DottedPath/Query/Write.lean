import DottedPath.Evaluate.Edit
import DottedPath.Query.Read
import DottedPath.Value.Copy

/-!
Writing values by path text. Each write returns the root as it is then: the given one where it could
be edited in place. A root may also be left to the path, or be copied before it is written.
-/

namespace DottedPath

/-- The value that writes start from. -/
inductive Root where
  /-- None yet: the first path chooses it. -/
  | auto
  | value (v : Value)
  /-- A copy of a value, which itself stays as it is. -/
  | detached (v : Value)

mutual

/-- The empty container that a segment is for; none for a segment that takes no step. -/
def Segment.container? : Segment → Option Container
  | .root => none
  | .invert => none
  | .access .slot (.literal l) _ _ =>
    match l with
    | .int _ => some (.list [])
    | _ => some (.dict [])
  | .access .slot _ _ _ => some (.list [])
  | .access .attr _ _ _ => some (.object "namespace" [] false)
  | .access .key _ _ _ => some (.dict [])
  | .append _ => some (.list [])
  | .slice _ => some (.list [])
  | .sliceFilter _ _ => some (.list [])
  | .recursive .. => some (.dict [])
  | .group _ (.mk segs _ :: _) _ => some (pathContainer segs)
  | .group _ [] _ => some (.dict [])
  | .nop inner => inner.container?
  | .guard inner _ => inner.container?
  | .restrict inner _ => inner.container?

/-- The empty container that a path is for. -/
def pathContainer : List Segment → Container
  | [] => .dict []
  | seg :: segs =>
    match seg.container? with
    | some c => c
    | none => pathContainer segs

end

namespace Root

/-- The value that a write of some segments starts from. -/
def resolve (segs : List Segment) : Root → StoreM Value
  | auto => alloc (pathContainer segs)
  | value v => pure v
  | detached v => deepCopy v

/-- The value of a root that nothing is written to. -/
def toValue : Root → StoreM Value
  | auto => alloc (.dict [])
  | value v => pure v
  | detached v => deepCopy v

end Root

/-- Anything but null: the usual condition of a write. -/
def notNull : Value → Bool
  | .null => false
  | _ => true

namespace Context

variable (ctx : Context)

/-- Does one write after the other, each from what the one before returned. -/
def inTurn {α : Type} (write : Root → α → Eval Value) (root : Root) (xs : List α) : Eval Value := do
  let root ← xs.foldlM (fun root x => Root.value <$> write root x) root
  (root.toValue : StoreM Value)

/-- Writes an operand, after the transforms of the path, at every place that the path names. -/
def updatePath (root : Root) (path : String) (val : Operand) : Eval Value := do
  let e ← readPath path
  let val ← match val with
    | .any => pure .any
    | .value v => Operand.value <$> ctx.transform v e.transforms
  let node ← (root.resolve e.segments : StoreM Value)
  ctx.update e.segments node val

/-- Writes values at paths. -/
def updateMulti (root : Root) (pairs : List (String × Value)) : Eval Value :=
  inTurn (fun root (path, v) => ctx.updatePath root path (.value v)) root pairs

/-- Writes a value that passes a condition. -/
def updateIf (root : Root) (path : String) (v : Value) (pred : Store → Value → Bool) :
    Eval Value := do
  if pred (← store) v then ctx.updatePath root path (.value v)
  else
    let e ← readPath path
    (root.resolve e.segments : StoreM Value)

/-- Writes at paths the values that pass a condition. -/
def updateIfMulti (root : Root) (pairs : List (String × Value)) (pred : Store → Value → Bool) :
    Eval Value := do
  let root ← pairs.foldlM (fun root (path, v) => do
    if pred (← store) v then Root.value <$> ctx.updatePath root path (.value v)
    else pure root) root
  (root.toValue : StoreM Value)

/-- Removes what an operand accepts at the places that a path names. -/
def removePath (root : Root) (path : String) (val : Operand) : Eval Value := do
  let e ← readPath path
  let node ← (root.resolve e.segments : StoreM Value)
  ctx.remove e.segments node val

/-- Removes what paths name. -/
def removeMulti (root : Root) (paths : List String) : Eval Value :=
  inTurn (fun root path => ctx.removePath root path .any) root paths

/-- Removes what paths name where it is equal to a value. -/
def removeValues (root : Root) (pairs : List (String × Value)) : Eval Value :=
  inTurn (fun root (path, v) => ctx.removePath root path (.value v)) root pairs

/-- Removes what a path names, if there is a path and it passes a condition. -/
def removeIf (root : Root) (path : Option String) (pred : String → Bool) : Eval Value :=
  match path.filter pred with
  | some path => ctx.removePath root path .any
  | none => (root.toValue : StoreM Value)

/-- Removes what those paths name that pass a condition. -/
def removeIfMulti (root : Root) (paths : List (Option String)) (pred : String → Bool) :
    Eval Value :=
  ctx.removeMulti root ((paths.filterMap id).filter pred)

/-- Reads a path, after writing a value there if it names nothing. -/
def setDefault (root : Root) (path : String) (v : Value) : Eval Value := do
  let e ← readPath path
  let node ← (root.resolve e.segments : StoreM Value)
  if ← ctx.has node path then ctx.get node path
  else
    let node ← ctx.updatePath (.value node) path (.value v)
    ctx.get node path

/-- Writes values at those paths that name nothing. -/
def setDefaultMulti (root : Root) (pairs : List (String × Value)) : Eval Value :=
  inTurn (fun root (path, v) => do
    let e ← readPath path
    let node ← (root.resolve e.segments : StoreM Value)
    if ← ctx.has node path then pure node
    else ctx.updatePath (.value node) path (.value v)) root pairs

/-- The locations on the way to one, from the first step to all of them. -/
def waypoints (l : Location) : List Location :=
  (List.range l.length).map fun i => l.take (i + 1)

/-- Copies into a value what is missing of a location: the part of `built` at the first waypoint
that the value does not have. -/
def graft (built : Value) : List Location → Value → Eval Value
  | [], node => pure node
  | l :: more, node => do
    let segs := Location.path (← store) l
    if !(← ctx.find segs node).isEmpty then graft built more node
    else
      match ← ctx.find segs built with
      | [] => pure node
      | (_, subtree) :: _ => ctx.update segs node (.value subtree)

/-- Adds the structure that a path asks for. What is there already stays. -/
def buildPath (root : Root) (path : String) : Eval Value := do
  let e ← readPath path
  let built ← ctx.buildDefault e.segments
  let node ← (root.resolve e.segments : StoreM Value)
  (← ctx.find e.segments built).foldlM (fun node (l, _) => ctx.graft built (waypoints l) node) node

/-- Adds the structures that paths ask for. -/
def buildMulti (root : Root) (paths : List String) : Eval Value :=
  inTurn ctx.buildPath root paths

/-- Writes back what the transforms of a path make of each value that it names, once for each
place. -/
def applyPath (root : Root) (path : String) : Eval Value := do
  let e ← readPath path
  let node ← (root.resolve e.segments : StoreM Value)
  let (node, _) ← (← ctx.find e.segments node).foldlM (fun (node, seen) (l, v) => do
      let s ← store
      if seen.any (Location.same s · l) then pure (node, seen)
      else
        let v ← ctx.transform v e.transforms
        let node ← ctx.update (Location.path (← store) l) node (.value v)
        pure (node, seen ++ [l]))
    (node, ([] : List Location))
  pure node

/-- Applies paths one after the other. -/
def applyMulti (root : Root) (paths : List String) : Eval Value :=
  inTurn ctx.applyPath root paths

end Context

end DottedPath

import DottedPath.Evaluate.Child
import DottedPath.Evaluate.Items

/-!
What a path has to find so that it can be followed: for a segment the container that it goes into,
for a path a structure in which it leads to nothing.
-/

namespace DottedPath

/-- The container that a segment goes into. A literal key is there already, with nothing as its
value, or with a dict if the access has a filter. -/
def defaultFor : Segment → StoreM Value
  | .root => pure .null
  | .invert => alloc (.dict [])
  | .access accessor key filter _ =>
    match accessor, key with
    | .attr, .literal l => do
      let k ← l.toValue
      alloc (.object "namespace" [((← get).text k, .null)] false)
    | .attr, _ => alloc (.object "namespace" [] false)
    | .slot, .literal (.int _) => alloc (.list [])
    | _, .literal l => do
      let k ← l.toValue
      let leaf ← if filter.isSome then alloc (.dict []) else pure .null
      alloc (.dict [(k, leaf)])
    | _, _ => alloc (.dict [])
  | .append _ => alloc (.list [])
  | .slice _ => alloc (.list [])
  | .sliceFilter _ _ => alloc (.list [])
  | .recursive .. => alloc (.dict [])
  | .group .not _ _ => alloc (.dict [])
  | .group _ (.mk (seg :: _) _ :: _) _ =>
    match seg.unwrapped with
    | .access .slot _ _ _ => alloc (.list [])
    | _ => defaultFor seg
  | .group .. => alloc (.dict [])
  | .nop inner => defaultFor inner
  | .guard inner _ => defaultFor inner
  | .restrict inner _ => defaultFor inner

/-- The structure at the end of a path. A list has room for the index that it is built for. -/
def defaultLeaf (seg : Segment) : StoreM Value :=
  match seg.unwrapped with
  | .access .slot (.literal (.int i)) _ _ =>
    if 0 ≤ i then alloc (.list (List.replicate (i.toNat + 1) .null)) else defaultFor seg
  | _ => defaultFor seg

namespace Context

variable (ctx : Context)

/-- Writes a value at each part that a segment selects. -/
def overwriteItems (seg : Segment) (node v : Value) : Eval Value := do
  (← ctx.items seg node).foldlM (fun node (step, _) => (setChild node step v : StoreM Value)) node

/-- Writes a value at what a segment names. A literal key is created if it is missing, unless a
filter refuses what is there; patterns overwrite only what they select. -/
def upsert : Segment → Value → Value → Eval Value
  | .root, _, v => pure v
  | .invert, node, _ => pure node
  | .nop inner, node, v => upsert inner node v
  | .restrict inner _, node, v => upsert inner node v
  | .guard inner test, node, v => ctx.overwriteItems (.guard inner test) node v
  | .access accessor (.literal l) filter first, node, v => do
    let k ← (l.toValue : StoreM Value)
    let s ← store
    let step := accessor.step s k
    let refused ← if filter.isSome && s.hasChild node step then
        pure (← ctx.items (.access accessor (.literal l) filter first) node).isEmpty
      else pure false
    if refused then pure node else (setChild node step v : StoreM Value)
  | .access accessor key filter first, node, v =>
    ctx.overwriteItems (.access accessor key filter first) node v
  | .append unique, node, v => (appendTo node v unique : StoreM Value)
  | .slice range, node, v => (setChild node (.slice range) v : StoreM Value)
  | .sliceFilter _ _, _, _ => throw .sliceFilterUpdate
  | .group _ (.mk [seg] _ :: _) _, node, v => upsert seg node v
  | .group .., node, _ => pure node
  | .recursive .., node, _ => pure node

/-- A structure in which a path leads to nothing. -/
def buildDefault : List Segment → Eval Value
  | [] => pure .null
  | [seg] => (defaultLeaf seg : StoreM Value)
  | seg :: rest => do
    let built ← (defaultFor seg : StoreM Value)
    let child ← buildDefault rest
    ctx.upsert seg built child

end Context

end DottedPath

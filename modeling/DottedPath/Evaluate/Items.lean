import DottedPath.Evaluate.Filter
import DottedPath.Evaluate.Location

/-!
The parts of a value that one segment selects, each with the step that leads to it. Groups and
recursive segments select nothing here: they are paths of their own.
-/

namespace DottedPath

/-- The first candidate only, if that is asked for. -/
def firstOnly {α : Type} (first : Bool) (xs : List α) : List α :=
  if first then xs.take 1 else xs

/-- The candidates with a key, before any filter: those of a dict by its keys, those of a sequence
by the one index that a literal names. -/
def keyedCandidates (key : KeyPattern) (node : Value) : StoreM (List (Value × Value)) := do
  let s ← get
  if s.isKeyed node then
    match key with
    | .literal l =>
      let k ← l.toValue
      pure (((← get).dictGet? node k).map (k, ·)).toList
    | p => pure ((s.entries node).filter fun (k, _) => s.keyMatches p k)
  else if s.isIndexed node then
    match key with
    | .literal (.int i) => pure ((s.elementAt? node i).map (.int i, ·)).toList
    | _ => pure []
  else pure []

/-- The candidates of a slot access. It tells keys as a key access does, but selects the elements of
a sequence by any pattern. -/
def slotCandidates (key : KeyPattern) (node : Value) : StoreM (List (Value × Value)) := do
  let s ← get
  if s.isIndexed node then
    match key with
    | .literal (.int i) => pure ((s.elementAt? node i).map (.int i, ·)).toList
    | .literal _ => pure []
    | p => pure ((s.numbered node).filter fun (i, _) => s.keyMatches p i)
  else keyedCandidates key node

/-- The attributes with a name. -/
def attrCandidates (key : KeyPattern) (node : Value) : StoreM (List (Value × Value)) := do
  let s ← get
  if s.isAttributed node then
    match key with
    | .literal l =>
      let k ← l.toValue
      let name := (← get).text k
      pure ((s.attrGet? node name).map (.str name, ·)).toList
    | p => pure ((s.entries node).filter fun (k, _) => s.keyMatches p k)
  else pure []

/-- The candidates of an access. -/
def candidates (accessor : Accessor) (key : KeyPattern) (node : Value) :
    StoreM (List (Value × Value)) :=
  match accessor with
  | .key => keyedCandidates key node
  | .slot => slotCandidates key node
  | .attr => attrCandidates key node

/-- The step that an access takes to a key. -/
def Accessor.step (s : Store) : Accessor → Value → Step
  | key, k => .key k
  | slot, k => .slot k
  | attr, k => .attr (s.text k)

namespace Context

variable (ctx : Context)

/-- The items whose value passes a filter. -/
def filterItems {α : Type} (filter : Option Filter) (valueOf : α → Value) (xs : List α) :
    Eval (List α) :=
  xs.filterM fun x => ctx.passes filter (valueOf x)

/-- What a segment selects in a value. -/
def items : Segment → Value → Eval (List (Step × Value))
  | .root, node => pure [(.root, node)]
  | .invert, node => pure [(.invert, node)]
  | .access accessor key filter first, node => do
    let raw ← (candidates accessor key node : StoreM _)
    let kept ← ctx.filterItems filter Prod.snd raw
    let s ← store
    pure ((firstOnly first kept).map fun (k, v) => (accessor.step s k, v))
  | .append _, node => do
    let s ← store
    pure ((s.elementAt? node (-1)).map (.slot (.int (-1)), ·)).toList
  | .slice range, node => do
    if (← store).isIndexed node then
      pure [(.slice range, ← (sliceOf range node : StoreM Value))]
    else pure []
  | .sliceFilter filter first, node => do
    let s ← store
    if s.isListLike node then
      let kept ← ctx.filterItems (some filter) id (s.elements node)
      pure [(.slice .full, ← (withElements node (firstOnly first kept) : StoreM Value))]
    else pure []
  | .recursive .., _ => pure []
  | .group .., _ => pure []
  | .nop inner, node => items inner node
  | .guard inner test, node => do
    let found ← items inner node
    found.filterM fun (_, v) => ctx.guardHolds test v
  | .restrict inner kinds, node => do
    if kinds.admits ((← store).kind node) then items inner node else pure []

end Context

/-- The parts that an access could select, whatever its key and filter. A key access counts the
elements of a sequence only if it names an index. -/
def siblings (s : Store) (accessor : Accessor) (key : KeyPattern) (node : Value) :
    List (Step × Value) :=
  match accessor with
  | .attr =>
    if s.isAttributed node then (s.entries node).map fun (k, v) => (.attr (s.text k), v) else []
  | .key =>
    if s.isKeyed node then (s.entries node).map fun (k, v) => (.key k, v)
    else if s.isIndexed node && !key.isPattern then
      (s.numbered node).map fun (i, v) => (.key i, v)
    else []
  | .slot =>
    if s.isKeyed node then (s.entries node).map fun (k, v) => (.slot k, v)
    else if s.isIndexed node then (s.numbered node).map fun (i, v) => (.slot i, v)
    else []

/-- The parts among which a segment selects. -/
def Segment.universe (s : Store) : Segment → Value → List (Step × Value)
  | .access accessor key _ _, node => siblings s accessor key node
  | .nop inner, node => inner.universe s node
  | .guard inner _, node => inner.universe s node
  | .restrict inner kinds, node =>
    if kinds.admits (s.kind node) then inner.universe s node else []
  | _, _ => []

namespace Context

variable (ctx : Context)

/-- A segment selects nothing in a value, so that a write has to create what it names. -/
def selectsNothing : Segment → Value → Eval Bool
  | .append _, _ => pure true
  | .root, _ => pure false
  | .invert, _ => pure false
  | .sliceFilter _ _, node => do pure (((← store).length? node).getD 0 == 0)
  | .slice range, node => do
    let s ← store
    pure (!s.isIndexed node || (range.positions ((s.length? node).getD 0)).isEmpty)
  | .nop inner, node => selectsNothing inner node
  | .guard inner _, node => selectsNothing inner node
  | .restrict inner _, node => selectsNothing inner node
  | seg, node => do pure (← ctx.items seg node).isEmpty

end Context

end DottedPath

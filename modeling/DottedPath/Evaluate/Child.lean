import DottedPath.Evaluate.Filter
import DottedPath.Evaluate.Location

/-!
Edits of one part of a value. Each returns the value that now stands in its place: the same handle
if the container could be edited, a new container if not. What an edit cannot mean for a value
leaves it as it is.
-/

namespace DottedPath

/-- The element positions of a slice in a value, in the order of the slice. Positions outside the
value are among them. -/
def Store.covered (s : Store) (range : SliceRange) (node : Value) : List Int :=
  range.positions ((s.length? node).getD 0)

/-- Replaces the elements of a sequence, in place if it is a list. -/
def replaceElements (node : Value) (items : List Value) : StoreM Value := do
  match node, (← get).container? node with
  | .ref h, some (.list _) => do
    overwrite h (.list items)
    pure node
  | _, _ => withElements node items

/-- Replaces the attributes of an object, in place unless it is frozen. -/
def replaceAttrs (node : Value) (edit : List (String × Value) → List (String × Value)) :
    StoreM Value := do
  match node, (← get).container? node with
  | .ref h, some (.object name attrs frozen) =>
    if frozen then alloc (.object name (edit attrs) frozen)
    else do
      overwrite h (.object name (edit attrs) frozen)
      pure node
  | _, _ => pure node

/-- Edits the entries of a dict. -/
def editEntries (node : Value) (edit : List (Value × Value) → List (Value × Value)) :
    StoreM Value := do
  match node, (← get).container? node with
  | .ref h, some (.dict entries) => do
    overwrite h (.dict (edit entries))
    pure node
  | _, _ => pure node

/-- Writes an element. An index past the end adds one, an index before the start writes nothing. -/
def setIndexed (node : Value) (index : Int) (v : Value) : StoreM Value := do
  let s ← get
  if s.isIndexed node then
    let elements := s.elements node
    if (elements.length : Int) ≤ index then replaceElements node (elements ++ [v])
    else
      match resolveIndex? elements.length index with
      | some i => replaceElements node (elements.set i v)
      | none => pure node
  else pure node

/-- Writes at a key of a dict, or at the index that the key is. -/
def setKeyed (node key v : Value) : StoreM Value := do
  let s ← get
  if s.isKeyed node then editEntries node fun es => s.insertEntry es key v
  else
    match key with
    | .scalar x =>
      match x.toInt? with
      | some i => setIndexed node i v
      | none => pure node
    | .ref _ => pure node

/-- The elements written through a slice: those of a sequence or text, or the value itself. -/
def Store.replacement (s : Store) (v : Value) : List Value :=
  if s.isListLike v || s.isText v then s.elements v else [v]

/-- Where a slice that covers nothing inserts. -/
def SliceRange.insertionPoint (r : SliceRange) (length : Nat) : Nat :=
  match r.start with
  | none => 0
  | some .length => length
  | some (.index i) => if i < 0 then (length + i).toNat else min i.toNat length

/-- The elements with a run of neighbours replaced. -/
def spliced (elements : List Value) (start stop : Nat) (replacement : List Value) : List Value :=
  elements.take start ++ replacement ++ elements.drop stop

/-- The elements with those at some positions replaced one by one, from the first element on. Where
the replacement ends the element is dropped; what is left of it comes last. -/
def interleaved (covered : List Int) : Nat → List Value → List Value → List Value
  | _, [], replacement => replacement
  | i, x :: xs, replacement =>
    if covered.contains (i : Int) then
      match replacement with
      | [] => interleaved covered (i + 1) xs []
      | r :: rs => r :: interleaved covered (i + 1) xs rs
    else x :: interleaved covered (i + 1) xs replacement

/-- The elements after a write through a slice. Only a list has a run of neighbours replaced as a
whole. -/
def sliceWritten (asList : Bool) (range : SliceRange) (elements replacement : List Value) :
    List Value :=
  let covered := range.positions elements.length
  if asList && range.isContiguous then
    let start := (covered.head?.map Int.toNat).getD (range.insertionPoint elements.length)
    let stop := (covered.getLast?.map fun i => i.toNat + 1).getD start
    spliced elements start stop replacement
  else interleaved covered 0 elements replacement

/-- Writes through a slice. Writing what the slice already holds changes nothing. -/
def setSlice (node : Value) (range : SliceRange) (v : Value) : StoreM Value := do
  let s ← get
  if !s.isIndexed node then pure node
  else
    let current ← sliceOf range node
    let s' ← get
    if s'.equals current v then pure node
    else
      replaceElements node
        (sliceWritten (s.kind node == .list) range (s.elements node) (s.replacement v))

/-- Writes at a step. -/
def setChild (node : Value) (step : Step) (v : Value) : StoreM Value :=
  match step with
  | .root => pure v
  | .invert => pure node
  | .attr name => replaceAttrs node fun as => insertAttr as name v
  | .key k => setKeyed node k v
  | .slot k => setKeyed node k v
  | .slice range => setSlice node range v

/-- Removes the elements at some positions. -/
def removePositions (node : Value) (positions : List Int) : StoreM Value := do
  let s ← get
  if positions.isEmpty || !s.isIndexed node then pure node
  else
    let kept := (s.elements node).zipIdx.filter fun (_, i) => !positions.contains (i : Int)
    replaceElements node (kept.map Prod.fst)

/-- Removes a key of a dict, or the element at the index that the key is. -/
def popKeyed (node key : Value) : StoreM Value := do
  let s ← get
  if s.isKeyed node then editEntries node fun es => s.eraseEntry es key
  else
    match key with
    | .scalar x =>
      match x.toInt?.bind (s.position? node) with
      | some i => removePositions node [(i : Int)]
      | none => pure node
    | .ref _ => pure node

/-- Removes what is at a step. -/
def popChild (node : Value) (step : Step) : StoreM Value :=
  match step with
  | .root => pure .null
  | .invert => pure node
  | .attr name => replaceAttrs node fun as => eraseAttr as name
  | .key k => popKeyed node k
  | .slot k => popKeyed node k
  | .slice range => do removePositions node ((← get).covered range node)

/-- The position that a step names in a value. -/
def Step.position? (s : Store) (node : Value) (step : Step) : Option Nat :=
  step.index?.bind (s.position? node)

/-- Positions in ascending order, after what has none. -/
def positionLE : Option Nat → Option Nat → Bool
  | none, _ => true
  | some _, none => false
  | some i, some j => i ≤ j

/-- Removes what is at several steps, from the last position to the first, so that the positions
still to come stay valid. -/
def popSteps (node : Value) (steps : List Step) : StoreM Value := do
  let s ← get
  let numbered := steps.map fun step => (step.position? s node, step)
  let ordered := numbered.mergeSort fun a b => positionLE a.1 b.1
  ordered.reverse.foldlM (fun node (_, step) => popChild node step) node

/-- Adds an element to a sequence or a member to a set. With `unique` what is there already is not
added. -/
def appendTo (node v : Value) (unique : Bool) : StoreM Value := do
  let s ← get
  if unique && s.contains node v then pure node
  else
    match node, s.container? node with
    | .ref h, some (.set members) => do
      overwrite h (.set (s.insertMember members v))
      pure node
    | _, _ =>
      if s.isIndexed node || s.isSetLike node then replaceElements node (s.elements node ++ [v])
      else pure node

/-- Something is at a step. -/
def Store.hasChild (s : Store) (node : Value) : Step → Bool
  | .key k => ofKey k
  | .slot k => ofKey k
  | .attr name => (s.attrGet? node name).isSome
  | _ => false
where
  /-- Something is at a key or at the index that the key is. -/
  ofKey (k : Value) : Bool :=
    if s.isKeyed node then (s.dictGet? node k).isSome
    else
      match k with
      | .scalar x => (x.toInt?.bind (s.elementAt? node)).isSome
      | .ref _ => false

end DottedPath

import DottedPath.Evaluate.Default
import DottedPath.Evaluate.Replace
import DottedPath.Evaluate.Walk

/-!
Updates and removals along a path. A path is read as an edit: what a write of it does to the value
it starts from. The edit of a segment is built from the edit of the rest, so a group hands the rest
of the path to each of its branches.

A write stores each edited part back into its container, so containers that cannot be edited are
built anew on the way. Missing structure is created for paths that name a place, but not below a
segment that is not to be written.
-/

namespace DottedPath

/-- What a write is given: a value, or any value at all. -/
inductive Operand where
  | any
  | value (v : Value)
deriving Inhabited

namespace Operand

/-- The value that is written; none in particular is null. -/
def written : Operand → Value
  | any => .null
  | value v => v

/-- A removal takes a candidate away. -/
def accepts (s : Store) : Operand → Value → Bool
  | any, _ => true
  | value v, candidate => s.equals v candidate

end Operand

/-- How an update treats what it passes. -/
structure UpdateMode where
  /-- The structure has just been built for the path: it needs no more. -/
  built : Bool
  /-- The segment is not written. -/
  silent : Bool
  /-- The rest of the path is not written. -/
  restSilent : Bool

namespace UpdateMode

/-- The mode of a path as a whole. -/
def ofPath (built silent : Bool) : UpdateMode := ⟨built, silent, silent⟩

end UpdateMode

/-- The writes of a path. -/
structure Edit where
  /-- The segments of the path. -/
  segments : List Segment
  /-- Writes an operand; `built` and `silent` are those of the mode. -/
  update : (built silent : Bool) → Operand → Value → Eval Value
  /-- Removes what an operand accepts. -/
  remove : (silent : Bool) → Operand → Value → Eval Value

/-- The writes of a segment before a rest. -/
structure SegmentEdit where
  update : UpdateMode → Operand → Value → Eval Value
  remove : (silent : Bool) → Operand → Value → Eval Value

namespace Edit

/-- The end of a path: the value itself is written. Removing it is for the container it is in. -/
def done : Edit where
  segments := []
  update _ silent val node := pure (if silent then node else val.written)
  remove _ _ node := pure node

/-- The path ends here. -/
def isEnd (e : Edit) : Bool := e.segments.isEmpty

/-- The next segment of the path is not written. -/
def startsSilent (e : Edit) : Bool :=
  match e.segments with
  | .nop _ :: _ => true
  | _ => false

/-- Puts a segment in front. -/
def cons (seg : Segment) (se : SegmentEdit) (rest : Edit) : Edit where
  segments := seg :: rest.segments
  update built silent val node := se.update (.ofPath built silent) val node
  remove silent val node := se.remove silent val node

end Edit

namespace Branch

/-- Has a part that is not written. -/
def isSilent (b : Branch) : Bool :=
  b.segments.any Segment.hasNop

/-- Begins with an access that has a filter, so that it cannot be created from nothing. -/
def startsFiltered (b : Branch) : Bool :=
  match b.segments.head?.map Segment.unwrapped with
  | some (.access _ _ filter _) => filter.isSome
  | _ => false

end Branch

namespace Context

variable (ctx : Context)

/-! ### Segments that select parts -/

/-- The number of elements that a filter of a sequence selects. -/
def filteredCount (filter : Filter) (node : Value) : Eval Nat := do
  let kept ← ctx.filterItems (some filter) id ((← store).elements node)
  pure kept.length

/-- Updates the parts that a segment selects. If it selects nothing, the structure of the rest is
built and stored at what it names. -/
def updateParts (seg : Segment) (rest : Edit) (mode : UpdateMode) (val : Operand) (node : Value) :
    Eval Value := do
  if !(← store).isEnterable node then pure node
  else if rest.isEnd then
    if mode.silent then pure node else ctx.upsert seg node val.written
  else if !mode.built && (← ctx.selectsNothing seg node) then
    if mode.silent || rest.startsSilent then pure node
    else
      let built ← ctx.buildDefault rest.segments
      let built ← rest.update true mode.restSilent val built
      ctx.upsert seg node built
  else
    (← ctx.items seg node).foldlM (fun node (step, child) => do
      let child ← match child with
        | .null => ctx.buildDefault rest.segments
        | child => pure child
      let child ← rest.update mode.built mode.restSilent val child
      (setChild node step child : StoreM Value))
      node

/-- Removes through the parts of a value. -/
def removeThrough (parts : List (Step × Value)) (rest : Edit) (val : Operand) (node : Value) :
    Eval Value :=
  parts.foldlM (fun node (step, child) => do
    let child ← rest.remove false val child
    (setChild node step child : StoreM Value)) node

/-- Removes those of some parts that an operand accepts. -/
def removeParts (parts : List (Step × Value)) (val : Operand) (node : Value) : Eval Value := do
  let s ← store
  let doomed := parts.filter fun (_, child) => val.accepts s child
  (popSteps node (doomed.map Prod.fst) : StoreM Value)

/-- Removes what a segment at the end of a path selects. A slice goes as a whole; a value asks for a
slice that is equal to it. -/
def removeLeaf (seg : Segment) (val : Operand) (node : Value) : Eval Value := do
  match seg.unwrapped with
  | .append _ => pure node
  | .slice range =>
    match val with
    | .any => (popChild node (.slice range) : StoreM Value)
    | .value v =>
      let selected ← ctx.items seg node
      let s ← store
      if selected.head?.any fun (_, x) => s.equals x v then
        (popChild node (.slice range) : StoreM Value)
      else pure node
  | _ => removeParts (← ctx.items seg node) val node

/-- The numbered elements that pass a filter; with `first` only the first of them. -/
def filteredElements (filter : Filter) (first : Bool) : List (Value × Nat) →
    Eval (List (Value × Nat))
  | [] => pure []
  | x :: xs => do
    if ← ctx.filterHolds filter x.1 then
      if first then pure [x] else do pure (x :: (← filteredElements filter first xs))
    else filteredElements filter first xs

/-- Removes the elements of a sequence that pass a filter. A value asks that what remains is equal
to it. -/
def removeFiltered (filter : Filter) (first : Bool) (val : Operand) (node : Value) :
    Eval Value := do
  let s ← store
  if !s.isListLike node then pure node
  else
    let numbered := (s.elements node).zipIdx
    let doomed ← ctx.filteredElements filter first numbered
    let positions := doomed.map fun (_, i) => (i : Int)
    let wanted ← match val with
      | .any => pure true
      | .value expected => do
        let kept := numbered.filter fun (_, i) => !positions.contains (i : Int)
        let remains ← (withElements node (kept.map Prod.fst) : StoreM Value)
        pure ((← store).equals remains expected)
    if wanted then (removePositions node positions : StoreM Value) else pure node

/-- The edit of a segment without wrappers that selects parts, before a rest. -/
def partsEdit (seg : Segment) (rest : Edit) : SegmentEdit where
  update mode val node := ctx.updateParts seg rest mode val node
  remove silent val node := do
    if !rest.isEnd then removeThrough (← ctx.items seg node) rest val node
    else if silent then pure node
    else ctx.removeLeaf seg val node

/-- The edit of a segment that is neither wrapped nor a path of its own. -/
def plainEdit (seg : Segment) (rest : Edit) : SegmentEdit :=
  match seg with
  | .root => {
      update := fun mode val node =>
        if rest.isEnd then pure (if mode.silent then node else val.written)
        else rest.update mode.built mode.restSilent val node
      remove := fun silent val node => do
        if !rest.isEnd then rest.remove silent val node
        else pure (if !silent && val.accepts (← store) node then .null else node) }
  | .invert => {
      update := fun mode val node => rest.remove mode.restSilent val node
      remove := fun _ val node =>
        match val with
        | .any => throw .removalWithoutValue
        | val => rest.update false false val node }
  | .sliceFilter filter first => {
      update := fun mode val node => do
        if rest.isEnd then ctx.updateParts seg rest mode val node
        else if (!mode.built && (← ctx.selectsNothing seg node)) then throw .sliceFilterUpdate
        else if 0 < (← ctx.filteredCount filter node) then throw .sliceFilterUpdate
        else pure node
      remove := fun silent val node => do
        if rest.isEnd then
          if silent then pure node else ctx.removeFiltered filter first val node
        else if 0 < (← ctx.filteredCount filter node) then throw .sliceFilterUpdate
        else pure node }
  | seg => ctx.partsEdit seg rest

/-- The edit of a path of plain segments before a rest. -/
def plainPathEdit (segs : List Segment) (rest : Edit) : Edit :=
  segs.foldr (fun seg rest => rest.cons seg (ctx.plainEdit seg rest)) rest

/-- The edit of what a location leads to. -/
def locationEdit (l : Location) (rest : Edit) : Eval Edit := do
  pure (ctx.plainPathEdit (l.path (← store)) rest)

/-- As `locationEdit`, where whole slices are passed over: their elements are reached through the
sequence itself. -/
def elementEdit (l : Location) (rest : Edit) : Eval Edit :=
  ctx.locationEdit (l.filter fun step => !step.isFullSlice) rest

/-! ### Recursive segments -/

/-- The edit of a descent, whose reported parts may have to pass a guard. -/
def recursiveEdit (r : Recursion) (guard : Option ValueTest) (rest : Edit) : SegmentEdit where
  update mode val node := do
    if r.first then
      match ← ctx.firstReported? r guard node with
      | none => pure node
      | some l => (← ctx.locationEdit l rest).update mode.built mode.silent val node
    else
      ctx.replaceReported r guard rest.segments.length (fun v =>
        if !rest.isEnd then some <$> rest.update mode.built mode.silent val v
        else pure (some (if mode.silent then v else val.written))) node
  remove silent val node := do
    if r.first then
      match ← ctx.firstReported? r guard node with
      | none => pure node
      | some l => (← ctx.locationEdit l rest).remove silent val node
    else
      ctx.replaceReported r guard rest.segments.length (fun v => do
        if !rest.isEnd then some <$> rest.remove false val v
        else pure (if !silent && val.accepts (← store) v then none else some v)) node

/-! ### Groups -/

/-- The locations that a path names. -/
def locations (segs : List Segment) (node : Value) : Eval (List Location) := do
  pure ((← ctx.find segs node).map Prod.fst)

/-- The locations that a path names outside of some others. -/
def locationsOutside (hidden : List Location) (segs : List Segment) (node : Value) :
    Eval (List Location) := do
  let found ← ctx.locations segs node
  let s ← store
  pure (found.filter fun l => !hidden.any fun h => h.overlaps s l)

/-- Where no branch matches, the last one that names a place is created. -/
def updateFallback (branches : List (Branch × Edit)) (mode : UpdateMode) (val : Operand)
    (node : Value) : Eval Value :=
  match branches.reverse.find? fun (b, _) => b.isConcrete with
  | some (_, e) => e.update mode.built mode.silent val node
  | none => pure node

/-- Updates the first branch that matches; `none` if none does. -/
def updateFirst (mode : UpdateMode) (val : Operand) :
    List (Branch × Edit) → Value → Eval (Option Value)
  | [], _ => pure none
  | (_, e) :: bs, node => do
    if (← ctx.locations e.segments node).isEmpty then updateFirst mode val bs node
    else some <$> e.update mode.built mode.silent val node

/-- Updates the branches that match, outside of what soft cuts hide; also tells if one does. -/
def updateMatching (mode : UpdateMode) (val : Operand) :
    List (Branch × Edit) → List Location → Value → Eval (Value × Bool)
  | [], _, node => pure (node, false)
  | (b, e) :: bs, hidden, node => do
    let found ← ctx.locationsOutside hidden e.segments node
    if found.isEmpty then updateMatching mode val bs hidden node
    else
      let node ←
        if hidden.isEmpty then e.update mode.built mode.silent val node
        else found.foldlM (fun node l => do
          (← ctx.elementEdit l .done).update mode.built (mode.silent || b.isSilent) val node) node
      if b.cut == .hard then pure (node, true)
      else
        let hidden := if b.cut == .soft then hidden ++ found else hidden
        let (node, _) ← updateMatching mode val bs hidden node
        pure (node, true)

/-- Updates every branch, provided that each of them matches or can be created. -/
def updateAll (branches : List (Branch × Edit)) (mode : UpdateMode) (val : Operand)
    (node : Value) : Eval Value := do
  let blocked ← branches.anyM fun (b, e) => do
    if b.isConcrete && !b.startsFiltered then pure false
    else pure (← ctx.locations e.segments node).isEmpty
  if blocked then pure node
  else branches.foldlM (fun node (_, e) => e.update mode.built mode.silent val node) node

/-- Updates some parts of a value. -/
def updateEach (parts : List (Step × Value)) (rest : Edit) (mode : UpdateMode) (val : Operand)
    (node : Value) : Eval Value :=
  if rest.isEnd && mode.silent then pure node
  else
    parts.foldlM (fun node (step, child) => do
      let child ← if rest.isEnd then pure val.written
        else rest.update mode.built mode.silent val child
      (setChild node step child : StoreM Value)) node

/-- Removes along the first branch that matches. -/
def removeFirst (silent : Bool) (val : Operand) : List (Branch × Edit) → Value → Eval Value
  | [], node => pure node
  | (_, e) :: bs, node => do
    if (← ctx.locations e.segments node).isEmpty then removeFirst silent val bs node
    else e.remove silent val node

/-- Removes along the branches that match, outside of what soft cuts hide. -/
def removeMatching (silent : Bool) (val : Operand) :
    List (Branch × Edit) → List Location → Value → Eval Value
  | [], _, node => pure node
  | (b, e) :: bs, hidden, node => do
    let found ← ctx.locationsOutside hidden e.segments node
    if found.isEmpty then removeMatching silent val bs hidden node
    else
      let node ←
        if hidden.isEmpty then e.remove silent val node
        else found.reverse.foldlM (fun node l => do
          (← ctx.elementEdit l .done).remove (silent || b.isSilent) val node) node
      if b.cut == .hard then pure node
      else
        let hidden := if b.cut == .soft then hidden ++ found else hidden
        removeMatching silent val bs hidden node

/-- Removes along every branch, provided that each of them matches. -/
def removeAll (branches : List (Branch × Edit)) (silent : Bool) (val : Operand) (node : Value) :
    Eval Value := do
  let blocked ← branches.anyM fun (_, e) => do
    pure (← ctx.locations e.segments node).isEmpty
  if blocked then pure node
  else branches.foldlM (fun node (_, e) => e.remove silent val node) node

/-- The edit of a disjunction. -/
def disjunctionEdit (branches : List (Branch × Edit)) (first : Bool) : SegmentEdit where
  update mode val node := do
    if first then
      match ← ctx.updateFirst mode val branches node with
      | some node => pure node
      | none => updateFallback branches mode val node
    else
      let (node, hit) ← ctx.updateMatching mode val branches [] node
      if hit then pure node else updateFallback branches mode val node
  remove silent val node :=
    if first then ctx.removeFirst silent val branches node
    else ctx.removeMatching silent val branches [] node

/-- The edit of a conjunction. -/
def conjunctionEdit (branches : List (Branch × Edit)) : SegmentEdit where
  update mode val node := ctx.updateAll branches mode val node
  remove silent val node := ctx.removeAll branches silent val node

/-- The edit of a complement before a rest. -/
def complementEdit (branches : List Branch) (rest : Edit) : SegmentEdit where
  update mode val node := do
    updateEach (← ctx.complement branches node) rest mode val node
  remove silent val node := do
    let parts ← ctx.complement branches node
    if !rest.isEnd then removeThrough parts rest val node
    else if silent then pure node
    else removeParts parts val node

/-- The edit of a wrapped group or descent: that of each place which it names, removals from the
last place to the first. -/
def placewiseEdit (seg : Segment) (rest : Edit) : SegmentEdit where
  update mode val node := do
    (← ctx.locations [seg] node).foldlM (fun node l => do
      (← ctx.elementEdit l rest).update mode.built mode.silent val node) node
  remove silent val node := do
    (← ctx.locations [seg] node).reverse.foldlM (fun node l => do
      (← ctx.elementEdit l rest).remove silent val node) node

/-! ### Paths -/

/-- An edit that leaves alone what is not of the right kind. -/
def restrictedEdit (kinds : KindRestriction) (e : SegmentEdit) : SegmentEdit where
  update mode val node := do
    if kinds.admits ((← store).kind node) then e.update mode val node else pure node
  remove silent val node := do
    if kinds.admits ((← store).kind node) then e.remove silent val node else pure node

mutual

/-- The edit of a segment before a rest. -/
def segmentEdit : Segment → Edit → SegmentEdit
  | .nop inner, rest =>
    let e := segmentEdit inner rest
    { update := fun mode val node => e.update ⟨mode.built, true, false⟩ val node
      remove := fun _ val node => e.remove true val node }
  | .group .or [.mk [.group kind branches first] .none] false, rest =>
    segmentEdit (.group kind branches first) rest
  | .group kind branches first, rest =>
    match kind with
    | .or => ctx.disjunctionEdit (branchEdits branches rest) first
    | .and => ctx.conjunctionEdit (branchEdits branches rest)
    | .not => ctx.complementEdit branches rest
  | .recursive key branches depth filter first, rest =>
    ctx.recursiveEdit ⟨key, branches, depth, filter, first⟩ none rest
  | .restrict inner kinds, rest =>
    restrictedEdit kinds
      (if inner.isCompound then ctx.placewiseEdit (.restrict inner kinds) rest
      else ctx.partsEdit (.restrict inner kinds) rest)
  | .guard inner test, rest =>
    match inner.recursion? with
    | some r => ctx.recursiveEdit r (some test) rest
    | none =>
      if inner.isCompound then ctx.placewiseEdit (.guard inner test) rest
      else ctx.partsEdit (.guard inner test) rest
  | seg, rest => ctx.plainEdit seg rest

/-- The edit of a path before a rest. -/
def pathEdit : List Segment → Edit → Edit
  | [], rest => rest
  | seg :: segs, rest =>
    let rest := pathEdit segs rest
    rest.cons seg (segmentEdit seg rest)

/-- The edits of the branches of a group, each with the rest of the path. -/
def branchEdits : List Branch → Edit → List (Branch × Edit)
  | [], _ => []
  | .mk segs cut :: bs, rest => (.mk segs cut, pathEdit segs rest) :: branchEdits bs rest

end

/-- Writes an operand at every place that segments name in a value. -/
def update (segs : List Segment) (node : Value) (val : Operand) : Eval Value :=
  (ctx.pathEdit segs .done).update false false val node

/-- Removes what segments name in a value, as far as an operand accepts it. -/
def remove (segs : List Segment) (node : Value) (val : Operand) : Eval Value :=
  (ctx.pathEdit segs .done).remove false val node

end Context

end DottedPath

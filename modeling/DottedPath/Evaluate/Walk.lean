import DottedPath.Evaluate.Recursion

/-!
Reading along a path: from a value to the places that the path names, each with its location. A
segment is read as what it does with the places it selects and with the rest of the path, which is
itself something to do at a place; so the branches of a group carry the rest of the path with them.

A hard cut that fires ends the reading up to the nearest alternative around it.
-/

namespace DottedPath

/-- What reading finds, and whether a hard cut ended it. -/
structure Visit where
  found : List Found
  halted : Bool

/-- Something to do at a place, given by its location and value. -/
abbrev Walk := Location → Value → Eval Visit

namespace Visit

/-- Nothing is found. -/
def nothing : Visit := ⟨[], false⟩

end Visit

namespace Walk

/-- The end of a path: the place itself is found. -/
def done : Walk := fun base node => pure ⟨[(base, node)], false⟩

/-- Goes to places given relative to a location, until a hard cut fires. -/
def each (next : Walk) (base : Location) : List Found → Eval Visit
  | [] => pure .nothing
  | (l, v) :: rest => do
    let visit ← next (base ++ l) v
    if visit.halted then pure visit
    else
      let more ← each next base rest
      pure ⟨visit.found ++ more.found, more.halted⟩

/-- As `each`, for places that also have to pass a test. -/
def eachPassing (pass : Value → Eval Bool) (next : Walk) (base : Location) :
    List Found → Eval Visit
  | [] => pure .nothing
  | (l, v) :: rest => do
    let visit ← if ← pass v then next (base ++ l) v else pure .nothing
    if visit.halted then pure visit
    else
      let more ← eachPassing pass next base rest
      pure ⟨visit.found ++ more.found, more.halted⟩

/-- Alternatives. What a soft cut has found hides what overlaps it in later branches, and a hard cut
ends the group. With `first` only the first place of the first branch that finds one is kept. -/
def alternatives (first : Bool) :
    List (Cut × Walk) → List Location → Location → Value → Eval Visit
  | [], _, _, _ => pure .nothing
  | (cut, walk) :: rest, hidden, base, node => do
    let visit ← walk base node
    let s ← store
    let found := visit.found.filter fun (l, _) => !hidden.any fun h => h.overlaps s l
    if found.isEmpty then alternatives first rest hidden base node
    else if first then pure ⟨found.take 1, false⟩
    else if cut == .hard then pure ⟨found, true⟩
    else
      let hidden := if cut == .soft then hidden ++ found.map Prod.fst else hidden
      let more ← alternatives first rest hidden base node
      pure ⟨found ++ more.found, more.halted⟩

/-- Terms that must all find something; `none` if one does not. After a hard cut the terms still
have to, but what they find is not kept. -/
def conjunction : List (Cut × Walk) → Location → Value → Eval (Option Visit)
  | [], _, _ => pure (some .nothing)
  | (_, walk) :: rest, base, node => do
    let visit ← walk base node
    if visit.found.isEmpty then pure none
    else
      let more ← conjunction rest base node
      pure (more.map fun more =>
        if visit.halted then visit else ⟨visit.found ++ more.found, more.halted⟩)

end Walk

mutual

/-- The segments that a segment begins with: those that the branches of a group begin with, or the
segment itself. -/
def Segment.leaders : Segment → List Segment
  | .group _ branches _ => Branch.leaders branches
  | seg => [seg]

def Branch.leaders : List Branch → List Segment
  | [] => []
  | .mk [] _ :: bs => Branch.leaders bs
  | .mk (seg :: _) _ :: bs => seg.leaders ++ Branch.leaders bs

end

/-- Is a path of its own rather than a choice of parts. -/
def Segment.isCompound (seg : Segment) : Bool :=
  match seg.unwrapped with
  | .group .. => true
  | .recursive .. => true
  | _ => false

namespace Context

variable (ctx : Context)

/-- The parts of a value that a complement selects: the parts among which its first segment selects,
without those that one of its segments does. -/
def complement (branches : List Branch) (node : Value) : Eval (List (Step × Value)) := do
  match Branch.leaders branches with
  | [] => pure []
  | leaf :: more => do
    let excluded ← (leaf :: more).mapM fun seg => ctx.items seg node
    let s ← store
    pure ((leaf.universe s node).filter fun (step, _) =>
      !excluded.flatten.any fun (e, _) => e.sameChild s step)

/-- Parts as places. -/
def placesOf (parts : List (Step × Value)) : List Found :=
  parts.map fun (step, v) => ([step], v)

mutual

/-- Reads a segment, then the rest. -/
def walkSegment : Segment → Walk → Walk
  | .group kind branches first, next => fun base node => do
    match kind with
    | .or => Walk.alternatives first (walkBranches branches next) [] base node
    | .and => do
      let visit ← Walk.conjunction (walkBranches branches next) base node
      pure ((visit.map fun v => ⟨firstOnly first v.found, v.halted⟩).getD .nothing)
    | .not => do
      let visit ← next.each base (placesOf (← ctx.complement branches node))
      pure ⟨firstOnly first visit.found, visit.halted⟩
  | .recursive key branches depth filter first, next => fun base node => do
    next.each base (← ctx.collect ⟨key, branches, depth, filter, first⟩ node)
  | .nop inner, next => walkSegment inner next
  | .restrict inner kinds, next => fun base node => do
    if kinds.admits ((← store).kind node) then walkSegment inner next base node else pure .nothing
  | .guard inner test, next => fun base node => do
    if inner.isCompound then
      let reached ← walkSegment inner Walk.done [] node
      let visit ← next.eachPassing (ctx.guardHolds test) base reached.found
      pure ⟨visit.found, visit.halted || reached.halted⟩
    else
      next.each base (placesOf (← ctx.items (.guard inner test) node))
  | seg, next => fun base node => do
    next.each base (placesOf (← ctx.items seg node))

/-- Reads segments one after the other, then the rest. -/
def walkPath : List Segment → Walk → Walk
  | [], next => next
  | seg :: segs, next => walkSegment seg (walkPath segs next)

/-- The branches of a group, each with the rest of the path. -/
def walkBranches : List Branch → Walk → List (Cut × Walk)
  | [], _ => []
  | .mk segs cut :: bs, next => (cut, walkPath segs next) :: walkBranches bs next

end

/-- The places that segments name in a value, in order. -/
def find (segs : List Segment) (node : Value) : Eval (List Found) := do
  pure (← ctx.walkPath segs Walk.done [] node).found

end Context

end DottedPath

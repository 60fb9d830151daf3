import DottedPath.Query.Read

/-!
Path texts among themselves: joining keys into a path, paths of which one leads to the other, and
matching the segments of one path against those of another.
-/

namespace DottedPath

/-- The segments that a key stands for in a joined path: a text is read as a path, unless it looks
like a number or is no path. -/
def Store.keySegments (s : Store) (key : Value) : List Segment :=
  let whole := [Step.segment s (.key key)]
  match key with
  | .str text =>
    if Number.isToken text.toList then whole
    else
      match PathExpression.parse text with
      | .ok e => e.segments.filter fun seg => !seg.isRoot
      | .error _ => whole
  | _ => whole

/-- Joins keys into a path. -/
def Store.assemble (s : Store) (keys : List Value) : String :=
  pathText (keys.flatMap s.keySegments)

/-- One path begins with the segments of the other. -/
def overlaps (a b : String) : Eval Bool := do
  let a ← readPath a
  let b ← readPath b
  pure ((a.segments.zip b.segments).all fun (x, y) => x == y)

/-- A key literal, if the segment is an access with one. -/
def Segment.keyLiteral? (seg : Segment) : Option Literal :=
  match seg.unwrapped with
  | .access .key (.literal l) _ _ => some l
  | .access .slot (.literal l) _ _ => some l
  | _ => none

namespace Store

variable (s : Store)

/-- A literal is selected by a key pattern. -/
def literalMatches (p : KeyPattern) (l : Literal) : Bool :=
  let (k, s) := l.toValue s
  s.keyMatches p k

mutual

/-- A segment of a pattern matches one of a key. Wrappers do not count; a group asks its branches of
one segment. -/
def segmentMatches : Segment → Segment → Bool
  | .nop p, k => segmentMatches p k
  | .guard p _, k => segmentMatches p k
  | .restrict p _, k => segmentMatches p k
  | .group kind branches _, k =>
    match kind with
    | .or => (branchesMatch branches k).any id
    | .and => (branchesMatch branches k).all id
    | .not => !(branchesMatch branches k).any id
  | p, k =>
    match p, k.unwrapped with
    | .access a key none _, .access b (.literal l) _ _ => a == b && literalMatches s key l
    | p, k => p == k

/-- Whether each branch matches a segment. -/
def branchesMatch : List Branch → Segment → List Bool
  | [], _ => []
  | .mk [p] _ :: bs, k => segmentMatches p k :: branchesMatch bs k
  | _ :: bs, k => false :: branchesMatch bs k

end

/-- One level of a descent matches a segment of a key. Filters match nothing; a window that counts
from the leaves lets everything pass. -/
def levelMatches (r : Recursion) (key : Segment) (depth : Nat) : Bool :=
  r.filter.isNone && (r.depth.hasNegative || r.depth.contains depth 0) &&
    if r.branches.isEmpty then key.keyLiteral?.any (s.literalMatches r.key)
    else (s.branchesMatch r.branches key).any id

/-- The number of segments from the front that match the levels of a descent. -/
def matchingLevels (r : Recursion) : Nat → List Segment → Nat
  | _, [] => 0
  | depth, k :: ks =>
    if s.levelMatches r k depth then matchingLevels r (depth + 1) ks + 1 else 0

/-- Cuts the segments of a key into runs, one for each segment of a pattern: a descent takes one
or more, and the shorter first, all else takes one. With `partly` the last run takes all that is
left. -/
def matchRuns (partly : Bool) : List Segment → List Segment → Option (List (List Segment))
  | [], [] => some []
  | [], _ :: _ => none
  | p :: ps, keys =>
    let most := match p.recursion? with
      | some r => s.matchingLevels r 0 keys
      | none => if keys.head?.any (s.segmentMatches p) then 1 else 0
    (List.range most).findSome? fun i =>
      let run := keys.take (i + 1)
      let rest := keys.drop (i + 1)
      if ps.isEmpty then if rest.isEmpty || partly then some [run ++ rest] else none
      else (matchRuns partly ps rest).map (run :: ·)

end Store

/-- A key that matches a pattern, and the text of each of its runs. -/
structure PathMatch where
  key : String
  groups : List String
deriving DecidableEq, Repr

/-- Matches a key against a pattern, segment by segment. -/
def matchPath? (pattern key : String) (partly : Bool) : Eval (Option PathMatch) := do
  let p ← readPath pattern
  let k ← readPath key
  let s ← store
  pure ((s.matchRuns partly p.segments k.segments).map fun runs => ⟨key, runs.map pathText⟩)

/-- The matches of a pattern among keys. -/
def matchMulti (pattern : String) (keys : List String) (partly : Bool) : Eval (List PathMatch) := do
  let found ← keys.mapM fun key => matchPath? pattern key partly
  pure (found.filterMap id)

end DottedPath

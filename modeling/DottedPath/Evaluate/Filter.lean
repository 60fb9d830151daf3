import DottedPath.Matching.ValuePattern
import DottedPath.Transform.Registry

/-!
Conditions on candidates: filters compare the values of fields, guards the value itself. A filter
with `!=` holds where the same filter with `=` does not, so it holds also for what has no such
field.
-/

namespace DottedPath

/-- The elements of a sequence at the positions of a slice, as a sequence of its kind, where sums of
positions are reduced: not at all with `id`. -/
def sliceOfBy (reduce : Int → Int) (range : SliceRange) (v : Value) : StoreM Value := do
  let elements := (← get).elements v
  let picked := (range.positionsBy reduce elements.length).filterMap fun i =>
    if 0 ≤ i then elements[i.toNat]? else none
  withElements v picked

/-- The elements of a sequence at the positions of a slice, which are stepped in sixty-four bits. -/
def sliceOf (range : SliceRange) (v : Value) : StoreM Value :=
  sliceOfBy Word.wrap range v

namespace Store

/-- The element that a literal names in a sequence. -/
def literalElement? (s : Store) (v : Value) (l : Literal) : Option Value :=
  match l with
  | .int i => s.elementAt? v i
  | _ => none

/-- The value of a key that is given by a literal. -/
def literalEntry? (s : Store) (v : Value) (l : Literal) : Option Value :=
  let (k, s) := l.toValue s
  s.dictGet? v k

/-- The values of the entries that a key pattern selects in a dict. -/
def selectedValues (s : Store) (p : KeyPattern) (v : Value) : List Value :=
  match p with
  | .literal l => (s.literalEntry? v l).toList
  | p => ((s.entries v).filter fun (k, _) => s.keyMatches p k).map Prod.snd

/-- The elements of a sequence with their positions as keys. -/
def numbered (s : Store) (v : Value) : List (Value × Value) :=
  (s.elements v).zipIdx.map fun (x, i) => (.int i, x)

/-- The elements that a key pattern selects in a sequence by their positions. -/
def selectedElements (s : Store) (p : KeyPattern) (v : Value) : List Value :=
  match p with
  | .literal l => (s.literalElement? v l).toList
  | p => ((s.numbered v).filter fun (i, _) => s.keyMatches p i).map Prod.snd

end Store

/-- The values at the path of a comparison. A key at the end has all its matches, one before it only
the first; slots follow all of theirs. Other segments read nothing. -/
def fieldValues : List Segment → Value → StoreM (List Value)
  | [], v => pure [v]
  | .access .slot p _ _ :: rest, v => do
    let s ← get
    let items :=
      if s.isKeyed v then s.selectedValues p v
      else if s.isIndexed v then s.selectedElements p v
      else []
    let values ← items.mapM (fieldValues rest)
    pure values.flatten
  | .slice range :: rest, v => do
    if (← get).isIndexed v then fieldValues rest (← sliceOf range v) else pure []
  | .access .key p _ _ :: rest, v => do
    let s ← get
    let found := if s.isKeyed v then s.selectedValues p v else []
    if rest.isEmpty then pure found
    else
      match found with
      | [] => pure []
      | x :: _ => fieldValues rest x
  | _ :: _, _ => pure []

namespace Context

variable (ctx : Context)

/-- A value passes a test once it is transformed. -/
def testHolds (test : ValueTest) (v : Value) : Eval Bool := do
  let v ← ctx.transform v test.transforms
  let s ← store
  pure (s.compares test.comparison test.pattern v)

/-- A value passes a guard. -/
def guardHolds (test : ValueTest) (v : Value) : Eval Bool := do
  let hit ← ctx.testHolds test v
  pure (hit != (test.comparison == .ne))

/-- One of some values passes a test. -/
def anyHolds (test : ValueTest) : List Value → Eval Bool
  | [] => pure false
  | v :: vs => do if ← ctx.testHolds test v then pure true else anyHolds test vs

mutual

/-- A candidate passes a filter. Only dicts have fields. -/
def filterHolds : Filter → Value → Eval Bool
  | .compare key test, v => do
    let s ← store
    let values ← if s.isKeyed v then (fieldValues key v : StoreM (List Value)) else pure []
    let hit ← ctx.anyHolds test values
    pure (hit != (test.comparison == .ne))
  | .and items, v => allHold items v
  | .or items, v => someHolds items v
  | .not inner, v => do pure (!(← filterHolds inner v))

/-- A candidate passes every filter. -/
def allHold : List Filter → Value → Eval Bool
  | [], _ => pure true
  | f :: fs, v => do if ← filterHolds f v then allHold fs v else pure false

/-- A candidate passes one of the filters. -/
def someHolds : List Filter → Value → Eval Bool
  | [], _ => pure false
  | f :: fs, v => do if ← filterHolds f v then pure true else someHolds fs v

end

/-- A candidate passes a filter, if there is one. -/
def passes (filter : Option Filter) (v : Value) : Eval Bool :=
  match filter with
  | none => pure true
  | some f => ctx.filterHolds f v

end Context

end DottedPath

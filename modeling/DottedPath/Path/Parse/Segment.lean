import DottedPath.Path.Parse.Transform
import DottedPath.Path.Parse.ValuePattern

/-!
Reading segments, groups and filters. They nest in each other; a reader that needs what is nested is
given it as part of a grammar, and the grammars of each nesting depth are built from the one below.
Every construct that holds another one has taken at least one character before the other begins, so
the number of characters bounds the depth.

Where two readings are possible the narrower one is tried first: a bracket as a filter before a
slot, an ampersand as a filter before a conjunction, a bar as part of a guard before the chain at
the end of the path.
-/

namespace DottedPath

namespace Parse

/-- Where a sequence of segments stands, which says where it ends. -/
inductive Place where
  | top
  | branch
  | filterKey
deriving DecidableEq

/-- What is nested in segments: filters, the branches of groups, and paths in branches. -/
structure Grammar where
  filter : Parse Filter
  branches : Accessor → Parse (List Branch)
  path : Place → Accessor → Parse (List Segment)

/-- The segments end here. -/
def endsAt (place : Place) (cs : List Char) : Bool :=
  match cs with
  | [] => true
  | '|' :: _ => true
  | c :: rest =>
    match place with
    | .top => false
    | .branch => ",)#&]".toList.contains c || Text.isBlank c
    | .filterKey => "=<>,)]&?".toList.contains c || (c == '!' && rest.head? == some '=')

/-- A segment that is matched but not written. -/
def asNop : Segment → Segment
  | .nop inner => .nop inner
  | s => .nop s

/-- Marks a segment if it was marked. -/
def nopIf (marked : Bool) (s : Segment) : Segment :=
  if marked then asNop s else s

/-- The name of a kind. -/
def kindName : Parse Kind := do
  let start ← get
  let name ← takeWhile fun c => c.isAlphanum || c == '_'
  match Kind.ofName? (String.ofList name) with
  | some k => pure k
  | none => failAt ("unknown type '" ++ String.ofList name ++ "'") start.length

/-- A kind restriction comes next. -/
def restrictionAhead : Parse Bool := do
  match ← get with
  | ':' :: c :: _ => pure (c.isAlpha || c == '!' || c == '(')
  | _ => pure false

/-- A kind restriction, its colon read. -/
def kindRestriction : Parse KindRestriction := do
  let negated ← eat '!'
  if ← eat '(' then
    let kinds ← separated ',' kindName
    expect ')'
    pure ⟨kinds, negated⟩
  else pure ⟨[← kindName], negated⟩

/-- A guard, if one comes next. A chain of transforms belongs to it only if a comparison follows. -/
def guardTest : Parse (Option ValueTest) := do
  let start ← get
  let chain ← if (← peek) == some '|' then attempt (transforms .guard) else pure (some [])
  match chain with
  | none => pure none
  | some chain =>
    match ← comparison with
    | none =>
      set start
      pure none
    | some op => do pure (some ⟨chain, op, ← comparedPattern op⟩)

/-- The restriction and the guard after a segment. -/
def suffixes (place : Place) (s : Segment) : Parse Segment := do
  if place == .filterKey then pure s
  else
    let s ← if ← restrictionAhead then do
        skip 1
        pure (Segment.restrict s (← kindRestriction))
      else pure s
    match ← guardTest with
    | some test => pure (.guard s test)
    | none => pure s

/-- A depth window, its first colon read. -/
def depthRange : Parse DepthRange := do
  let start ← optionalInt
  let next : Parse (Option Int) := do
    if (← peek) == some ':' && !(← restrictionAhead) then
      skip 1
      optionalInt
    else pure none
  if (← peek) == some ':' && !(← restrictionAhead) then
    skip 1
    let stop ← optionalInt
    let step ← next
    pure ⟨start, stop, step⟩
  else pure ⟨start, none, none⟩

/-- A slice bound. -/
def bound : Parse (Option Bound) := do
  if ← eat '+' then pure (some .length)
  else pure ((← optionalInt).map .index)

/-- A slice, its bracket read; `none` if no colon follows the first bound. -/
def sliceRange : Parse (Option SliceRange) := do
  let before ← get
  let start ← bound
  if ← eat ':' then
    let stop ← bound
    let step ← if ← eat ':' then optionalInt else pure none
    skipBlanks
    if ← eat ']' then pure (some ⟨start, stop, step⟩)
    else fail "invalid slice"
  else
    set before
    pure none

/-- The cut mark after a branch. -/
def cutMark : Parse Cut := do
  skipBlanks
  if ← eatText "##" then pure .soft
  else if (← peek) == some '#' && !(← quoteAt 1) then
    skip 1
    pure .hard
  else pure .none

/-- Marks before an attribute: whether one of them is `~`, and whether the last one is `@`. -/
def attrMarksFrom (marked afterAt : Bool) : List Char → (Bool × Bool) × List Char
  | '~' :: cs => attrMarksFrom true false cs
  | '@' :: cs => attrMarksFrom marked true cs
  | cs => ((marked, afterAt), cs)

/-- Exclamation marks with blanks around them, and their number. -/
def negationsFrom (count : Nat) : List Char → Nat × List Char
  | [] => (count, [])
  | c :: cs =>
    if Text.isBlank c then negationsFrom count cs
    else if c == '!' then negationsFrom (count + 1) cs
    else (count, c :: cs)

/-- A group of one branch that selects what the branch does not. -/
def negate (segments : List Segment) : List Segment :=
  [.group .not [.mk segments .none] false]

namespace Grammar

variable (g : Grammar)

/-- A filter after an ampersand, if one can be read. -/
def filterSuffix : Parse (Option Filter) := do
  if (← peek) == some '&' then attempt (do skip 1; g.filter) else pure none

/-- An access: what it selects, its filter, and its first-match mark. -/
def access (place : Place) (accessor : Accessor) : Parse Segment := do
  let (key, first) ← keyPattern
  if place == .filterKey then pure (.access accessor key none first)
  else
    match ← g.filterSuffix with
    | none => pure (.access accessor key none first)
    | some f =>
      let marked ← eat '?'
      pure (.access accessor key (some f) (first || marked))

/-- A group in parentheses. -/
def group (lead : Accessor) : Parse Segment := do
  expect '('
  let branches ← g.branches lead
  skipBlanks
  expect ')'
  let first ← eat '?'
  pure (.group .or branches first)

/-- A group and its suffixes. -/
def groupSegment (place : Place) (lead : Accessor) : Parse Segment := do
  suffixes place (← g.group lead)

/-- The branches that a recursive segment follows. -/
def recursiveBranches : Parse (List Branch) := do
  expect '('
  let branches ← separated ',' do
    let segments ← g.path .branch .key
    let cut ← cutMark
    pure (Branch.mk segments cut)
  skipBlanks
  expect ')'
  pure branches

/-- Puts a restriction on the last segment of each branch; without branches there is one, the key
itself. -/
def restrictBranches (key : KeyPattern) (r : KindRestriction) (branches : List Branch) :
    List Branch :=
  let branches := if branches.isEmpty then
      [Branch.mk [.access .key key none false] .none]
    else branches
  branches.map fun b =>
    match b.segments.getLast? with
    | some last => .mk (b.segments.dropLast ++ [.restrict last r]) b.cut
    | none => b

/-- What a recursive segment follows, its first asterisk read; `none` if it is a plain asterisk. -/
def recursiveKey : Parse (Option (KeyPattern × List Branch)) := do
  let cs ← get
  match cs with
  | '*' :: _ =>
    skip 1
    pure (some (.wildcard, []))
  | '/' :: _ => do pure (some (.regex (← regex), []))
  | '(' :: rest =>
    if rest.head? == some '.' then pure none
    else do pure (some (.wildcard, ← g.recursiveBranches))
  | c :: rest =>
    if isWordChar c || c == '\\' || isQuote c || (c == '#' && rest.head?.any isQuote) then
      pure (some (.literal (← keyLiteral), []))
    else pure none
  | [] => pure none

/-- Depth windows and restrictions of a recursive segment, at most a number of them. -/
def recursiveMarksWithin (key : KeyPattern) :
    Nat → List Branch → DepthRange → Parse (List Branch × DepthRange)
  | 0, branches, depth => pure (branches, depth)
  | n + 1, branches, depth => do
    if ← restrictionAhead then
      skip 1
      let r ← kindRestriction
      recursiveMarksWithin key n (restrictBranches key r branches) depth
    else if ← eat ':' then
      recursiveMarksWithin key n branches (← depthRange)
    else pure (branches, depth)

/-- A recursive segment; `none` if the asterisk is a plain one. -/
def recursive : Parse (Option Segment) := do
  let start ← get
  skip 1
  match ← g.recursiveKey with
  | none =>
    set start
    pure none
  | some (key, branches) =>
    let first ← eat '?'
    let (branches, depth) ←
      recursiveMarksWithin key ((← get).length + 1) branches .unbounded
    let filter ← g.filterSuffix
    let marked ← if filter.isSome then eat '?' else pure false
    let s := Segment.recursive key branches depth filter (first || marked)
    match ← guardTest with
    | some test => pure (some (.guard s test))
    | none => pure (some s)

/-- A key access or a recursive segment. -/
def keySegment (place : Place) : Parse Segment := do
  let recursive ← if (← peek) == some '*' && place != .filterKey then g.recursive else pure none
  match recursive with
  | some s => pure s
  | none => do suffixes place (← g.access place .key)

/-- An attribute access or a group of them, after its marks; `afterAt` if the last mark is `@`. -/
def attrBody (place : Place) (afterAt : Bool) : Parse Segment := do
  let ((marked, afterAt), rest) := attrMarksFrom false afterAt (← get)
  set rest
  if afterAt && (← peek) == some '(' then
    pure (nopIf marked (← g.groupSegment place .attr))
  else
    pure (nopIf marked (← suffixes place (← g.access place .attr)))

/-- An attribute segment, from its `@` on. -/
def attrSegment (place : Place) : Parse Segment := do
  expect '@'
  g.attrBody place true

/-- A filter between brackets, the opening one read; `none` if it is something else. -/
def bracketFilter : Parse (Option Segment) :=
  Option.join <$> attempt (do
    let f ← g.filter
    let first ← eat '?'
    if ← eat ']' then pure (some (.sliceFilter f first)) else fail "expected ']'")

/-- A slot access, up to and with its closing bracket. -/
def bracketSlot (place : Place) : Parse Segment := do
  let s ← g.access place .slot
  skipBlanks
  expect ']'
  suffixes place s

/-- What stands between brackets, the opening one read. -/
def bracketBody (place : Place) : Parse Segment := do
  skipBlanks
  if ← eat ']' then suffixes place (.slice .full)
  else if ← eatText "+?]" then suffixes place (.append true)
  else if ← eatText "+]" then suffixes place (.append false)
  else
    match ← sliceRange with
    | some range => suffixes place (.slice range)
    | none =>
      if place == .filterKey then g.bracketSlot place
      else
        match ← g.bracketFilter with
        | some s => suffixes place s
        | none =>
          if (← peek) == some '(' then
            let s ← g.group .slot
            skipBlanks
            expect ']'
            suffixes place s
          else g.bracketSlot place

/-- A segment in brackets. -/
def bracketSegment (place : Place) : Parse Segment := do
  expect '['
  skipBlanks
  let marked ← eat '~'
  pure (nopIf marked (← g.bracketBody place))

/-- A slot as it stands in a group between brackets, its marks read. -/
def slotBody (place : Place) : Parse Segment := do
  if ← eatText "+?" then pure (.append true)
  else if ← eat '+' then pure (.append false)
  else suffixes place (← g.access place .slot)

/-- A slot as it stands in a group between brackets. -/
def slotToken (place : Place) : Parse Segment := do
  let marks ← takeWhile (· == '~')
  pure (nopIf (!marks.isEmpty) (← g.slotBody place))

/-- A segment after a point. -/
def dottedSegment (place : Place) : Parse Segment := do
  if place == .filterKey then g.keySegment place
  else
    let marks ← takeWhile (· == '~')
    let s ← if (← peek) == some '(' then g.groupSegment place .key else g.keySegment place
    pure (nopIf (!marks.isEmpty) s)

/-- What the mark `~` at the start of a path applies to. -/
def markedFirst (place : Place) : Parse Segment := do
  match ← peek with
  | some '@' => g.attrSegment place
  | some '[' => g.bracketSegment place
  | some '(' => g.groupSegment place .key
  | _ => g.keySegment place

/-- The first segment of a path that starts with keys. -/
def firstKeySegment (place : Place) : Parse Segment := do
  match ← peek with
  | some '~' =>
    if place == .filterKey then g.keySegment place
    else do
      skip 1
      pure (asNop (← g.markedFirst place))
  | some '@' => g.attrSegment place
  | some '[' => g.bracketSegment place
  | some '(' => if place == .filterKey then g.keySegment place else g.groupSegment place .key
  | some '.' => fail "expected a key"
  | some ']' => fail "expected a key"
  | some ')' => fail "expected a key"
  | some ',' => fail "expected a key"
  | none => fail "expected a key"
  | _ => g.keySegment place

/-- The first segment of a path; the lead says what a bare token is read as. -/
def firstSegment (place : Place) (lead : Accessor) : Parse Segment :=
  match lead with
  | .slot => g.slotToken place
  | .attr => g.attrBody place false
  | .key => g.firstKeySegment place

/-- What the mark `~` inside a path applies to. -/
def markedNext (place : Place) : Parse Segment := do
  match ← peek with
  | some '.' => do
    skip 1
    g.dottedSegment place
  | some '@' => g.attrSegment place
  | some '[' => g.bracketSegment place
  | _ => fail "expected '.', '@' or '[' after '~'"

/-- The next segment of a path; `none` at its end. -/
def nextSegment (place : Place) : Parse (Option Segment) := do
  if endsAt place (← get) then pure none
  else
    match ← peek with
    | some '.' => do
      skip 1
      pure (some (← g.dottedSegment place))
    | some '[' => do pure (some (← g.bracketSegment place))
    | some '@' => do pure (some (← g.attrSegment place))
    | some '(' =>
      if place == .filterKey then fail "unexpected character"
      else do pure (some (← g.groupSegment place .key))
    | some '~' =>
      if place == .filterKey then fail "unexpected character"
      else do
        skip 1
        pure (some (asNop (← g.markedNext place)))
    | _ => fail "unexpected character"

/-- A path. -/
def pathFrom (place : Place) (lead : Accessor) : Parse (List Segment) := do
  let first ← g.firstSegment place lead
  let rest ← many (g.nextSegment place)
  pure (first :: rest)

/-- A term of a conjunction: a path, or the complement of one. In a group of keys it may start with
a point. -/
def groupTerm (lead : Accessor) : Parse (List Segment) := do
  let (negations, rest) := negationsFrom 0 (← get)
  set rest
  let segments ←
    if lead == .key && (← peek) == some '.' then do
      skip 1
      let first ← g.dottedSegment .branch
      let rest ← many (g.nextSegment .branch)
      pure (first :: rest)
    else g.pathFrom .branch lead
  pure (Nat.repeat negate negations segments)

/-- Terms joined by ampersands. -/
def conjunction (lead : Accessor) : Parse (List Segment) := do
  match ← separated '&' (g.groupTerm lead) with
  | [term] => pure term
  | terms => pure [.group .and (terms.map fun t => .mk t .none) false]

/-- Branches with commas between them. -/
def branchesFrom (lead : Accessor) : Parse (List Branch) :=
  separated ',' do
    let segments ← g.conjunction lead
    let cut ← cutMark
    pure (Branch.mk segments cut)

/-- A comparison of the values at a path. -/
def compareFilter : Parse Filter := do
  let key ← g.pathFrom .filterKey .key
  let chain ← if (← peek) == some '|' then transforms .guard else pure []
  match ← comparison with
  | none => fail "expected a comparison operator"
  | some op => do pure (.compare key ⟨chain, op, ← comparedPattern op⟩)

/-- A comparison, a filter in parentheses, or the negation of one. -/
def filterTerm : Parse Filter := do
  let marks ← takeWhile (· == '!')
  let inner ←
    if ← eat '(' then do
      skipBlanks
      let f ← g.filter
      skipBlanks
      expect ')'
      pure f
    else g.compareFilter
  pure (Nat.repeat .not marks.length inner)

/-- The next term after a separator, if one can be read. -/
def nextAfter (separator : Char) (blanks : Bool) (term : Parse Filter) : Parse (Option Filter) := do
  if (← peek) == some separator then
    attempt do
      skip 1
      if blanks then skipBlanks
      term
  else pure none

/-- Terms that must all hold. -/
def filterAnd : Parse Filter := do
  let first ← g.filterTerm
  match ← many (nextAfter '&' false g.filterTerm) with
  | [] => pure first
  | rest => pure (.and (first :: rest))

/-- Terms of which one must hold. -/
def filterOr : Parse Filter := do
  let first ← g.filterAnd
  match ← many (nextAfter ',' true g.filterAnd) with
  | [] => pure first
  | rest => pure (.or (first :: rest))

/-- The grammar one nesting deeper. -/
def deepen : Grammar where
  filter := g.filterOr
  branches := g.branchesFrom
  path := g.pathFrom

end Grammar

/-- Nothing nests at depth zero. -/
def emptyGrammar : Grammar where
  filter := fail "expected a key"
  branches := fun _ => fail "expected a key"
  path := fun _ _ => fail "expected a key"

/-- The grammar of things nested at most a number of times. -/
def grammar : Nat → Grammar
  | 0 => emptyGrammar
  | n + 1 => (grammar n).deepen

end Parse

end DottedPath

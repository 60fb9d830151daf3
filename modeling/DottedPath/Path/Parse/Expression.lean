import DottedPath.Path.Parse.Segment

/-!
Reading whole path expressions. A text that is no path may still be a group without its parentheses;
if it is not that either, the failure of the first reading is reported.
-/

namespace DottedPath

namespace Parse

/-- A path up to the end of the text or the chain of transforms. -/
def topPath (g : Grammar) : Parse (List Segment) := do
  let path ← g.pathFrom .top .key
  if endsAt .top (← get) then pure path else fail "unexpected character"

/-- A group without its parentheses. -/
def implicitGroup (g : Grammar) : Parse Segment := do
  let branches ← g.branchesFrom .key
  skipBlanks
  if endsAt .top (← get) then pure (.group .or branches false)
  else fail "unexpected character"

/-- A path, or a group without its parentheses. -/
def topSegments (g : Grammar) : Parse (List Segment) := fun cs =>
  match topPath g cs with
  | .ok answer => .ok answer
  | .error failure =>
    match implicitGroup g cs with
    | .ok (group, rest) => .ok ([group], rest)
    | .error _ => .error failure

/-- The segments of an expression: none before a chain of transforms means the value itself, and a
minus sign in front inverts. -/
def expressionSegments (g : Grammar) : Parse (List Segment) := do
  if (← peek) == some '|' then pure [.root]
  else if ← eat '-' then
    pure (.invert :: (← topSegments g))
  else topSegments g

/-- An expression of nonempty text. -/
def expression (g : Grammar) : Parse PathExpression := do
  let segments ← expressionSegments g
  let chain ← transforms .trailing
  if (← get).isEmpty then pure ⟨segments, chain⟩
  else fail "unexpected character"

end Parse

/-- A text that is no path: what is wrong, and after how many characters. -/
structure ParseError where
  message : String
  position : Nat
deriving DecidableEq, Repr

/-- Reads a path expression. The empty text is the value itself. -/
def PathExpression.parseChars (cs : List Char) : Except ParseError PathExpression :=
  if cs.isEmpty then .ok ⟨[.root], []⟩
  else
    match Parse.expression (Parse.grammar cs.length) cs with
    | .ok (e, _) => .ok e
    | .error failure => .error ⟨failure.message, cs.length - failure.remaining⟩

/-- Reads a path expression. -/
def PathExpression.parse (text : String) : Except ParseError PathExpression :=
  PathExpression.parseChars text.toList

end DottedPath

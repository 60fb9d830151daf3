import DottedPath.Path.Glob
import DottedPath.Path.Parse.Token

/-!
Reading value patterns: what stands after a comparison. Patterns nest, so each reader is given the
reader of the patterns inside it; the knot is tied by the number of characters, since every pattern
inside another one starts at least one character later.
-/

namespace DottedPath.Parse

/-- Bounds of a glob: `5`, `2:5`, `2:`. In a dict a count with nothing after the colon is an upper
bound, and the colon belongs to the entry. -/
def globBounds (inDict : Bool) (g : Glob) : Parse Glob := do
  let start ← get
  match ← count with
  | none =>
    set start
    pure g
  | some n =>
    let colon ← get
    if ← eat ':' then
      match ← count with
      | some m => pure { g with min := n, max := some m }
      | none =>
        if inDict then
          set colon
          pure { g with max := some n }
        else pure { g with min := n }
    else pure { g with max := some n }

/-- What follows the dots of a glob. -/
def globTail (inDict : Bool) : Parse Glob := do
  let inner ← if (← peek) == some '/' then do pure (some (.regex (← regex))) else pure none
  globBounds inDict ⟨inner, 0, none⟩

/-- A quote, or a `b` and a quote. -/
def fragmentAhead : Parse Bool := do
  pure ((← quoteAt 0) || (← bytesAhead))

/-- The next part of a text glob. After a fragment only another glob continues it. -/
def globPart (afterFragment : Bool) : Parse (Option GlobPart) := do
  if ← eatText "..." then
    pure (some (.glob (← globTail false)))
  else if afterFragment then pure none
  else if ← quoteAt 0 then
    pure (some (.text (← quotedText)))
  else if ← bytesAhead then
    pure (some (.bytes (← quotedBytes)))
  else pure none

/-- The parts of a text glob, at most a number of them. -/
def globPartsWithin (afterFragment : Bool) : Nat → Parse (List GlobPart)
  | 0 => pure []
  | n + 1 => do
    match ← globPart afterFragment with
    | none => pure []
    | some part =>
      let isGlob := match part with
        | .glob _ => true
        | _ => false
      let parts ← globPartsWithin (!isGlob) n
      pure (part :: parts)

/-- Fragments of text and the globs between them, after some that were read before. -/
def textPattern (before : List GlobPart) : Parse ValuePattern := do
  let parts ← globPartsWithin false ((← get).length + 1)
  match before ++ parts with
  | [] => fail "expected a value"
  | parts =>
    match GlobPart.valuePattern? parts with
    | some p => pure p
    | none => fail "invalid regex"

/-- An element of a sequence or a set. -/
def element (inner : Parse ValuePattern) : Parse Element := do
  if ← eatText "..." then
    let g ← globTail false
    if ← fragmentAhead then
      pure (.value (← textPattern [.glob g]))
    else pure (.glob g)
  else pure (.value (← inner))

/-- The elements up to a closing bracket, the opening one read. -/
def elements (inner : Parse ValuePattern) (close : Char) : Parse (List Element) := do
  skipBlanks
  if ← eat close then pure []
  else
    let es ← separated ',' (element inner)
    skipBlanks
    expect close
    pure es

/-- A sequence pattern, from its bracket on. -/
def sequencePattern (inner : Parse ValuePattern) (kind : SequenceKind) : Parse ValuePattern := do
  expect '['
  pure (.sequence kind (← elements inner ']'))

/-- A set pattern, from its brace on. -/
def setPattern (inner : Parse ValuePattern) (kind : SetKind) : Parse ValuePattern := do
  expect '\x7b'
  pure (.set kind (← elements inner '\x7d'))

/-- The key of a dict entry. -/
def entryKey (inner : Parse ValuePattern) : Parse Element := do
  if ← eatText "..." then
    pure (.glob (← globTail true))
  else pure (.value (← inner))

/-- An entry of a dict. A glob may stand without a value. -/
def entry (inner : Parse ValuePattern) : Parse Entry := do
  let key ← entryKey inner
  skipBlanks
  match key with
  | .glob g =>
    if ← eat ':' then
      skipBlanks
      pure (.glob g (some (← inner)))
    else pure (.glob g none)
  | .value k =>
    expect ':'
    skipBlanks
    pure (.pair k (← inner))

/-- The entries of a dict from its brace on. -/
def dictPattern (inner : Parse ValuePattern) (marked : Bool) : Parse ValuePattern := do
  expect '\x7b'
  skipBlanks
  if ← eat '\x7d' then pure (.dict marked [])
  else
    let es ← separated ',' (entry inner)
    skipBlanks
    expect '\x7d'
    pure (.dict marked es)

/-- A first entry of a dict comes next: a key and a colon. -/
def entryAhead (inner : Parse ValuePattern) : Parse Bool := do
  let start ← get
  let key ← attempt (entryKey inner)
  skipBlanks
  let colon ← peek
  set start
  pure (key.isSome && colon == some ':')

/-- Braces without a letter in front: a dict if they are empty or the first item has a colon. -/
def bracePattern (inner : Parse ValuePattern) : Parse ValuePattern := do
  let start ← get
  expect '\x7b'
  skipBlanks
  let isDict := (← peek) == some '\x7d' || (← entryAhead inner)
  set start
  if isDict then dictPattern inner false else setPattern inner .any

/-- Alternatives in parentheses. -/
def patternGroup (inner : Parse ValuePattern) : Parse ValuePattern := do
  expect '('
  let alternatives ← separated ',' inner
  expect ')'
  pure (.group alternatives)

/-- A value pattern, given the reader of the patterns inside it. -/
def valuePatternStep (inner : Parse ValuePattern) : Parse ValuePattern := do
  let cs ← get
  match cs with
  | '*' :: _ =>
    skip 1
    pure .wildcard
  | '/' :: _ => do pure (.regex (← regex))
  | '(' :: _ => patternGroup inner
  | '[' :: _ => sequencePattern inner .any
  | '\x7b' :: _ => bracePattern inner
  | 'l' :: '[' :: _ => do skip 1; sequencePattern inner .list
  | 't' :: '[' :: _ => do skip 1; sequencePattern inner .tuple
  | 'd' :: '\x7b' :: _ => do skip 1; dictPattern inner true
  | 's' :: '\x7b' :: _ => do skip 1; setPattern inner .set
  | 'f' :: 's' :: '\x7b' :: _ => do skip 2; setPattern inner .frozenset
  | _ =>
    if ← numberAhead then
      pure (.literal (← keyLiteral))
    else if (← fragmentAhead) || (← lookingAt "...") then textPattern []
    else pure (.literal (← valueWord))

/-- A value pattern with others nested in it at most a number of times. -/
def valuePatternWithin : Nat → Parse ValuePattern
  | 0 => fail "expected a value"
  | n + 1 => valuePatternStep (valuePatternWithin n)

/-- A value pattern. -/
def valuePattern : Parse ValuePattern := do
  valuePatternWithin ((← get).length + 1)

mutual

/-- Has a definite value: no wildcard, expression, glob or group in it. -/
def isConcrete : ValuePattern → Bool
  | .literal _ => true
  | .sequence _ es => elementsConcrete es
  | .set _ es => elementsConcrete es
  | .dict _ es => entriesConcrete es
  | _ => false

def elementsConcrete : List Element → Bool
  | [] => true
  | .value p :: es => isConcrete p && elementsConcrete es
  | .glob _ :: _ => false

def entriesConcrete : List Entry → Bool
  | [] => true
  | .pair k v :: es => isConcrete k && isConcrete v && entriesConcrete es
  | .glob _ _ :: _ => false

end

/-- The symbol of a comparison. -/
def comparison : Parse (Option Comparison) := do
  let cs ← get
  match Comparison.all.find? fun op => op.symbol.toList.isPrefixOf cs with
  | some op =>
    skip op.symbol.length
    pure (some op)
  | none => pure none

/-- The right-hand side of a comparison. An order needs a definite value. -/
def comparedPattern (op : Comparison) : Parse ValuePattern := do
  let start ← get
  let p ← valuePattern
  if op.isOrdering && !isConcrete p then
    failAt ("'" ++ op.symbol ++ "' needs a concrete value") start.length
  pure p

end DottedPath.Parse

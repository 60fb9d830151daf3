import DottedPath.Path.Quote

/-!
Reading a path from its characters. A reader takes characters from the front of what is left; a
failure says how many characters were left where it happened. A reader that is tried and fails
leaves no trace, because the rest it started from is still at hand.
-/

namespace DottedPath

/-- Why a text is no path, and where. -/
structure ParseFailure where
  message : String
  /-- The number of characters not yet read. -/
  remaining : Nat
deriving DecidableEq, Repr

/-- A reader of characters. -/
abbrev Parse := StateT (List Char) (Except ParseFailure)

namespace Parse

/-- Fails where a given number of characters is left. -/
def failAt {α : Type} (message : String) (remaining : Nat) : Parse α :=
  throw ⟨message, remaining⟩

/-- Fails here. -/
def fail {α : Type} (message : String) : Parse α := do
  failAt message (← get).length

/-- The next character. -/
def peek : Parse (Option Char) := do
  pure (← get).head?

/-- The text comes next. -/
def lookingAt (text : String) : Parse Bool := do
  pure (text.toList.isPrefixOf (← get))

/-- Takes some characters. -/
def skip (count : Nat) : Parse Unit :=
  modify (·.drop count)

/-- Takes a character if it comes next. -/
def eat (c : Char) : Parse Bool := do
  if (← peek) == some c then
    skip 1
    pure true
  else pure false

/-- Takes a text if it comes next. -/
def eatText (text : String) : Parse Bool := do
  if ← lookingAt text then
    skip text.length
    pure true
  else pure false

/-- Takes blanks. -/
def skipBlanks : Parse Unit :=
  modify (·.dropWhile Text.isBlank)

/-- Takes a character that must come next. -/
def expect (c : Char) : Parse Unit := do
  match ← peek with
  | some d =>
    if d == c then skip 1
    else fail ("expected '" ++ String.ofList [c] ++ "', found '" ++ String.ofList [d] ++ "'")
  | none => fail ("expected '" ++ String.ofList [c] ++ "', found end of input")

/-- Takes characters as long as they pass a test. -/
def takeWhile (p : Char → Bool) : Parse (List Char) := do
  let cs ← get
  set (cs.dropWhile p)
  pure (cs.takeWhile p)

/-- Tries a reader: if it fails nothing is taken. -/
def attempt {α : Type} (r : Parse α) : Parse (Option α) := fun cs =>
  match r cs with
  | .ok (a, rest) => .ok (some a, rest)
  | .error _ => .ok (none, cs)

/-- Items with a separator between them, blanks allowed around each. The bound is on the number of
items; the separators alone are as many characters. -/
def separatedWithin {α : Type} (separator : Char) (item : Parse α) : Nat → Parse (List α)
  | 0 => pure []
  | n + 1 => do
    skipBlanks
    let x ← item
    skipBlanks
    if ← eat separator then
      let xs ← separatedWithin separator item n
      pure (x :: xs)
    else pure [x]

/-- One or more items with a separator between them, blanks allowed around each. -/
def separated {α : Type} (separator : Char) (item : Parse α) : Parse (List α) := do
  separatedWithin separator item ((← get).length + 1)

/-- A reader repeated as long as it answers something, at most a number of times. -/
def manyWithin {α : Type} (item : Parse (Option α)) : Nat → Parse (List α)
  | 0 => pure []
  | n + 1 => do
    match ← item with
    | none => pure []
    | some x => do
      let xs ← manyWithin item n
      pure (x :: xs)

/-- A reader repeated as long as it answers something. Each answer takes a character at least. -/
def many {α : Type} (item : Parse (Option α)) : Parse (List α) := do
  manyWithin item ((← get).length + 1)

end Parse

/-- Opens and closes a quoted text. -/
def isQuote (c : Char) : Bool :=
  c == Text.quoteChar || c == '"'

/-- May stand in a bare word. -/
def isWordChar (c : Char) : Bool :=
  !isReserved c && !Text.isBlank c && !isQuote c

end DottedPath

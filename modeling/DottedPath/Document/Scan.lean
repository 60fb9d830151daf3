/-!
Reading documents from their characters. A reader takes characters from the front of what is left,
or fails; documents do not say where.
-/

namespace DottedPath.Document

/-- A reader of characters. -/
abbrev Scan := StateT (List Char) Option

namespace Scan

/-- The next character. -/
def peek : Scan (Option Char) := do
  pure (← get).head?

/-- Takes the next character. -/
def next : Scan Char := do
  match ← get with
  | [] => failure
  | c :: cs => do
    set cs
    pure c

/-- Takes a character if it comes next. -/
def eat (c : Char) : Scan Bool := do
  match ← get with
  | d :: cs => if d == c then do set cs; pure true else pure false
  | [] => pure false

/-- Takes a character that must come next. -/
def expect (c : Char) : Scan Unit := do
  if ← eat c then pure () else failure

/-- Takes a text that must come next. -/
def expectText (text : String) : Scan Unit := do
  let cs ← get
  if text.toList.isPrefixOf cs then set (cs.drop text.length) else failure

/-- Takes characters as long as they pass a test. -/
def takeWhile (p : Char → Bool) : Scan (List Char) := do
  let cs ← get
  set (cs.dropWhile p)
  pure (cs.takeWhile p)

/-- Takes characters as long as they pass a test, and drops them. -/
def skipWhile (p : Char → Bool) : Scan Unit :=
  modify (·.dropWhile p)

/-- Nothing is left. -/
def finished : Scan Bool := do
  pure (← get).isEmpty

/-- Reads a whole text: nothing may be left. -/
def whole? {α : Type} (r : Scan α) (text : String) : Option α :=
  match r.run text.toList with
  | some (a, []) => some a
  | _ => none

/-- Items with commas between them up to a closing character; `skip` takes what may stand around an
item. The bound is on the number of items. -/
def itemsWithin {α : Type} (skip : Scan Unit) (item : Scan α) (close : Char) : Nat → Scan (List α)
  | 0 => failure
  | n + 1 => do
    skip
    let x ← item
    skip
    if ← eat ',' then
      let xs ← itemsWithin skip item close n
      pure (x :: xs)
    else
      expect close
      pure [x]

/-- Items with commas between them up to a closing character, or none at all. -/
def items {α : Type} (skip : Scan Unit) (item : Scan α) (close : Char) : Scan (List α) := do
  skip
  if ← eat close then pure []
  else itemsWithin skip item close (← get).length

end Scan

end DottedPath.Document

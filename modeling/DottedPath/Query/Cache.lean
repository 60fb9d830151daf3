import DottedPath.Path.Parse.Expression

/-!
A cache of parsed paths that forgets the least recently requested. Only texts that are paths are
kept.
-/

namespace DottedPath

/-- The parsed paths, the latest requested first. -/
structure PathCache where
  capacity : Nat
  entries : List (String × PathExpression)

namespace PathCache

/-- An empty cache for a number of paths, at least one. -/
def ofCapacity (capacity : Nat) : PathCache := ⟨max capacity 1, []⟩

/-- The number of paths that are kept. -/
def size (c : PathCache) : Nat := c.entries.length

/-- Forgets everything. -/
def clear (c : PathCache) : PathCache := { c with entries := [] }

/-- The entries without those of a text. -/
def erase (c : PathCache) (text : String) : List (String × PathExpression) :=
  c.entries.filter fun (t, _) => t != text

/-- What a request answers. -/
structure Answer where
  result : Except ParseError PathExpression
  /-- The text was not kept and had to be parsed. -/
  parsed : Bool

/-- Requests a path: what is kept is answered and becomes the latest, anything else is parsed, and
kept if it is a path. -/
def request (c : PathCache) (text : String) : Answer × PathCache :=
  match c.entries.lookup text with
  | some e => (⟨.ok e, false⟩, { c with entries := (text, e) :: c.erase text })
  | none =>
    match PathExpression.parse text with
    | .ok e => (⟨.ok e, true⟩, { c with entries := ((text, e) :: c.entries).take c.capacity })
    | .error e => (⟨.error e, true⟩, c)

end PathCache

end DottedPath

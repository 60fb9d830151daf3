import DottedPath.Path.Print
import DottedPath.Value.Comparison
import DottedPath.Value.Text

/-!
Locations: the steps from a value to one of its parts. A location can be turned into a literal path,
and written as the text of one.
-/

namespace DottedPath

/-- One step of a location. -/
inductive Step where
  /-- No step at all: the path that names the value itself. -/
  | root
  | key (k : Value)
  | attr (name : String)
  | slot (k : Value)
  | slice (range : SliceRange)
  | invert
deriving Inhabited

/-- The steps from a value to a part of it. -/
abbrev Location := List Step

/-- A location and the value there. -/
abbrev Found := Location × Value

/-- The literal of a key; a key that is none is named by its text. -/
def Store.keyLiteral (s : Store) (k : Value) : Literal :=
  (Literal.ofValue? s k).getD (.str (s.text k))

namespace Step

/-- The literal segment that takes the step. -/
def segment (s : Store) : Step → Segment
  | root => .root
  | key k => .literal .key (s.keyLiteral k)
  | attr name => .literal .attr (.str name)
  | slot k => .literal .slot (s.keyLiteral k)
  | slice range => .slice range
  | invert => .invert

/-- The same step. -/
def same (s : Store) : Step → Step → Bool
  | root, root => true
  | key k, key l => s.equals k l
  | attr a, attr b => a == b
  | slot k, slot l => s.equals k l
  | slice r, slice t => r == t
  | invert, invert => true
  | _, _ => false

/-- Steps to the same part: a key and a slot of the same name are one. -/
def sameChild (s : Store) (a b : Step) : Bool :=
  match a, b with
  | key k, slot l => s.equals k l
  | slot k, key l => s.equals k l
  | a, b => a.same s b

/-- The slice of a whole sequence. -/
def isFullSlice : Step → Bool
  | slice range => range == .full
  | _ => false

/-- No step at all. -/
def isRoot : Step → Bool
  | root => true
  | _ => false

/-- Goes to a part that is there, rather than to a new sequence of parts. -/
def descends : Step → Bool
  | slice _ => false
  | _ => true

/-- The integer of a key or slot. -/
def index? : Step → Option Int
  | key (.scalar x) => x.toInt?
  | slot (.scalar x) => x.toInt?
  | _ => none

end Step

namespace Location

/-- The literal path of a location. -/
def path (s : Store) (l : Location) : List Segment :=
  l.map (Step.segment s)

/-- The same steps. -/
def same (s : Store) : Location → Location → Bool
  | [], [] => true
  | a :: as, b :: bs => a.same s b && same s as bs
  | _, _ => false

/-- One of the locations leads to the other, or on from it. -/
def overlaps (s : Store) : Location → Location → Bool
  | a :: as, b :: bs => a.sameChild s b && overlaps s as bs
  | _, _ => true

/-- The canonical text of a location. A slice of the whole sequence at its end adds nothing. -/
def text (s : Store) (l : Location) : String :=
  let steps := l.filter fun step => !step.isRoot
  let steps :=
    if 1 < steps.length && steps.getLast?.any Step.isFullSlice then steps.dropLast else steps
  pathText (path s steps)

end Location

end DottedPath

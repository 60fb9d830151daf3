/-!
The kinds of values and their names in type restrictions.
-/

namespace DottedPath

/-- The kind of a value. -/
inductive Kind where
  | none | bool | int | float | str | bytes
  | list | tuple | dict | set | frozenset | object
deriving DecidableEq, Repr

/-- The name of a kind. -/
def Kind.name : Kind → String
  | none => "none"
  | bool => "bool"
  | int => "int"
  | float => "float"
  | str => "str"
  | bytes => "bytes"
  | list => "list"
  | tuple => "tuple"
  | dict => "dict"
  | set => "set"
  | frozenset => "frozenset"
  | object => "object"

/-- Every kind, in the order of their declaration. -/
def Kind.all : List Kind :=
  [none, bool, int, float, str, bytes, list, tuple, dict, set, frozenset, object]

/-- The kind with a name; the kind of null has two. -/
def Kind.ofName? (name : String) : Option Kind :=
  if name == "None" then some .none else all.find? fun k => k.name == name

theorem Kind.ofName?_name (k : Kind) : Kind.ofName? k.name = some k := by
  cases k <;> decide

end DottedPath

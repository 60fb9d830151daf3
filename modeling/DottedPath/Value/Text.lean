import DottedPath.Value.Store

/-!
The literal form of values. It is defined for values that do not hold themselves; the depth bound
is the number of containers, which no such value exceeds.
-/

namespace DottedPath.Store

/-- Texts with a comma and a space between them. -/
def commaSeparated (texts : List String) : String :=
  ", ".intercalate texts

/-- The literal form of a value at most the given number of containers deep. -/
def reprWithin (s : Store) : Nat → Value → String
  | _, .scalar x => x.repr
  | 0, .ref _ => "..."
  | n + 1, .ref h =>
    match s.get? h with
    | none => "..."
    | some (.list xs) => "[" ++ commaSeparated (xs.map (s.reprWithin n)) ++ "]"
    | some (.tuple [x]) => "(" ++ s.reprWithin n x ++ ",)"
    | some (.tuple xs) => "(" ++ commaSeparated (xs.map (s.reprWithin n)) ++ ")"
    | some (.dict es) =>
      "\x7b" ++ commaSeparated
        (es.map fun (k, v) => s.reprWithin n k ++ ": " ++ s.reprWithin n v) ++ "\x7d"
    | some (.set []) => "set()"
    | some (.set ms) => "\x7b" ++ commaSeparated (ms.map (s.reprWithin n)) ++ "\x7d"
    | some (.frozenset []) => "frozenset()"
    | some (.frozenset ms) =>
      "frozenset(\x7b" ++ commaSeparated (ms.map (s.reprWithin n)) ++ "\x7d)"
    | some (.object name as _) =>
      name ++ "(" ++ commaSeparated (as.map fun (a, v) => a ++ "=" ++ s.reprWithin n v) ++ ")"

/-- The literal form of a value. -/
def repr (s : Store) (v : Value) : String :=
  s.reprWithin (s.size + 1) v

/-- The text of a value: a string stands for itself. -/
def text (s : Store) : Value → String
  | .scalar x => x.text
  | v => s.repr v

end DottedPath.Store

import DottedPath.Query.Write

/-!
Flattening: nested dicts and objects as pairs of a path and a leaf, and back. Sequences, scalars and
empty containers are leaves, and so is a container that is met again inside itself; an empty dict as
the whole value has no pairs.
-/

namespace DottedPath

namespace Store

variable (s : Store)

/-- The step to an entry of a dict or an attribute of an object. -/
def entryStep (node key : Value) : Step :=
  match key with
  | .str name => if s.isAttributed node then .attr name else .key key
  | key => .key key

/-- The leaves below a value with their locations, going at most the given number of levels. -/
def leavesWithin : Nat → List Handle → Location → Value → List Found
  | 0, _, _, _ => []
  | n + 1, above, base, node =>
    if (s.entries node).isEmpty || node.handle?.any above.contains then
      if base.isEmpty && s.isKeyed node then [] else [(base, node)]
    else
      (s.entries node).flatMap fun (k, v) =>
        leavesWithin n (node.handle?.toList ++ above) (base ++ [s.entryStep node k]) v

/-- The leaves of a value with their locations. A way down enters each container at most once. -/
def leaves (root : Value) : List Found :=
  s.leavesWithin (s.size + 2) [] [] root

/-- Flattens a value. -/
def unpack (root : Value) : List (String × Value) :=
  (s.leaves root).map fun (l, v) => (l.text s, v)

end Store

/-- Builds a value from pairs of a path and a leaf. -/
def Context.pack (ctx : Context) (pairs : List (String × Value)) : Eval Value :=
  ctx.updateMulti .auto pairs

end DottedPath

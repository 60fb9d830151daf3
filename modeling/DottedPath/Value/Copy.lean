import DottedPath.Value.Comparison

/-!
Deep copies. Every container that can be reached is copied once, so what was shared is shared in the
copy and a value that holds itself gives one that holds itself. A list, dict, set or object is noted
before its content is copied, a tuple or a frozen set only after: they cannot hold themselves except
through one of the others.
-/

namespace DottedPath

/-- The copies made so far, the latest first. -/
abbrev Copies := List (Handle × Value)

/-- Notes a copy. -/
def noteCopy (h : Handle) (v : Value) : StateT Copies StoreM Unit :=
  modify ((h, v) :: ·)

/-- Copies a value, going at most the given number of containers deep. -/
def copyWithin : Nat → Value → StateT Copies StoreM Value
  | _, .scalar x => pure (.scalar x)
  | 0, .ref h => pure (.ref h)
  | n + 1, .ref h => do
    match (← get).lookup h with
    | some done => pure done
    | none =>
      match (← getThe Store).get? h with
      | none => pure (.ref h)
      | some (.list items) =>
        let copy ← begin h (.list [])
        let items ← items.mapM (copyWithin n)
        finish copy (.list items)
        pure copy
      | some (.dict entries) =>
        let copy ← begin h (.dict [])
        for (k, v) in entries do
          let k ← copyWithin n k
          let v ← copyWithin n v
          match copy, (← getThe Store).container? copy with
          | .ref c, some (.dict es) =>
            modifyThe Store fun s => s.set c (.dict (s.insertEntry es k v))
          | _, _ => pure ()
        pure copy
      | some (.set members) =>
        let copy ← begin h (.set [])
        for m in members do
          let m ← copyWithin n m
          match copy, (← getThe Store).container? copy with
          | .ref c, some (.set ms) => modifyThe Store fun s => s.set c (.set (s.insertMember ms m))
          | _, _ => pure ()
        pure copy
      | some (.object name attrs frozen) =>
        let copy ← begin h (.object name [] frozen)
        let attrs ← attrs.mapM fun (a, v) => do pure (a, ← copyWithin n v)
        finish copy (.object name attrs frozen)
        pure copy
      | some (.tuple items) =>
        let items ← items.mapM (copyWithin n)
        let copy ← alloc (.tuple items)
        noteCopy h copy
        pure copy
      | some (.frozenset members) =>
        let members ← members.mapM (copyWithin n)
        let copy ← alloc (.frozenset ((← getThe Store).membersOf members))
        noteCopy h copy
        pure copy
where
  /-- Creates and notes the copy of a container that may hold itself. -/
  begin (h : Handle) (c : Container) : StateT Copies StoreM Value := do
    let copy ← alloc c
    noteCopy h copy
    pure copy
  /-- Fills a copy. -/
  finish (copy : Value) (c : Container) : StateT Copies StoreM Unit :=
    match copy with
    | .ref h => modifyThe Store fun s => s.set h c
    | .scalar _ => pure ()

/-- A copy of a value that shares no container with it. On the way down each container that can hold
itself is met once, and between two of them each of the others at most once. -/
def deepCopy (v : Value) : StoreM Value := do
  let s ← get
  let (copy, _) ← (copyWithin s.comparisonDepth v).run []
  pure copy

end DottedPath

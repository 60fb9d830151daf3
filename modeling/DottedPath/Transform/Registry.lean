import DottedPath.Error
import DottedPath.Value.View

/-!
Transforms: named functions that a path applies to what it yields. A registry never forgets a name
and never changes what it stands for.
-/

namespace DottedPath

/-- A transform takes a value, positional arguments and named ones; it may fail with a message. -/
abbrev Transform := Value → List Value → List (String × Value) → ExceptT String StoreM Value

/-- The transforms by name, in the order of their registration. -/
structure Registry where
  entries : List (String × Transform)

namespace Registry

/-- No transforms. -/
def empty : Registry := ⟨[]⟩

/-- The transform of a name. -/
def get? (r : Registry) (name : String) : Option Transform :=
  r.entries.lookup name

/-- The name is taken. -/
def contains (r : Registry) (name : String) : Bool :=
  (r.get? name).isSome

/-- The names in the order of their registration. -/
def names (r : Registry) : List String :=
  r.entries.map Prod.fst

/-- Adds a transform, unless the name is taken. -/
def register (r : Registry) (name : String) (f : Transform) : Registry :=
  if r.contains name then r else ⟨r.entries ++ [(name, f)]⟩

end Registry

/-- Reads and writes of values: they may fail, and what they did to the store before stays done. -/
abbrev Eval := ExceptT Error StoreM

/-- The store as it is. -/
def store : Eval Store := getThe Store

/-- What evaluation depends on besides the path and the value. -/
structure Context where
  registry : Registry
  /-- Every failure of a transform is an error, whether or not the call asks for it. -/
  raises : Bool

namespace Context

/-- Applies one call. A failure is an error if it is asked for; otherwise the value stays as it
was. -/
def applyCall (ctx : Context) (v : Value) (call : TransformCall) : Eval Value := do
  match ctx.registry.get? call.name with
  | none => throw (.unknownTransform call.name)
  | some f =>
    let args ← (Literal.itemValues call.args : StoreM (List Value))
    let named ← (Literal.itemValues (call.named.map Prod.snd) : StoreM (List Value))
    let named := attrsOf ((call.named.map Prod.fst).zip named)
    match ← ((f v args named).run : StoreM (Except String Value)) with
    | .ok next => pure next
    | .error message =>
      if call.raises || ctx.raises then throw (.transform call.name message) else pure v

/-- Applies a chain of calls from left to right. -/
def transform (ctx : Context) (v : Value) (calls : List TransformCall) : Eval Value :=
  calls.foldlM ctx.applyCall v

end Context

end DottedPath

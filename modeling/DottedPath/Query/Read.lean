import DottedPath.Evaluate.Walk

/-!
Reading values by path text: the values and places that a path names, and whether a write of it
would edit the value in place. A path that can name more than one place yields a tuple.
-/

namespace DottedPath

/-- The expression of a path text. -/
def readPath (path : String) : Eval PathExpression :=
  match PathExpression.parse path with
  | .ok e => pure e
  | .error e => throw (.parse e)

/-- No step at all: the segment that names the value itself. -/
def Segment.isRoot : Segment → Bool
  | root => true
  | _ => false

namespace Context

variable (ctx : Context)

/-- The values that a path names, after its transforms. -/
def findAll (root : Value) (path : String) : Eval (List Value) := do
  let e ← readPath path
  (← ctx.find e.segments root).mapM fun (_, v) => ctx.transform v e.transforms

/-- The value that a path names, or a default. A pattern has a tuple of all its values. -/
def getOr (root : Value) (path : String) (default : Value) : Eval Value := do
  let found ← ctx.findAll root path
  if (← readPath path).isPattern then (alloc (.tuple found) : StoreM Value)
  else pure (found.head?.getD default)

/-- The value that a path names, or null. -/
def get (root : Value) (path : String) : Eval Value :=
  ctx.getOr root path .null

/-- The values of those paths that name something. -/
def getMulti (root : Value) : List String → Eval (List Value)
  | [] => pure []
  | path :: paths => do
    let found ← ctx.findAll root path
    let here ← match found with
      | [] => pure []
      | v :: _ => do
        if (← readPath path).isPattern then pure [← (alloc (.tuple found) : StoreM Value)]
        else pure [v]
    pure (here ++ (← getMulti root paths))

/-- A path names something. -/
def has (root : Value) (path : String) : Eval Bool := do
  let e ← readPath path
  pure !(← ctx.find e.segments root).isEmpty

/-- Whether each of some paths names something. -/
def hasMulti (root : Value) (paths : List String) : Eval (List Bool) :=
  paths.mapM (ctx.has root)

/-- Something on the way to what segments name, but not that itself, can be edited in place. -/
def editsInPlace : List Segment → Value → Eval Bool
  | [], _ => pure false
  | seg :: rest, node => do
    if (← store).isMutable node then pure true
    else if rest.isEmpty then pure false
    else (← ctx.items seg node).anyM fun (_, child) => editsInPlace rest child

/-- Whether an update of a path would edit the value in place rather than make a new one. -/
def mutable (root : Value) (path : String) : Eval Bool := do
  let e ← readPath path
  ctx.editsInPlace (e.segments.filter fun seg => !seg.isRoot) root

/-- The canonical texts of the places that some paths name, each once. -/
def expandMulti (root : Value) : List String → Eval (List String)
  | paths => paths.foldlM (fun seen path => do
      let e ← readPath path
      let found ← ctx.find e.segments root
      let s ← store
      pure (found.foldl (fun seen (l, _) =>
        let text := Location.text s l
        if seen.contains text then seen else seen ++ [text]) seen)) []

/-- The canonical texts of the places that a path names, each once. -/
def expand (root : Value) (path : String) : Eval (List String) :=
  ctx.expandMulti root [path]

/-- The places that some paths name, by their texts, each with the first value found there. A path
that names one place has at most one. -/
def pluckMulti (root : Value) (paths : List String) : Eval (List (String × Value)) :=
  paths.foldlM (fun seen path => do
    let e ← readPath path
    let found ← ctx.find e.segments root
    let s ← store
    pure ((firstOnly (!e.isPattern) found).foldl (fun seen (l, v) =>
      let text := Location.text s l
      if seen.any (·.1 == text) then seen else seen ++ [(text, v)]) seen)) []

/-- The places that a path names, by their texts, with the values there. -/
def pluck (root : Value) (path : String) : Eval (List (String × Value)) :=
  ctx.pluckMulti root [path]

end Context

end DottedPath

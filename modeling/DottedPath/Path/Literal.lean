import DottedPath.Value.Store

/-!
Literals: the values that a path can name. They need no store; building one as a value creates a
container for each tuple in it.
-/

namespace DottedPath

/-- A scalar or a tuple of literals. -/
inductive Literal where
  | scalar (x : Scalar)
  | tuple (items : List Literal)
deriving Inhabited

namespace Literal

@[match_pattern] def null : Literal := scalar .null

@[match_pattern] def bool (b : Bool) : Literal := scalar (.bool b)

@[match_pattern] def int (i : Int) : Literal := scalar (.int i)

@[match_pattern] def float (f : Float) : Literal := scalar (.float f)

@[match_pattern] def str (s : String) : Literal := scalar (.str s)

@[match_pattern] def bytes (bs : List UInt8) : Literal := scalar (.bytes bs)

mutual

/-- The same literal; NaN differs from itself. -/
def beq : Literal → Literal → Bool
  | scalar x, scalar y => x == y
  | tuple xs, tuple ys => beqItems xs ys
  | _, _ => false

def beqItems : List Literal → List Literal → Bool
  | [], [] => true
  | x :: xs, y :: ys => beq x y && beqItems xs ys
  | _, _ => false

end

instance : BEq Literal := ⟨beq⟩

mutual

/-- The value of a literal. -/
def toValue : Literal → StoreM Value
  | scalar x => pure (.scalar x)
  | tuple items => do alloc (.tuple (← itemValues items))

/-- The values of several literals. -/
def itemValues : List Literal → StoreM (List Value)
  | [] => pure []
  | x :: xs => do
    let v ← toValue x
    let vs ← itemValues xs
    pure (v :: vs)

end

mutual

/-- The literal form of the value. -/
def repr : Literal → String
  | scalar x => x.repr
  | tuple [x] => "(" ++ repr x ++ ",)"
  | tuple items => "(" ++ reprItems items ++ ")"

def reprItems : List Literal → String
  | [] => ""
  | [x] => repr x
  | x :: xs => repr x ++ ", " ++ reprItems xs

end

/-- The literal of a value: its scalars and tuples; `none` if it has another container in it. The
bound is on the number of containers on the way down. -/
def ofValueWithin? (s : Store) : Nat → Value → Option Literal
  | _, .scalar x => some (scalar x)
  | 0, .ref _ => none
  | n + 1, .ref h =>
    match s.get? h with
    | some (.tuple items) => (items.mapM (ofValueWithin? s n)).map tuple
    | _ => none

/-- The literal of a value. -/
def ofValue? (s : Store) (v : Value) : Option Literal :=
  ofValueWithin? s (s.size + 1) v

end Literal

end DottedPath

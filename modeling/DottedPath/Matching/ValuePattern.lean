import DottedPath.Matching.Distribution
import DottedPath.Path.Expression
import DottedPath.Value.Comparison
import DottedPath.Value.View

/-!
Matching of values against value patterns and of keys against key patterns. Literals compare by
equality, regular expressions with the text of the value, and container patterns by structure: a
sequence in order, a set or a dict in any order.
-/

namespace DottedPath

namespace Store

/-- A literal is equal to a value. -/
def equalsLiteral (s : Store) (l : Literal) (v : Value) : Bool :=
  let (w, s) := l.toValue s
  s.equals w v

/-- A key is selected by a key pattern. -/
def keyMatches (s : Store) (p : KeyPattern) (key : Value) : Bool :=
  match p with
  | .literal l => s.equalsLiteral l key
  | .wildcard => true
  | .regex re => re.matches (s.text key)

/-- The keys that a key pattern selects. -/
def selectKeys (s : Store) (p : KeyPattern) (keys : List Value) : List Value :=
  keys.filter (s.keyMatches p)

/-- The text that regular expressions see: bytes are read as text. -/
def textForm (s : Store) : Value → String
  | .bytes bs => Text.ofBytesLossy bs
  | v => s.text v

/-- The kind of a value is one of a sequence pattern. -/
def isSequenceOf (s : Store) (kind : SequenceKind) (v : Value) : Bool :=
  match kind with
  | .any => s.isListLike v
  | .list => s.kind v == .list
  | .tuple => s.kind v == .tuple

/-- The kind of a value is one of a set pattern. -/
def isSetOf (s : Store) (kind : SetKind) (v : Value) : Bool :=
  match kind with
  | .any => s.isSetLike v
  | .set => s.kind v == .set
  | .frozenset => s.kind v == .frozenset

/-- The list without the first item that passes a test; `none` if none does. -/
def takeFirst {α : Type} (p : α → Bool) : List α → Option (List α)
  | [] => none
  | x :: xs => if p x then some xs else (takeFirst p xs).map (x :: ·)

mutual

/-- A value passes a pattern. -/
def valueMatches (s : Store) : ValuePattern → Value → Bool
  | .literal l, v => s.equalsLiteral l v
  | .wildcard, _ => true
  | .regex re, v => re.matches (s.textForm v)
  | .textGlob _ re, v =>
    match v with
    | .str t => re.matches t
    | _ => false
  | .bytesGlob _ re, v =>
    match v with
    | .bytes bs => re.matches bs
    | _ => false
  | .sequence kind es, v => s.isSequenceOf kind v && sequenceMatches s es (s.elements v)
  | .set kind es, v =>
    s.isSetOf kind v &&
      match leftoverMembers s es (s.elements v).zipIdx with
      | none => false
      | some rest =>
        Run.distributes (elementRuns s es (s.elements v)) (rest.map Prod.snd)
  | .dict _ es, v =>
    s.kind v == .dict &&
      match leftoverEntries s es (s.entries v).zipIdx with
      | none => false
      | some rest => Run.distributes (entryRuns s es (s.entries v)) (rest.map Prod.snd)
  | .group ps, v => anyMatches s ps v

/-- A value passes one of several patterns. -/
def anyMatches (s : Store) : List ValuePattern → Value → Bool
  | [], _ => false
  | p :: ps, v => valueMatches s p v || anyMatches s ps v

/-- A value passes the pattern that a glob has, if there is one. -/
def innerMatches (s : Store) : Option ValuePattern → Value → Bool
  | none, _ => true
  | some p, v => valueMatches s p v

/-- Values in order: each glob takes a run of them, of any number within its bounds. -/
def sequenceMatches (s : Store) : List Element → List Value → Bool
  | [], vs => vs.isEmpty
  | .value p :: es, vs =>
    match vs with
    | [] => false
    | v :: vs => valueMatches s p v && sequenceMatches s es vs
  | .glob ⟨p, lo, hi⟩ :: es, vs =>
    lo ≤ vs.length &&
      (Run.countsFrom lo (min (hi.getD vs.length) vs.length)).any fun n =>
        (vs.take n).all (fun v => innerMatches s p v) && sequenceMatches s es (vs.drop n)

/-- The numbered members of a set that are left when each element but the globs has taken the first
one that passes it; `none` if one finds none. -/
def leftoverMembers (s : Store) : List Element → List (Value × Nat) → Option (List (Value × Nat))
  | [], ms => some ms
  | .glob _ :: es, ms => leftoverMembers s es ms
  | .value p :: es, ms =>
    match takeFirst (fun (v, _) => valueMatches s p v) ms with
    | none => none
    | some ms => leftoverMembers s es ms

/-- The numbered entries of a dict that are left when each pair has taken the first one that passes
it; `none` if one finds none. -/
def leftoverEntries (s : Store) :
    List Entry → List ((Value × Value) × Nat) → Option (List ((Value × Value) × Nat))
  | [], xs => some xs
  | .glob _ _ :: es, xs => leftoverEntries s es xs
  | .pair k v :: es, xs =>
    match takeFirst (fun ((x, y), _) => valueMatches s k x && valueMatches s v y) xs with
    | none => none
    | some xs => leftoverEntries s es xs

/-- The runs of the globs over the members of a set. -/
def elementRuns (s : Store) : List Element → List Value → List Run
  | [], _ => []
  | .value _ :: es, vs => elementRuns s es vs
  | .glob ⟨p, lo, hi⟩ :: es, vs =>
    ⟨lo, hi, fun i => vs[i]?.any fun v => innerMatches s p v⟩ :: elementRuns s es vs

/-- The runs of the globs over the entries of a dict. -/
def entryRuns (s : Store) : List Entry → List (Value × Value) → List Run
  | [], _ => []
  | .pair _ _ :: es, xs => entryRuns s es xs
  | .glob ⟨p, lo, hi⟩ q :: es, xs =>
    ⟨lo, hi, fun i => xs[i]?.any fun (k, v) => innerMatches s p k && innerMatches s q v⟩ ::
      entryRuns s es xs

end

end Store

mutual

/-- The definite value of a pattern, if it has one. -/
def concreteValue? : ValuePattern → StoreM (Option Value)
  | .literal l => do pure (some (← l.toValue))
  | .sequence kind es => do
    match ← concreteElements? es with
    | none => pure none
    | some vs =>
      match kind with
      | .tuple => do pure (some (← alloc (.tuple vs)))
      | _ => do pure (some (← alloc (.list vs)))
  | .set kind es => do
    match ← concreteElements? es with
    | none => pure none
    | some vs =>
      let members := (← get).membersOf vs
      match kind with
      | .frozenset => do pure (some (← alloc (.frozenset members)))
      | _ => do pure (some (← alloc (.set members)))
  | .dict _ es => do
    match ← concreteEntries? es with
    | none => pure none
    | some xs => do pure (some (← alloc (.dict ((← get).dictOf xs))))
  | _ => pure none

/-- The values of elements, if each of them has one. -/
def concreteElements? : List Element → StoreM (Option (List Value))
  | [] => pure (some [])
  | .glob _ :: _ => pure none
  | .value p :: es => do
    let v ← concreteValue? p
    let vs ← concreteElements? es
    pure (v.bind fun v => vs.map (v :: ·))

/-- The entries of a dict pattern, if each of them is a definite pair. -/
def concreteEntries? : List Entry → StoreM (Option (List (Value × Value)))
  | [] => pure (some [])
  | .glob _ _ :: _ => pure none
  | .pair k v :: es => do
    let k ← concreteValue? k
    let v ← concreteValue? v
    let xs ← concreteEntries? es
    pure (k.bind fun k => v.bind fun v => xs.map ((k, v) :: ·))

end

namespace Store

/-- A value stands in an order to the definite value of a pattern. -/
def ordered (s : Store) (op : Comparison) (reference : ValuePattern) (v : Value) : Bool :=
  match concreteValue? reference s with
  | (some r, s) => op.accepts (s.order? v r)
  | (none, _) => false

/-- A value passes the comparison of a test. `ne` asks whether the pattern matches, like `eq`: what
the answer means is for the caller to say. -/
def compares (s : Store) (op : Comparison) (p : ValuePattern) (v : Value) : Bool :=
  if op.isOrdering then s.ordered op p v else s.valueMatches p v

end Store

end DottedPath

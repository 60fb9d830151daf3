import DottedPath.Value.Store

/-!
Equality of values across a store, the look-up of keys, and the order of values. The same handle is
equal to itself whatever it holds; otherwise containers compare by content, dicts and sets without
regard to order.

Keys are found by a sharper test than equality, under which equal numbers of different types may
still be different keys. A collection with a single key is the exception: there the key is compared
by equality alone.
-/

namespace DottedPath.Store

/-- Equality that goes at most the given number of containers deep. With `asKey` the scalars inside
must be the same keys. -/
def equalsWithin (s : Store) : (depth : Nat) → (asKey : Bool) → Value → Value → Bool
  | 0, _, _, _ => false
  | _ + 1, asKey, .scalar x, .scalar y => if asKey then x.sameKey y else x.equals y
  | n + 1, asKey, .ref g, .ref h =>
    g == h ||
      match s.get? g, s.get? h with
      | some (.list xs), some (.list ys) => itemsEqual (s.equalsWithin n asKey) xs ys
      | some (.tuple xs), some (.tuple ys) => itemsEqual (s.equalsWithin n asKey) xs ys
      | some (.dict es), some (.dict fs) =>
        es.length == fs.length && es.all fun (k, v) =>
          match fs.find? fun (k', _) => s.equalsWithin n (asKey || fs.length != 1) k k' with
          | some (_, w) => s.equalsWithin n asKey w v
          | none => false
      | some (.set xs), some (.set ys) => membersEqual n asKey xs ys
      | some (.set xs), some (.frozenset ys) => membersEqual n asKey xs ys
      | some (.frozenset xs), some (.set ys) => membersEqual n asKey xs ys
      | some (.frozenset xs), some (.frozenset ys) => membersEqual n asKey xs ys
      | some (.object a as _), some (.object b bs _) =>
        a == b && as.length == bs.length && as.all fun (name, v) =>
          match bs.lookup name with
          | some w => s.equalsWithin n asKey w v
          | none => false
      | _, _ => false
  | _ + 1, _, _, _ => false
where
  /-- Equal one by one. -/
  itemsEqual (eq : Value → Value → Bool) : List Value → List Value → Bool
    | [], [] => true
    | x :: xs, y :: ys => eq x y && itemsEqual eq xs ys
    | _, _ => false
  /-- Each member of one is a member of the other, and they are as many. -/
  membersEqual (n : Nat) (asKey : Bool) (xs ys : List Value) : Bool :=
    xs.length == ys.length && xs.all fun x =>
      ys.any fun y => s.equalsWithin n (asKey || ys.length != 1) x y

/-- A comparison that ends goes through no pair of containers twice on its way down, so it goes no
deeper than the number of pairs. -/
def comparisonDepth (s : Store) : Nat :=
  (s.size + 1) * (s.size + 1) + 1

/-- Equality of values. -/
def equals (s : Store) (a b : Value) : Bool :=
  s.equalsWithin s.comparisonDepth false a b

/-- Equality of keys. -/
def sameKey (s : Store) (a b : Value) : Bool :=
  s.equalsWithin s.comparisonDepth true a b

/-- The test by which a collection of `count` keys looks up a key. -/
def findsKey (s : Store) (count : Nat) (key stored : Value) : Bool :=
  s.equalsWithin s.comparisonDepth (count != 1) key stored

/-- The position of a key in a dict or a set. -/
def keyIndex? (s : Store) (keys : List Value) (key : Value) : Option Nat :=
  keys.findIdx? (s.findsKey keys.length key)

/-- The value of a key in a dict. -/
def lookup? (s : Store) (entries : List (Value × Value)) (key : Value) : Option Value :=
  (entries.find? fun (k, _) => s.findsKey entries.length key k).map Prod.snd

/-- The entries after a write: a key that is there keeps its place and takes the new value. -/
def insertEntry (s : Store) (entries : List (Value × Value)) (key value : Value) :
    List (Value × Value) :=
  match entries.findIdx? fun (k, _) => s.sameKey key k with
  | some i => entries.modify i fun (k, _) => (k, value)
  | none => entries ++ [(key, value)]

/-- The entries without a key. -/
def eraseEntry (s : Store) (entries : List (Value × Value)) (key : Value) :
    List (Value × Value) :=
  match s.keyIndex? (entries.map Prod.fst) key with
  | some i => entries.eraseIdx i
  | none => entries

/-- The members after an insertion. -/
def insertMember (s : Store) (members : List Value) (m : Value) : List Value :=
  if members.any (s.sameKey m) then members else members ++ [m]

/-- A list of entries as a dict holds it: a repeated key keeps its first place and last value. -/
def dictOf (s : Store) (entries : List (Value × Value)) : List (Value × Value) :=
  entries.foldl (fun es (k, v) => s.insertEntry es k v) []

/-- A list of values as a set holds it: repeated members count once. -/
def membersOf (s : Store) (items : List Value) : List Value :=
  items.foldl s.insertMember []

end DottedPath.Store

namespace DottedPath

/-- The attributes after a write. -/
def insertAttr (attrs : List (String × Value)) (name : String) (v : Value) :
    List (String × Value) :=
  match attrs.findIdx? fun (n, _) => n == name with
  | some i => attrs.modify i fun (n, _) => (n, v)
  | none => attrs ++ [(name, v)]

/-- The attributes without one. -/
def eraseAttr (attrs : List (String × Value)) (name : String) : List (String × Value) :=
  attrs.filter fun (n, _) => n != name

/-- A list of attributes as an object holds it. -/
def attrsOf (attrs : List (String × Value)) : List (String × Value) :=
  attrs.foldl (fun as (n, v) => insertAttr as n v) []

end DottedPath

/-!
### Order

Scalars by their own order, lists with lists and tuples with tuples by the first position where they
differ. Everything else is incomparable, and so are sequences with incomparable values at the
deciding position.
-/

namespace DottedPath.Store

/-- The order of sequences under an order of their items. -/
def sequenceOrder? (order : Value → Value → Option Ordering) :
    List Value → List Value → Option Ordering
  | [], [] => some .eq
  | [], _ :: _ => some .lt
  | _ :: _, [] => some .gt
  | x :: xs, y :: ys =>
    match order x y with
    | some .eq => sequenceOrder? order xs ys
    | answer => answer

/-- The order of values, looked at no deeper than the given number of containers. -/
def orderWithin? (s : Store) : Nat → Value → Value → Option Ordering
  | 0, _, _ => none
  | _ + 1, .scalar x, .scalar y => x.order? y
  | n + 1, .ref g, .ref h =>
    match s.get? g, s.get? h with
    | some (.list xs), some (.list ys) => sequenceOrder? (s.orderWithin? n) xs ys
    | some (.tuple xs), some (.tuple ys) => sequenceOrder? (s.orderWithin? n) xs ys
    | _, _ => none
  | _ + 1, _, _ => none

/-- The order of values; `none` if they are incomparable. -/
def order? (s : Store) (a b : Value) : Option Ordering :=
  s.orderWithin? s.comparisonDepth a b

end DottedPath.Store

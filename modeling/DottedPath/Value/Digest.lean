import DottedPath.Value.Comparison

/-!
What a value feeds to a hasher. Booleans feed what the integers zero and one do, and so do whole
doubles; sets and frozen sets feed the same. The parts of a list or a tuple are fed in order. Each
entry, member or attribute is hashed by a hasher of its own, and the sum of the hashes is fed, which
does not depend on their order.
-/

namespace DottedPath

/-- A write to a hasher. -/
inductive HashWrite where
  | tag (kind : UInt8)
  | int (i : Int)
  | word (w : UInt64)
  | text (t : String)
  | bytes (bs : List UInt8)
deriving DecidableEq, Repr

/-- A hasher that is given some writes and is asked for the hash. -/
abbrev Hasher := List HashWrite → UInt64

namespace Scalar

/-- What a scalar feeds to a hasher. -/
def fed : Scalar → List HashWrite
  | null => [.tag 2]
  | bool b => [.tag 0, .int (if b then 1 else 0)]
  | int i => [.tag 0, .int i]
  | float f =>
    match integerKey? f with
    | some i => [.tag 0, .int i]
    | none => [.tag 1, .word f.toBits]
  | str t => [.tag 3, .text t]
  | bytes bs => [.tag 4, .bytes bs]

end Scalar

namespace Digest

/-- The word with its bits moved up by seven places, the topmost ones to the bottom. -/
def rotated (w : UInt64) : UInt64 := (w <<< 7) ||| (w >>> 57)

/-- The hash of an entry. -/
def entry (key value : UInt64) : UInt64 := rotated key ^^^ value

/-- The hash of an attribute. -/
def attr (name value : UInt64) : UInt64 := name ^^^ value

/-- The sum of hashes, without regard to overflow. -/
def total (hashes : List UInt64) : UInt64 := hashes.foldl (· + ·) 0

end Digest

namespace Store

/-- What a value feeds to a hasher, down to a number of levels. -/
def fedWithin (s : Store) (hasher : Hasher) : (depth : Nat) → Value → List HashWrite
  | 0, _ => []
  | _ + 1, .scalar x => x.fed
  | n + 1, .ref h =>
    let hash v := hasher (s.fedWithin hasher n v)
    match s.get? h with
    | some (.list xs) => .tag 5 :: xs.flatMap (s.fedWithin hasher n)
    | some (.tuple xs) => .tag 6 :: xs.flatMap (s.fedWithin hasher n)
    | some (.dict es) =>
      [.tag 7, .word (Digest.total (es.map fun (k, v) => Digest.entry (hash k) (hash v)))]
    | some (.set ms) => [.tag 8, .word (Digest.total (ms.map hash))]
    | some (.frozenset ms) => [.tag 8, .word (Digest.total (ms.map hash))]
    | some (.object name attrs _) =>
      let sum := Digest.total (attrs.map fun (key, v) =>
        Digest.attr (hasher (Scalar.str key).fed) (hash v))
      [.tag 9, .text name, .word sum]
    | none => []

/-- What a value feeds to a hasher. One that does not hold itself has no more levels than there are
containers, and one for scalars. -/
def fed (s : Store) (hasher : Hasher) (v : Value) : List HashWrite :=
  s.fedWithin hasher (s.size + 1) v

/-- The position of a key in a hash table, which has a hasher of its own: the key must have the
same hash as the one that is looked up, and be equal to it. -/
def hashIndex? (s : Store) (hasher table : Hasher) (keys : List Value) (key : Value) :
    Option Nat :=
  keys.findIdx? fun k =>
    table (s.fed hasher key) == table (s.fed hasher k) && s.equals key k

end Store

end DottedPath

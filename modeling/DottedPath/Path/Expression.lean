import DottedPath.Path.Depth
import DottedPath.Path.Literal
import DottedPath.Path.Slice
import DottedPath.Regex.Compiled
import DottedPath.Value.Kind

/-!
Path expressions: a sequence of segments, applied from left to right, and a chain of transforms
applied to what they yield. Two expressions are the same if they are built alike, where regular
expressions compare by the text they are shown as and doubles as numbers.
-/

namespace DottedPath

/-- What a key, attribute or slot access selects. -/
inductive KeyPattern where
  | literal (key : Literal)
  | wildcard
  | regex (re : TextRegex)
deriving Inhabited, BEq

/-- The three ways to go from a container to a part of it. -/
inductive Accessor where
  | key
  | attr
  | slot
deriving DecidableEq, Repr

/-- A call of a transform. With `raises` a failure is an error; without, the value stays as it
is. -/
structure TransformCall where
  name : String
  args : List Literal
  named : List (String × Literal)
  raises : Bool
deriving Inhabited, BEq

/-- Comparison operators. -/
inductive Comparison where
  | eq | ne | lt | gt | le | ge
deriving DecidableEq, Inhabited, Repr

/-- The sequences that a sequence pattern accepts. -/
inductive SequenceKind where
  | any
  | list
  | tuple
deriving DecidableEq, Repr

/-- The sets that a set pattern accepts. -/
inductive SetKind where
  | any
  | set
  | frozenset
deriving DecidableEq, Repr

mutual

/-- What a value is compared with. -/
inductive ValuePattern where
  | literal (value : Literal)
  | wildcard
  | regex (re : TextRegex)
  | textGlob (parts : List GlobPart) (re : TextRegex)
  | bytesGlob (parts : List GlobPart) (re : BytesRegex)
  | sequence (kind : SequenceKind) (elements : List Element)
  | set (kind : SetKind) (elements : List Element)
  /-- `marked` if the pattern is written with its letter in front. -/
  | dict (marked : Bool) (entries : List Entry)
  | group (alternatives : List ValuePattern)

/-- A run of any units or elements, of a number within bounds, each of which matches the inner
pattern if there is one. -/
structure Glob where
  pattern : Option ValuePattern
  min : Nat
  max : Option Nat

/-- A fragment of a text glob. -/
inductive GlobPart where
  | text (s : String)
  | bytes (bs : List UInt8)
  | glob (g : Glob)

/-- An element of a sequence or set pattern. -/
inductive Element where
  | value (p : ValuePattern)
  | glob (g : Glob)

/-- An entry of a dict pattern. A glob stands for entries whose keys it accepts. -/
inductive Entry where
  | pair (key value : ValuePattern)
  | glob (g : Glob) (value : Option ValuePattern)

end

instance : Inhabited ValuePattern := ⟨.wildcard⟩

instance : Inhabited Glob := ⟨none, 0, none⟩

instance : Inhabited GlobPart := ⟨.glob default⟩

instance : Inhabited Element := ⟨.value .wildcard⟩

instance : Inhabited Entry := ⟨.pair .wildcard .wildcard⟩

/-- A test of a value: the transforms applied first, the comparison, and what it is compared
with. -/
structure ValueTest where
  transforms : List TransformCall
  comparison : Comparison
  pattern : ValuePattern
deriving Inhabited

/-- Admits values of some kinds, or of all but these. -/
structure KindRestriction where
  kinds : List Kind
  negated : Bool
deriving DecidableEq, Repr

/-- Admits a kind. -/
def KindRestriction.admits (r : KindRestriction) (k : Kind) : Bool :=
  r.kinds.contains k != r.negated

/-- What a group branch does to the branches after it, if it matched: nothing, ends the group, or
keeps them away from what it matched. -/
inductive Cut where
  | none
  | hard
  | soft
deriving DecidableEq, Repr

/-- How the branches of a group are joined. -/
inductive GroupKind where
  | or
  | and
  | not
deriving DecidableEq, Repr

mutual

/-- A step of a path. -/
inductive Segment where
  /-- The value itself. -/
  | root
  /-- Makes updates of removals and removals of updates. -/
  | invert
  | access (accessor : Accessor) (key : KeyPattern) (filter : Option Filter) (first : Bool)
  /-- The place after the last element; `unique` skips what is there already. -/
  | append (unique : Bool)
  | slice (range : SliceRange)
  /-- The elements of a sequence that pass a filter, as one sequence. -/
  | sliceFilter (filter : Filter) (first : Bool)
  /-- Goes down any number of levels: along the branches if there are any, else by keys, through
  lists. -/
  | recursive (key : KeyPattern) (branches : List Branch) (depth : DepthRange)
      (filter : Option Filter) (first : Bool)
  | group (kind : GroupKind) (branches : List Branch) (first : Bool)
  /-- Matches, but is not written. -/
  | nop (inner : Segment)
  /-- Keeps the matches whose values pass a test. -/
  | guard (inner : Segment) (test : ValueTest)
  /-- Applies only to containers of certain kinds. -/
  | restrict (inner : Segment) (kinds : KindRestriction)

/-- One alternative of a group. -/
inductive Branch where
  | mk (segments : List Segment) (cut : Cut)

/-- A condition on a candidate. -/
inductive Filter where
  /-- Some value at the inner path passes the test. -/
  | compare (key : List Segment) (test : ValueTest)
  | and (items : List Filter)
  | or (items : List Filter)
  | not (inner : Filter)

end

instance : Inhabited Segment := ⟨.root⟩

instance : Inhabited Branch := ⟨.mk [] .none⟩

instance : Inhabited Filter := ⟨.and []⟩

namespace Branch

def segments : Branch → List Segment
  | mk segments _ => segments

def cut : Branch → Cut
  | mk _ cut => cut

end Branch

/-- A path with its transforms. -/
structure PathExpression where
  segments : List Segment
  transforms : List TransformCall
deriving Inhabited

/-- Can select more than one key. -/
def KeyPattern.isPattern : KeyPattern → Bool
  | literal _ => false
  | _ => true

namespace Segment

/-- Can match more than one place. -/
def isPattern : Segment → Bool
  | access _ key _ _ => key.isPattern
  | recursive .. => true
  | group .. => true
  | nop inner => inner.isPattern
  | guard inner _ => inner.isPattern
  | restrict inner _ => inner.isPattern
  | _ => false

/-- The segment without its wrappers. -/
def unwrapped : Segment → Segment
  | nop inner => inner.unwrapped
  | guard inner _ => inner.unwrapped
  | restrict inner _ => inner.unwrapped
  | s => s

/-- A plain access with a literal. -/
def literal (accessor : Accessor) (key : Literal) : Segment :=
  access accessor (.literal key) Option.none false

mutual

/-- Has a part that is not written. -/
def hasNop : Segment → Bool
  | nop _ => true
  | guard inner _ => inner.hasNop
  | restrict inner _ => inner.hasNop
  | group _ branches _ => branchesHaveNop branches
  | _ => false

def branchesHaveNop : List Branch → Bool
  | [] => false
  | .mk segments _ :: bs => segmentsHaveNop segments || branchesHaveNop bs

def segmentsHaveNop : List Segment → Bool
  | [] => false
  | s :: ss => s.hasNop || segmentsHaveNop ss

end

end Segment

/-- Names exactly one place, if any. -/
def Branch.isConcrete (b : Branch) : Bool :=
  !b.segments.any Segment.isPattern

namespace PathExpression

/-- Can match more than one place. -/
def isPattern (e : PathExpression) : Bool :=
  e.segments.any Segment.isPattern

/-- Has an invert marker. -/
def isInverted (e : PathExpression) : Bool :=
  e.segments.any fun
    | .invert => true
    | _ => false

end PathExpression

mutual

def ValuePattern.beq : ValuePattern → ValuePattern → Bool
  | .literal a, .literal b => a == b
  | .wildcard, .wildcard => true
  | .regex a, .regex b => a == b
  | .textGlob as a, .textGlob bs b => GlobPart.beqAll as bs && a == b
  | .bytesGlob as a, .bytesGlob bs b => GlobPart.beqAll as bs && a == b
  | .sequence k as, .sequence l bs => k == l && Element.beqAll as bs
  | .set k as, .set l bs => k == l && Element.beqAll as bs
  | .dict k as, .dict l bs => k == l && Entry.beqAll as bs
  | .group as, .group bs => ValuePattern.beqAll as bs
  | _, _ => false

def ValuePattern.beqAll : List ValuePattern → List ValuePattern → Bool
  | [], [] => true
  | a :: as, b :: bs => ValuePattern.beq a b && ValuePattern.beqAll as bs
  | _, _ => false

def ValuePattern.beqInner : Option ValuePattern → Option ValuePattern → Bool
  | some a, some b => ValuePattern.beq a b
  | none, none => true
  | _, _ => false

def Glob.beq : Glob → Glob → Bool
  | ⟨p, lo, hi⟩, ⟨q, lo', hi'⟩ => ValuePattern.beqInner p q && lo == lo' && hi == hi'

def GlobPart.beq : GlobPart → GlobPart → Bool
  | .text s, .text t => s == t
  | .bytes as, .bytes bs => as == bs
  | .glob a, .glob b => Glob.beq a b
  | _, _ => false

def GlobPart.beqAll : List GlobPart → List GlobPart → Bool
  | [], [] => true
  | a :: as, b :: bs => GlobPart.beq a b && GlobPart.beqAll as bs
  | _, _ => false

def Element.beq : Element → Element → Bool
  | .value a, .value b => ValuePattern.beq a b
  | .glob a, .glob b => Glob.beq a b
  | _, _ => false

def Element.beqAll : List Element → List Element → Bool
  | [], [] => true
  | a :: as, b :: bs => Element.beq a b && Element.beqAll as bs
  | _, _ => false

def Entry.beq : Entry → Entry → Bool
  | .pair k v, .pair l w => ValuePattern.beq k l && ValuePattern.beq v w
  | .glob g v, .glob h w => Glob.beq g h && ValuePattern.beqInner v w
  | _, _ => false

def Entry.beqAll : List Entry → List Entry → Bool
  | [], [] => true
  | a :: as, b :: bs => Entry.beq a b && Entry.beqAll as bs
  | _, _ => false

end

instance : BEq ValuePattern := ⟨ValuePattern.beq⟩

/-- The same test. -/
def ValueTest.beq (a b : ValueTest) : Bool :=
  a.transforms == b.transforms && a.comparison == b.comparison && a.pattern == b.pattern

instance : BEq ValueTest := ⟨ValueTest.beq⟩

mutual

def Segment.beq : Segment → Segment → Bool
  | .root, .root => true
  | .invert, .invert => true
  | .access a k f x, .access b l g y => a == b && k == l && Filter.beqOption f g && x == y
  | .append x, .append y => x == y
  | .slice r, .slice t => r == t
  | .sliceFilter f x, .sliceFilter g y => Filter.beq f g && x == y
  | .recursive k as d f x, .recursive l bs e g y =>
    k == l && Branch.beqAll as bs && d == e && Filter.beqOption f g && x == y
  | .group k as x, .group l bs y => k == l && Branch.beqAll as bs && x == y
  | .nop a, .nop b => Segment.beq a b
  | .guard a t, .guard b u => Segment.beq a b && t == u
  | .restrict a t, .restrict b u => Segment.beq a b && t == u
  | _, _ => false

def Segment.beqAll : List Segment → List Segment → Bool
  | [], [] => true
  | a :: as, b :: bs => Segment.beq a b && Segment.beqAll as bs
  | _, _ => false

def Branch.beq : Branch → Branch → Bool
  | .mk as c, .mk bs d => Segment.beqAll as bs && c == d

def Branch.beqAll : List Branch → List Branch → Bool
  | [], [] => true
  | a :: as, b :: bs => Branch.beq a b && Branch.beqAll as bs
  | _, _ => false

def Filter.beq : Filter → Filter → Bool
  | .compare as t, .compare bs u => Segment.beqAll as bs && t == u
  | .and as, .and bs => Filter.beqAll as bs
  | .or as, .or bs => Filter.beqAll as bs
  | .not a, .not b => Filter.beq a b
  | _, _ => false

def Filter.beqAll : List Filter → List Filter → Bool
  | [], [] => true
  | a :: as, b :: bs => Filter.beq a b && Filter.beqAll as bs
  | _, _ => false

def Filter.beqOption : Option Filter → Option Filter → Bool
  | none, none => true
  | some a, some b => Filter.beq a b
  | _, _ => false

end

instance : BEq Segment := ⟨Segment.beq⟩

/-- The same path and the same transforms. -/
def PathExpression.beq (a b : PathExpression) : Bool :=
  a.segments == b.segments && a.transforms == b.transforms

instance : BEq PathExpression := ⟨PathExpression.beq⟩

/-- The symbol of a comparison. -/
def Comparison.symbol : Comparison → String
  | eq => "="
  | ne => "!="
  | lt => "<"
  | gt => ">"
  | le => "<="
  | ge => ">="

/-- The comparisons in the order in which they are tried on a text: no symbol comes after one that
it begins with. -/
def Comparison.all : List Comparison := [le, ge, ne, lt, gt, eq]

/-- Asks for the order of two values. -/
def Comparison.isOrdering : Comparison → Bool
  | eq => false
  | ne => false
  | _ => true

/-- Whether an order of the two sides passes; incomparable sides never do. -/
def Comparison.accepts : Comparison → Option Ordering → Bool
  | _, none => false
  | lt, some o => o == .lt
  | gt, some o => o == .gt
  | le, some o => o != .gt
  | ge, some o => o != .lt
  | eq, some o => o == .eq
  | ne, some o => o != .eq

end DottedPath

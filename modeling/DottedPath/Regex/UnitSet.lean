import DottedPath.Text.Alphanumeric
import DottedPath.Text.Case

/-!
Sets of units: the code points of a text or the byte values of bytes. Character classes of regular
expressions are built from ranges by the set operations, and by closing them under case.
-/

namespace DottedPath.Regex

open Text

/-- A set of units. The complement is taken in all units. -/
inductive UnitSet where
  | ranges (rs : Ranges)
  | union (a b : UnitSet)
  | inter (a b : UnitSet)
  | minus (a b : UnitSet)
  | symmDiff (a b : UnitSet)
  | compl (a : UnitSet)
  | foldCase (a : UnitSet)
  | foldAscii (a : UnitSet)
deriving Inhabited

/-- The code points that differ from one only in case, itself included. -/
def caseVariants (n : Nat) : List Nat :=
  let f := mapRuns foldRuns n
  f :: foldRuns.filterMap fun r =>
    let m := ((f : Int) - r.delta).toNat
    if r.map? m == some f then some m else none

/-- The same for ASCII letters only. -/
def asciiVariants (n : Nat) : List Nat :=
  if 65 ≤ n ∧ n ≤ 90 then [n, n + 32]
  else if 97 ≤ n ∧ n ≤ 122 then [n, n - 32]
  else [n]

namespace UnitSet

/-- Membership. -/
def contains : UnitSet → Nat → Bool
  | ranges rs, n => rs.contains n
  | union a b, n => a.contains n || b.contains n
  | inter a b, n => a.contains n && b.contains n
  | minus a b, n => a.contains n && !b.contains n
  | symmDiff a b, n => a.contains n != b.contains n
  | compl a, n => !a.contains n
  | foldCase a, n => (caseVariants n).any a.contains
  | foldAscii a, n => (asciiVariants n).any a.contains

/-- An estimate of the number of ranges that the set has when it is written out. -/
def weight : UnitSet → Nat
  | ranges rs => rs.length
  | union a b => a.weight + b.weight
  | inter a b => a.weight + b.weight
  | minus a b => a.weight + b.weight
  | symmDiff a b => a.weight + b.weight
  | compl a => a.weight + 1
  | foldCase a => 2 * a.weight
  | foldAscii a => 2 * a.weight

def none : UnitSet := ranges []

def single (n : Nat) : UnitSet := ranges [(n, n)]

def ofTables (tables : List Ranges) : UnitSet :=
  tables.foldl (fun a t => union a (ranges t)) none

/-- Every unit. -/
def all : UnitSet := ranges [(0, 0x10FFFF)]

/-- Every unit but the line feed. -/
def notNewline : UnitSet := compl (single 10)

def asciiDigit : UnitSet := ranges [(48, 57)]

def asciiSpace : UnitSet := ranges [(9, 13), (32, 32)]

def asciiWord : UnitSet := ranges [(48, 57), (65, 90), (95, 95), (97, 122)]

def digit : UnitSet := ranges Category.decimalNumber

/-- The blank characters. -/
def space : UnitSet :=
  ranges [(9, 13), (0x20, 0x20), (0x85, 0x85), (0xA0, 0xA0), (0x1680, 0x1680), (0x2000, 0x200A),
    (0x2028, 0x2029), (0x202F, 0x202F), (0x205F, 0x205F), (0x3000, 0x3000)]

/-- Letters, marks, digits, connectors and joiners. -/
def word : UnitSet :=
  ofTables (letterTables ++
    [Category.letterNumber, Category.otherAlphabetic, Category.nonspacingMark,
      Category.spacingMark, Category.enclosingMark, Category.decimalNumber,
      [(0x5F, 0x5F), (0x203F, 0x2040), (0x2054, 0x2054), (0xFE33, 0xFE34), (0xFE4D, 0xFE4F),
        (0xFF3F, 0xFF3F)], [(0x200C, 0x200D)]])

/-- Has no unit past ASCII, as far as bytes go. -/
def isAscii (a : UnitSet) : Bool :=
  (List.range 128).all fun i => !a.contains (128 + i)

end UnitSet

end DottedPath.Regex

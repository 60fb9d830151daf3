/-!
Sets of code points as ascending ranges, and the compact text that the tables of this folder are
written in: hexadecimal bounds, `41-5A` for a range and `AA` for a single code point.
-/

namespace DottedPath.Text

/-- A set of code points: the bounds of its ranges, in ascending order. -/
abbrev Ranges := List (Nat × Nat)

/-- Lies in one of the ranges. -/
def Ranges.contains (rs : Ranges) (n : Nat) : Bool :=
  rs.any fun (lo, hi) => lo ≤ n && n ≤ hi

/-- A hexadecimal number in capital letters. -/
def readHex (digits : List Char) : Nat :=
  digits.foldl (fun n c => n * 16 + (if c ≤ '9' then c.toNat - 48 else c.toNat - 55)) 0

/-- One entry of a table. -/
def readRange (entry : List Char) : Nat × Nat :=
  let lo := entry.takeWhile (· != '-')
  match entry.dropWhile (· != '-') with
  | [] => (readHex lo, readHex lo)
  | _ :: hi => (readHex lo, readHex hi)

/-- A table: lines of entries with blanks between them. -/
def readRanges (lines : List String) : Ranges :=
  (lines.flatMap fun l => l.splitOn " ").map fun e => readRange e.toList

end DottedPath.Text

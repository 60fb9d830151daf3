import DottedPath.Regex.UnitSet

/-!
Regular expressions and their matching. A match is computed on the whole text at once: the marks say
which positions can be reached, and each expression moves a row of marks to the row of positions
where a match that starts at a marked one can end.
-/

namespace DottedPath.Regex

/-- A test of a position by the units before and after it. -/
inductive Look where
  | textStart
  | textEnd
  | lineStart
  | lineEnd
  | wordBoundary (unicode : Bool)
  | notWordBoundary (unicode : Bool)
  | wordStart (unicode : Bool)
  | wordEnd (unicode : Bool)
  | wordStartHalf (unicode : Bool)
  | wordEndHalf (unicode : Bool)
deriving DecidableEq, Repr

/-- Is a word character; `none` stands for the end of the text. -/
def isWordUnit (unicode : Bool) : Option Nat → Bool
  | none => false
  | some n => if unicode then UnitSet.word.contains n else UnitSet.asciiWord.contains n

/-- The test at a position between two units. -/
def Look.holds (l : Look) (before after : Option Nat) : Bool :=
  match l with
  | textStart => before.isNone
  | textEnd => after.isNone
  | lineStart => before.isNone || before == some 10
  | lineEnd => after.isNone || after == some 10
  | wordBoundary u => isWordUnit u before != isWordUnit u after
  | notWordBoundary u => isWordUnit u before == isWordUnit u after
  | wordStart u => !isWordUnit u before && isWordUnit u after
  | wordEnd u => isWordUnit u before && !isWordUnit u after
  | wordStartHalf u => !isWordUnit u before
  | wordEndHalf u => !isWordUnit u after

/-- A regular expression over units. -/
inductive Pattern where
  | empty
  | unit (set : UnitSet)
  | look (at_ : Look)
  | seq (a b : Pattern)
  | alt (a b : Pattern)
  | repeated (a : Pattern) (min : Nat) (max : Option Nat)
deriving Inhabited

/-- One mark per position of a text, its end included. -/
abbrev Marks := List Bool

/-- The marks of either row. -/
def joinMarks (a b : Marks) : Marks :=
  List.zipWith (· || ·) a b

/-- The units before and after each position. -/
def surroundings (before : Option Nat) : List Nat → List (Option Nat × Option Nat)
  | [] => [(before, none)]
  | n :: ns => (before, some n) :: surroundings (some n) ns

/-- Applies a step a number of times, leaving off when it changes nothing. -/
def iterate (step : Marks → Marks) : Nat → Marks → Marks
  | 0, marks => marks
  | n + 1, marks =>
    let next := step marks
    if next == marks then marks else iterate step n next

/-- The positions where a match that starts at a marked one can end. -/
def Pattern.advance (text : List Nat) : Pattern → Marks → Marks
  | empty, marks => marks
  | unit set, marks =>
    false :: List.zipWith (fun n marked => marked && set.contains n) text marks
  | look l, marks =>
    List.zipWith (fun (b, a) marked => marked && l.holds b a) (surroundings none text) marks
  | seq a b, marks => b.advance text (a.advance text marks)
  | alt a b, marks => joinMarks (a.advance text marks) (b.advance text marks)
  | repeated a min max, marks =>
    let required := iterate (a.advance text) min marks
    let more := fun row => joinMarks row (a.advance text row)
    match max with
    | none => iterate more (text.length + 1) required
    | some max => iterate more (max - min) required

/-- A match starts and ends somewhere in the text. -/
def Pattern.matchesWithin (p : Pattern) (text : List Nat) : Bool :=
  (p.advance text (List.replicate (text.length + 1) true)).any id

/-- An estimate of the memory that a compiled expression takes. -/
def Pattern.cost : Pattern → Nat
  | empty => 40
  | unit set => 60 * set.weight + (if set.isAscii then 0 else 500)
  | look _ => 40
  | seq a b => a.cost + b.cost
  | alt a b => a.cost + b.cost + 40
  | repeated a min max => (a.cost + 40) * (max.getD (min + 1)) + 40

/-- Expressions that would take more memory than this are refused. -/
def costLimit : Nat := 10485760

end DottedPath.Regex

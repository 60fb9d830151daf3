import DottedPath.Proofs.Path.Unbounded.Segment

/-!
# Reading a path comes to an end

`unbounded` is the grammar in which segments, groups and filters may nest without a bound, which
solves the equation `g = g.deepen`.  Every recursion and every loop of the readers that are built
from it ends (`Grammar.Terminating`), and the grammar with a bound that a path is read by gives the
same answer on its text.  A failure lies inside the text or at its end, also the one that is kept
from the first reading when the text is read again as a group without parentheses.

## Main statements

- `terminating_unbounded`: all recursions and loops end.
- `PathExpression.parse_terminates`: so a text is read to the end or to a failure inside of it.
-/

namespace DottedPath

namespace Parse

variable {n : Nat}

/-! ### Whole expressions -/

namespace Grammar.AgreeBelow

variable {g g' : Grammar} (h : g.AgreeBelow n g')

include h

theorem topPath : Agree n (topPath g) (Parse.topPath g') :=
  .bind (h.pathFrom .top .key) fun _ => .get fun _ _ => .ite (.pure _) (.fail _)

theorem implicitGroup : Agree n (implicitGroup g) (Parse.implicitGroup g') :=
  .bind (h.branchesFrom .key) fun _ => .bind .skipBlanks fun _ => .get fun _ _ =>
    .ite (.pure _) (.fail _)

theorem topSegments : Agree n (topSegments g) (Parse.topSegments g') := by
  intro cs hcs
  obtain ⟨hpath, hpathInside⟩ := h.topPath cs hcs
  obtain ⟨hgroup, hgroupInside⟩ := h.implicitGroup cs hcs
  unfold SameAt Parse.topSegments
  rw [hpath, hgroup]
  cases hrun : Parse.topPath g' cs with
  | ok p =>
    rw [hrun] at hpathInside
    exact ⟨rfl, hpathInside⟩
  | error e =>
    rw [hrun] at hpathInside
    -- where the second reading fails too, the failure of the first one is kept
    cases hrun' : Parse.implicitGroup g' cs with
    | ok p =>
      rw [hrun'] at hgroupInside
      exact ⟨rfl, hgroupInside⟩
    | error _ => exact ⟨rfl, hpathInside⟩

theorem expressionSegments : Agree n (expressionSegments g) (Parse.expressionSegments g') :=
  .bind .peek fun _ => .ite (.pure _) (.bind (.eat _) fun _ =>
    .ite (.map h.topSegments _) h.topSegments)

theorem expression : Agree n (expression g) (Parse.expression g') :=
  .bind h.expressionSegments fun _ => .bind (.transforms .trailing) fun _ => .get fun _ _ =>
    .ite (.pure _) (.fail _)

end Grammar.AgreeBelow

/-! ### Nesting without a bound -/

/-- The grammar of things nested any number of times. -/
def unbounded : Grammar := Readers.limit grammar

/-- Every recursion and every loop of the readers of a path comes to an end, where what is nested in
segments is read by the grammar. -/
structure Grammar.Terminating (g : Grammar) : Prop where
  /-- Filters, branches and paths in each other. -/
  nested : Terminates deepen g
  /-- Value patterns in each other. -/
  patterns : Terminates valuePatternStep valuePattern
  /-- Segments after each other. -/
  segments (place : Place) :
    Terminates (manyStep (g.nextSegment place)) (many (g.nextSegment place))
  /-- Terms of a conjunction. -/
  terms (lead : Accessor) :
    Terminates (separatedStep '&' (g.groupTerm lead)) (separated '&' (g.groupTerm lead))
  /-- Branches of a group. -/
  branches (lead : Accessor) :
    Terminates (separatedStep ',' (branchOf (g.conjunction lead))) (g.branchesFrom lead)
  /-- Branches that a recursive segment follows. -/
  followed : Terminates (separatedStep ',' (branchOf (g.path .branch .key)))
    (separated ',' (branchOf (g.path .branch .key)))
  /-- Depth windows and restrictions of a recursive segment. -/
  marks (key : KeyPattern) : Terminates (recursiveMarksStep key) (recursiveMarks key)
  /-- Kinds of a restriction. -/
  kinds : Terminates (separatedStep ',' kindName) (separated ',' kindName)
  /-- Filters that must all hold. -/
  conjuncts : Terminates (manyStep (nextAfter '&' false g.filterTerm))
    (many (nextAfter '&' false g.filterTerm))
  /-- Filters of which one must hold. -/
  alternatives : Terminates (manyStep (nextAfter ',' true g.filterAnd))
    (many (nextAfter ',' true g.filterAnd))
  /-- Transforms of a chain. -/
  calls (place : ChainPlace) : Terminates (manyStep (transformCall place)) (transforms place)
  /-- Arguments of a transform. -/
  arguments (place : ChainPlace) : Terminates (argumentsStep place) (arguments place)
  /-- Elements of a sequence or a set. -/
  elements : Terminates (separatedStep ',' (element valuePattern))
    (separated ',' (element valuePattern))
  /-- Entries of a dict. -/
  entries : Terminates (separatedStep ',' (entry valuePattern)) (separated ',' (entry valuePattern))
  /-- Alternatives of a value pattern. -/
  values : Terminates (separatedStep ',' valuePattern) (separated ',' valuePattern)
  /-- Parts of a text glob. -/
  parts : Terminates globPartsStep globParts

theorem terminating_unbounded : unbounded.Terminating := by
  have hg (n : Nat) : unbounded.AgreeBelow n unbounded := terminates_deepen.agree_self n
  exact {
    nested := terminates_deepen
    patterns := terminates_valuePattern
    segments := fun place => (advances_nextSegment hg place).many
    terms := fun lead => terminates_separated (fun n => (hg n).groupTerm lead) _
    branches := fun lead => terminates_separated (fun n => .branchOf ((hg n).conjunction lead)) _
    followed := terminates_separated
      (fun n => .branchOf ((hg (n + 1)).path .branch .key n (Nat.lt_succ_self n))) _
    marks := Grammar.terminates_recursiveMarks
    kinds := terminates_separated (fun _ => .kindName) _
    conjuncts := (advances_nextAfter (fun n => (hg n).filterTerm) _ _).many
    alternatives := (advances_nextAfter (fun n => (hg n).filterAnd) _ _).many
    calls := terminates_transforms
    arguments := terminates_arguments
    elements := terminates_separated (fun _ => .element .valuePattern) _
    entries := terminates_separated (fun _ => .entry .valuePattern) _
    values := terminates_separated (fun _ => .valuePattern) _
    parts := terminates_globParts }

/-- The bounded grammar reads texts up to its depth as the unbounded one does. -/
theorem grammar_agreeBelow_unbounded (n : Nat) : (grammar n).AgreeBelow n unbounded := by
  have hdeepen (i : Nat) : grammar (i + 1) = (grammar i).deepen := rfl
  rw [eq_iterate_of_succ hdeepen n]
  exact terminates_deepen.ends n _

end Parse

open Parse

namespace PathExpression

/-- Reads a path expression by the readers of a grammar. -/
def parseBy (g : Grammar) (text : String) : Except ParseError PathExpression :=
  let cs := text.toList
  if cs.isEmpty then .ok ⟨[.root], []⟩
  else
    match Parse.expression g cs with
    | .ok (e, _) => .ok e
    | .error failure => .error ⟨failure.message, cs.length - failure.remaining⟩

theorem parse_eq_parseBy (text : String) :
    parse text = parseBy (grammar text.toList.length) text :=
  rfl

theorem parse_eq_parseBy_unbounded (text : String) : parse text = parseBy unbounded text := by
  have hagree := (grammar_agreeBelow_unbounded text.toList.length).expression text.toList
    (Nat.le_refl _)
  rw [parse_eq_parseBy, parseBy, parseBy, hagree.1]

/-- A failure is reported at the place where the reader failed, inside the text or at its end. -/
theorem exists_failure_of_parseBy {text : String} {e : ParseError}
    (h : parseBy unbounded text = .error e) :
    ∃ failure, Parse.expression unbounded text.toList = .error failure ∧
      e.message = failure.message ∧ e.position + failure.remaining = text.length := by
  have hself : unbounded.AgreeBelow text.toList.length unbounded :=
    terminates_deepen.agree_self _
  obtain ⟨-, hinside⟩ := hself.expression text.toList (Nat.le_refl _)
  unfold parseBy at h
  dsimp only at h
  split at h
  · cases h
  · cases hrun : Parse.expression unbounded text.toList with
    | ok p =>
      rw [hrun] at h
      cases h
    | error failure =>
      rw [hrun] at h
      cases h
      have hle : failure.remaining ≤ text.toList.length := by
        rw [hrun] at hinside
        exact hinside
      exact ⟨failure, rfl, rfl, Nat.sub_add_cancel hle⟩

/-- **Reading a path comes to an end on every text, and a failure lies inside the text.**  None of
the recursions and loops needs a bound: each ends by itself, and without bounds a text is read as it
is with them.  Where the text is no path, the position that is reported and the characters that the
reader had left make up the length of the text. -/
theorem parse_terminates :
    unbounded.Terminating ∧
    (∀ text, parse text = parseBy unbounded text) ∧
    ∀ text e, parse text = .error e →
      ∃ failure, Parse.expression unbounded text.toList = .error failure ∧
        e.message = failure.message ∧ e.position + failure.remaining = text.length :=
  ⟨terminating_unbounded, parse_eq_parseBy_unbounded, fun text _ h =>
    exists_failure_of_parseBy ((parse_eq_parseBy_unbounded text).symm.trans h)⟩

/-- A bracket that is not closed: the failure is at the end of the text. -/
theorem parse_terminates_unclosed :
    ∃ failure, Parse.expression unbounded "a[0".toList = .error failure ∧
      failure.message = "expected ']', found end of input" ∧ 3 + failure.remaining = 3 := by
  have hparse : parse "a[0" = .error ⟨"expected ']', found end of input", 3⟩ := rfl
  obtain ⟨failure, hrun, hmessage, hposition⟩ := parse_terminates.2.2 "a[0" _ hparse
  exact ⟨failure, hrun, hmessage.symm, hposition⟩

end PathExpression

end DottedPath

import DottedPath.Proofs.Path.Closed.FilterPath
import DottedPath.Proofs.Path.Unbounded.Pattern

/-!
# Segments, groups and filters come to an end

The readers of segments, groups and filters are given what is nested in them as a grammar.  Two
grammars that agree on shorter texts make readers that agree on a text, for each of the nested
readers is used after a bracket, a parenthesis or an ampersand only.  What is read after the bracket
may begin with a filter, so the readers for it need the grammars to agree at the length itself.

Where a reading is given up and another one is tried, the reader goes back to characters it has seen
before.  They are inside the text, and the other reading is asked for nothing longer.

## Main statements

- `Grammar.AgreeBelow.deepen`: one more round reads texts with one more character.
- `terminates_deepen`: nesting comes to an end.
- `advances_nextSegment`, `advances_nextAfter`: so do paths and chains of filters.
- `agreeBelow_grammar`: in every grammar the readers stay inside the text.
-/

namespace DottedPath.Parse

variable {n : Nat}

namespace Grammar

/-- The readers nested in the grammars agree on all texts that are shorter. -/
structure AgreeBelow (n : Nat) (g g' : Grammar) : Prop where
  filter : Readers.agree n g.filter g'.filter
  branches : Readers.agree n g.branches g'.branches
  path : Readers.agree n g.path g'.path

end Grammar

instance : Readers Grammar where
  agree := Grammar.AgreeBelow
  limit := fun s => {
    filter := Readers.limit fun n => (s n).filter
    branches := Readers.limit fun n => (s n).branches
    path := Readers.limit fun n => (s n).path }
  agree_zero := fun _ _ => ⟨Readers.agree_zero _ _, Readers.agree_zero _ _, Readers.agree_zero _ _⟩
  agree_symm := fun h =>
    ⟨Readers.agree_symm h.filter, Readers.agree_symm h.branches, Readers.agree_symm h.path⟩
  agree_trans := fun h h' =>
    ⟨Readers.agree_trans h.filter h'.filter, Readers.agree_trans h.branches h'.branches,
      Readers.agree_trans h.path h'.path⟩
  eq_of_agree := fun {g g'} h => by
    have hfilter : g.filter = g'.filter := Readers.eq_of_agree fun n => (h n).filter
    have hbranches : g.branches = g'.branches := Readers.eq_of_agree fun n => (h n).branches
    have hpath : g.path = g'.path := Readers.eq_of_agree fun n => (h n).path
    cases g
    cases g'
    congr
  agree_limit := fun h => {
    filter := Readers.agree_limit fun m hm => (h m hm).filter
    branches := Readers.agree_limit fun m hm => (h m hm).branches
    path := Readers.agree_limit fun m hm => (h m hm).path }

/-! ### Marks of recursive segments -/

/-- A restriction that comes next has its colon. -/
theorem Agree.restrictionAhead_below {β : Type} {f f' g g' : Parse β} (hf : AgreeBelow n f f')
    (hg : Agree n g g') :
    Agree n (do if ← Parse.restrictionAhead then (do Parse.skip 1; f) else g)
      (do if ← Parse.restrictionAhead then (do Parse.skip 1; f') else g') := by
  intro cs hcs
  unfold SameAt
  by_cases hcolon : cs.head? = some ':'
  · obtain ⟨r, rfl⟩ := List.head?_eq_some_iff.mp hcolon
    obtain ⟨b, hb⟩ : ∃ b, Parse.restrictionAhead (':' :: r) = .ok (b, ':' :: r) := by
      cases r <;> exact ⟨_, rfl⟩
    rw [run_bind_of_ok hb, run_bind_of_ok hb]
    cases b with
    | false => exact hg _ hcs
    | true => exact hf.tail hcs
  · have hb := restrictionAhead_of_head?_ne hcolon
    rw [run_bind_of_ok hb, run_bind_of_ok hb]
    exact hg cs hcs

namespace Grammar

/-- A round of the depth windows and restrictions of a recursive segment. -/
def recursiveMarksStep (key : KeyPattern)
    (more : List Branch → DepthRange → Parse (List Branch × DepthRange)) (branches : List Branch)
    (depth : DepthRange) : Parse (List Branch × DepthRange) := do
  if ← restrictionAhead then
    skip 1
    let r ← kindRestriction
    more (restrictBranches key r branches) depth
  else if ← eat ':' then
    more branches (← depthRange)
  else pure (branches, depth)

/-- The depth windows and restrictions, with as many rounds as there may be. -/
def recursiveMarks (key : KeyPattern) (branches : List Branch) (depth : DepthRange) :
    Parse (List Branch × DepthRange) := do
  recursiveMarksWithin key ((← get).length + 1) branches depth

theorem terminates_recursiveMarks (key : KeyPattern) :
    Terminates (recursiveMarksStep key) (recursiveMarks key) := by
  refine .of_limit (recursiveMarksWithin key) (fun _ => rfl)
    fun n more more' hmore branches depth => ?_
  refine .of_agree fun m hm => ?_
  have hmore (branches : List Branch) (depth : DepthRange) :
      Parse.AgreeBelow m (more branches depth) (more' branches depth) :=
    (hmore branches depth).mono hm
  refine .restrictionAhead_below (fun i hi => ?_) (.eat_below (fun i hi => ?_) (.pure _))
  · exact .bind .kindRestriction fun r => hmore _ _ i hi
  · exact .bind .depthRange fun depth => hmore _ _ i hi

end Grammar

theorem Agree.recursiveMarks (key : KeyPattern) (branches : List Branch) (depth : DepthRange) :
    Agree n (Grammar.recursiveMarks key branches depth)
      (Grammar.recursiveMarks key branches depth) :=
  (Grammar.terminates_recursiveMarks key).agree_self (n + 1) branches depth n (Nat.lt_succ_self n)

/-- A path with the cut mark after it. -/
def branchOf (path : Parse (List Segment)) : Parse Branch := do
  let segments ← path
  let cut ← cutMark
  pure (Branch.mk segments cut)

theorem Agree.branchOf {path path' : Parse (List Segment)} (h : Agree n path path') :
    Agree n (branchOf path) (Parse.branchOf path') :=
  .bind h fun _ => .map .cutMark _

/-! ### Segments -/

theorem length_attrMarksFrom_le (marked afterAt : Bool) (cs : List Char) :
    (attrMarksFrom marked afterAt cs).2.length ≤ cs.length := by
  fun_induction attrMarksFrom marked afterAt cs with
  | case1 marked afterAt cs ih => exact Nat.le_trans ih (Nat.le_succ _)
  | case2 marked afterAt cs ih => exact Nat.le_trans ih (Nat.le_succ _)
  | case3 marked afterAt cs htilde hat => exact Nat.le_refl _

theorem length_negationsFrom_le (count : Nat) (cs : List Char) :
    (negationsFrom count cs).2.length ≤ cs.length := by
  fun_induction negationsFrom count cs with
  | case1 count => exact Nat.le_refl _
  | case2 count c cs hblank ih => exact Nat.le_trans ih (Nat.le_succ _)
  | case3 count c cs hblank hmark ih => exact Nat.le_trans ih (Nat.le_succ _)
  | case4 count c cs hblank hmark => exact Nat.le_refl _

namespace Grammar.AgreeBelow

variable {m : Nat} {g g' : Grammar}

theorem mono (h : g.AgreeBelow n g') (hle : m ≤ n) : g.AgreeBelow m g' :=
  ⟨Parse.AgreeBelow.mono h.filter hle, fun lead => (h.branches lead).mono hle,
    fun place lead => (h.path place lead).mono hle⟩

variable (h : g.AgreeBelow n g')

include h

theorem filterSuffix : Agree n g.filterSuffix g'.filterSuffix :=
  .ahead_below h.filter (.pure none)

theorem access (place : Place) (accessor : Accessor) :
    Agree n (g.access place accessor) (g'.access place accessor) := by
  refine .bind .keyPattern fun p => .ite (.pure _) (.bind h.filterSuffix fun f => ?_)
  cases f with
  | none => exact .pure _
  | some f => exact .bind (.eat _) fun _ => .pure _

theorem group (lead : Accessor) : Agree n (g.group lead) (g'.group lead) :=
  .expect_below fun m hm => .bind (h.branches lead m hm) fun _ => .bind .skipBlanks fun _ =>
    .bind (.expect _) fun _ => .bind (.eat _) fun _ => .pure _

theorem groupSegment (place : Place) (lead : Accessor) :
    Agree n (g.groupSegment place lead) (g'.groupSegment place lead) :=
  .bind (h.group lead) fun _ => .suffixes place _

theorem recursiveBranches : Agree n g.recursiveBranches g'.recursiveBranches := by
  refine .expect_below fun m hm => .bind (.separated (.branchOf ?_) _) fun _ =>
    .bind .skipBlanks fun _ => .bind (.expect _) fun _ => .pure _
  exact h.path .branch .key m hm

theorem recursiveKey : Agree n g.recursiveKey g'.recursiveKey := by
  refine .get fun ds _ => ?_
  split
  · exact .bind (.skip 1) fun _ => .pure _
  · exact .map .regex _
  · exact .ite (.pure none) (.map h.recursiveBranches _)
  · exact .ite (.map .keyLiteral _) (.pure none)
  · exact .pure none

theorem recursive : Agree n g.recursive g'.recursive := by
  refine .get fun start hstart => .bind (.skip 1) fun _ => .bind h.recursiveKey fun o => ?_
  cases o with
  | none => exact .set hstart (.pure none)
  | some p =>
    refine .bind (.eat _) fun first => .rounds (fun i => recursiveMarksWithin p.1 i p.2 .unbounded)
      (.recursiveMarks _ _ _) fun _ => ?_
    refine .bind h.filterSuffix fun filter => ?_
    refine .ite (.bind (.eat _) fun _ => ?_) (.bind (.pure _) fun _ => ?_)
    all_goals
      refine .bind .guardTest fun test => ?_
      cases test <;> exact .pure _

theorem keySegment (place : Place) : Agree n (g.keySegment place) (g'.keySegment place) := by
  refine .bind .peek fun _ => .ite (.bind h.recursive fun o => ?_) (.bind (.pure none) fun o => ?_)
  all_goals
    cases o with
    | none => exact .bind (h.access place .key) fun s => .suffixes place s
    | some s => exact .pure s

theorem attrBody (place : Place) (afterAt : Bool) :
    Agree n (g.attrBody place afterAt) (g'.attrBody place afterAt) := by
  refine .get fun ds hds => .set (Nat.le_trans (length_attrMarksFrom_le ..) hds) ?_
  refine .bind .peek fun _ => .ite (.map (h.groupSegment place .attr) _) ?_
  exact .bind (h.access place .attr) fun _ => .map (.suffixes place _) _

theorem attrSegment (place : Place) : Agree n (g.attrSegment place) (g'.attrSegment place) :=
  .bind (.expect _) fun _ => h.attrBody place true

theorem bracketSlot (place : Place) : Agree n (g.bracketSlot place) (g'.bracketSlot place) :=
  .bind (h.access place .slot) fun _ => .bind .skipBlanks fun _ => .bind (.expect _) fun _ =>
    .suffixes place _

omit h in
/-- The filter begins at the text itself. -/
theorem bracketFilter (h : g.AgreeBelow (n + 1) g') : Agree n g.bracketFilter g'.bracketFilter := by
  rw [Grammar.bracketFilter, Grammar.bracketFilter, map_eq_pure_bind, map_eq_pure_bind]
  refine .map (.attempt (.bind (h.filter n (Nat.lt_succ_self n)) fun _ => ?_)) _
  exact .bind (.eat _) fun _ => .bind (.eat _) fun _ => .ite (.pure _) (.fail _)

omit h in
theorem bracketBody (h : g.AgreeBelow (n + 1) g') (place : Place) :
    Agree n (g.bracketBody place) (g'.bracketBody place) := by
  -- only the filter stands here without a character before it
  have hn : g.AgreeBelow n g' := h.mono (Nat.le_succ n)
  refine .bind .skipBlanks fun _ => .bind (.eat _) fun _ => .ite (.suffixes place _) ?_
  refine .bind (.eatText _) fun _ => .ite (.suffixes place _) ?_
  refine .bind (.eatText _) fun _ => .ite (.suffixes place _) (.bind .sliceRange fun range => ?_)
  cases range with
  | some range => exact .suffixes place _
  | none =>
    refine .ite (hn.bracketSlot place) (.bind h.bracketFilter fun o => ?_)
    cases o with
    | some s => exact .suffixes place s
    | none =>
      refine .bind .peek fun _ => .ite (.bind (hn.group .slot) fun _ => ?_) (hn.bracketSlot place)
      exact .bind .skipBlanks fun _ => .bind (.expect _) fun _ => .suffixes place _

theorem bracketSegment (place : Place) :
    Agree n (g.bracketSegment place) (g'.bracketSegment place) :=
  .expect_below fun _ hm => .bind .skipBlanks fun _ => .bind (.eat _) fun _ =>
    .map ((h.mono (Nat.succ_le_of_lt hm)).bracketBody place) _

theorem slotBody (place : Place) : Agree n (g.slotBody place) (g'.slotBody place) := by
  refine .bind (.eatText _) fun _ => .ite (.pure _) (.bind (.eat _) fun _ => .ite (.pure _) ?_)
  exact .bind (h.access place .slot) fun _ => .suffixes place _

theorem slotToken (place : Place) : Agree n (g.slotToken place) (g'.slotToken place) :=
  .bind (.takeWhile _) fun _ => .map (h.slotBody place) _

theorem dottedSegment (place : Place) :
    Agree n (g.dottedSegment place) (g'.dottedSegment place) := by
  refine .ite (h.keySegment place) (.bind (.takeWhile _) fun _ => .bind .peek fun _ => ?_)
  exact .ite (.map (h.groupSegment place .key) _) (.map (h.keySegment place) _)

theorem markedFirst (place : Place) : Agree n (g.markedFirst place) (g'.markedFirst place) := by
  refine .bind .peek fun c => ?_
  split
  · exact h.attrSegment place
  · exact h.bracketSegment place
  · exact h.groupSegment place .key
  · exact h.keySegment place

theorem firstKeySegment (place : Place) :
    Agree n (g.firstKeySegment place) (g'.firstKeySegment place) := by
  refine .bind .peek fun c => ?_
  split
  · exact .ite (h.keySegment place) (.bind (.skip 1) fun _ => .map (h.markedFirst place) _)
  · exact h.attrSegment place
  · exact h.bracketSegment place
  · exact .ite (h.keySegment place) (h.groupSegment place .key)
  iterate 5 exact .fail _
  · exact h.keySegment place

theorem firstSegment (place : Place) (lead : Accessor) :
    Agree n (g.firstSegment place lead) (g'.firstSegment place lead) := by
  cases lead with
  | slot => exact h.slotToken place
  | attr => exact h.attrBody place false
  | key => exact h.firstKeySegment place

theorem markedNext (place : Place) : Agree n (g.markedNext place) (g'.markedNext place) := by
  refine .bind .peek fun c => ?_
  split
  · exact .bind (.skip 1) fun _ => h.dottedSegment place
  · exact h.attrSegment place
  · exact h.bracketSegment place
  · exact .fail _

theorem nextSegment (place : Place) : Agree n (g.nextSegment place) (g'.nextSegment place) := by
  refine .get fun ds _ => .ite (.pure none) (.bind .peek fun c => ?_)
  split
  · exact .bind (.skip 1) fun _ => .map (h.dottedSegment place) _
  · exact .map (h.bracketSegment place) _
  · exact .map (h.attrSegment place) _
  · exact .ite (.fail _) (.map (h.groupSegment place .key) _)
  · exact .ite (.fail _) (.bind (.skip 1) fun _ => .map (h.markedNext place) _)
  · exact .fail _

theorem pathFrom (place : Place) (lead : Accessor) :
    Agree n (g.pathFrom place lead) (g'.pathFrom place lead) :=
  .bind (h.firstSegment place lead) fun _ => .map (.many (h.nextSegment place)) _

/-! ### Groups -/

theorem groupTerm (lead : Accessor) : Agree n (g.groupTerm lead) (g'.groupTerm lead) := by
  refine .get fun ds hds => .set (Nat.le_trans (length_negationsFrom_le ..) hds) ?_
  refine .bind .peek fun c => .ite (.bind (.skip 1) fun _ => ?_) (.map (h.pathFrom .branch lead) _)
  exact .bind (h.dottedSegment .branch) fun _ => .bind (.many (h.nextSegment .branch)) fun _ =>
    .pure _

theorem conjunction (lead : Accessor) : Agree n (g.conjunction lead) (g'.conjunction lead) := by
  refine .bind (.separated (h.groupTerm lead) _) fun terms => ?_
  split <;> exact .pure _

theorem branchesFrom (lead : Accessor) : Agree n (g.branchesFrom lead) (g'.branchesFrom lead) :=
  .separated (.branchOf (h.conjunction lead)) _

/-! ### Filters -/

theorem compareFilter : Agree n g.compareFilter g'.compareFilter := by
  refine .bind (h.pathFrom .filterKey .key) fun key => .bind .peek fun c => ?_
  refine .ite (.bind (.transforms .guard) fun chain => ?_) (.bind (.pure []) fun chain => ?_)
  all_goals
    refine .bind .comparison fun op => ?_
    cases op with
    | none => exact .fail _
    | some op => exact .map (.comparedPattern op) _

theorem filterTerm : Agree n g.filterTerm g'.filterTerm := by
  -- a comparison may stand at the front of the text: what it nests is behind marks of its own
  refine .bind (.takeWhile _) fun marks => .eat_below (fun m hm => ?_) (.map h.compareFilter _)
  exact .bind .skipBlanks fun _ => .bind (h.filter m hm) fun _ => .bind .skipBlanks fun _ =>
    .bind (.expect _) fun _ => .pure _

omit h in
theorem nextAfter {term term' : Parse Filter} (hterm : Agree n term term') (separator : Char)
    (blanks : Bool) :
    Agree n (nextAfter separator blanks term) (Grammar.nextAfter separator blanks term') := by
  refine .bind .peek fun c => .ite (.attempt (.bind (.skip 1) fun _ => ?_)) (.pure none)
  exact .ite (.bind .skipBlanks fun _ => hterm) hterm

theorem filterAnd : Agree n g.filterAnd g'.filterAnd := by
  refine .bind h.filterTerm fun first => .bind (.many (nextAfter h.filterTerm _ _)) fun rest => ?_
  split <;> exact .pure _

theorem filterOr : Agree n g.filterOr g'.filterOr := by
  refine .bind h.filterAnd fun first => .bind (.many (nextAfter h.filterAnd _ _)) fun rest => ?_
  split <;> exact .pure _

/-- **One more round reads texts with one more character.** -/
theorem deepen : g.deepen.AgreeBelow (n + 1) g'.deepen where
  filter := .of_agree fun _ hm => (h.mono hm).filterOr
  branches lead := .of_agree fun _ hm => (h.mono hm).branchesFrom lead
  path place lead := .of_agree fun _ hm => (h.mono hm).pathFrom place lead

end Grammar.AgreeBelow

/-- **Groups, filters and paths nested in each other come to an end.** -/
theorem terminates_deepen : Terminates Grammar.deepen (Readers.limit grammar) :=
  .of_limit grammar (fun _ => rfl) fun _ _ _ h => h.deepen

/-- **The readers nested in a grammar stay inside the text**, with a bound on the depth too. -/
theorem agreeBelow_grammar (n : Nat) : ∀ i, (grammar i).AgreeBelow n (grammar i)
  | 0 => ⟨fun _ _ => .fail _, fun _ _ _ => .fail _, fun _ _ _ _ => .fail _⟩
  | i + 1 => (agreeBelow_grammar n i).deepen.mono (Nat.le_succ n)

/-! ### Repetitions -/

section

variable {g : Grammar} (h : ∀ n, g.AgreeBelow n g) (cs : List Char)

include h

theorem shortens_bracketSegment (place : Place) : Shortens cs (g.bracketSegment place) :=
  .bind (.expect _ _) fun _ n => .bind .skipBlanks fun _ => .bind (.eat _) fun _ =>
    .map ((h (n + 1)).bracketBody place) _

theorem shortens_attrSegment (place : Place) : Shortens cs (g.attrSegment place) :=
  .bind (.expect _ _) fun _ n => (h n).attrBody place true

theorem shortens_groupSegment (place : Place) (lead : Accessor) :
    Shortens cs (g.groupSegment place lead) := by
  refine .bind (.bind (.expect _ _) fun _ n => ?_) fun _ _ => .suffixes place _
  refine .bind ((h (n + 1)).branches lead n (Nat.lt_succ_self n)) fun _ => ?_
  exact .bind .skipBlanks fun _ => .bind (.expect _) fun _ => .bind (.eat _) fun _ => .pure _

omit cs in
/-- A segment after another one takes the character that it begins with. -/
theorem advances_nextSegment (place : Place) : Advances (g.nextSegment place) where
  agree n := (h n).nextSegment place
  shorter cs x r hrun := by
    rw [Grammar.nextSegment, run_bind_of_ok (run_get cs)] at hrun
    cases cs with
    | nil => cases hrun
    | cons c cs =>
      split at hrun
      · cases hrun
      · refine Shortens.peek (fun o => ?_) _ _ hrun
        split
        · exact .bind (.skip _ _) fun _ n => .map ((h n).dottedSegment place) _
        · exact (shortens_bracketSegment h _ place).bind fun _ _ => .pure _
        · exact (shortens_attrSegment h _ place).bind fun _ _ => .pure _
        · refine .ite (.fail _ _) ?_
          exact (shortens_groupSegment h _ place .key).bind fun _ _ => .pure _
        · exact .ite (.fail _ _) (.bind (.skip _ _) fun _ n => .map ((h n).markedNext place) _)
        · exact .fail _ _

omit h cs in
theorem advances_nextAfter {term : Parse Filter} (hterm : ∀ n, Agree n term term) (separator : Char)
    (blanks : Bool) : Advances (Grammar.nextAfter separator blanks term) where
  agree n := Grammar.AgreeBelow.nextAfter (hterm n) separator blanks
  shorter cs x r hrun := by
    rw [Grammar.nextAfter, run_bind_of_ok (run_peek cs)] at hrun
    split at hrun
    · rename_i hhead
      obtain ⟨cs, rfl⟩ := List.head?_eq_some_iff.mp (by simpa using hhead)
      refine Shortens.bind (.skip _ cs) (fun _ n => ?_) x r (eq_ok_of_attempt hrun)
      exact .ite (.bind .skipBlanks fun _ => hterm n) (hterm n)
    · cases hrun

end

end DottedPath.Parse

import DottedPath.Proofs.Path.Closed.Group
import DottedPath.Proofs.Path.PathText

/-!
# Groups without their parentheses

A text that is no path may still be a group without its parentheses.  It means what it does with
them.
-/

namespace DottedPath

open Parse

/-- The text is read as a plain path, up to its end or a chain of transforms.  The empty text is the
plain path to the value itself. -/
def PathExpression.readsPlainly (text : String) : Bool :=
  text.isEmpty || (topPath (grammar text.toList.length) text.toList).isOk

namespace Parse

variable {cs : List Char}

/-- A chain that begins with a bar is not empty. -/
theorem transforms_of_bar {place : ChainPlace} {r r' : List Char} :
    transforms place ('|' :: r) ≠ .ok ([], r') := by
  intro h
  rw [transforms, many, run_bind_of_ok (run_get _), manyWithin] at h
  obtain ⟨o, mid, hcall, h⟩ := bind_eq_ok h
  rw [transformCall, run_bind_of_ok (eat_cons_self '|' r), if_pos rfl] at hcall
  cases o with
  | none =>
    obtain ⟨name, q, hname, hcall⟩ := bind_eq_ok hcall
    dsimp only at hcall
    split at hcall
    · cases hcall
    · obtain ⟨ds, q, hds, hcall⟩ := bind_eq_ok hcall
      obtain ⟨call, q, hcall', hcall⟩ := bind_eq_ok hcall
      cases hcall
  | some call =>
    obtain ⟨calls, q, hcalls, h⟩ := bind_eq_ok h
    cases h

/-- The top of a path ends at its end, if no transforms follow. -/
theorem eq_nil_of_transforms {place : ChainPlace} {r r' : List Char} (hend : endsAt .top r = true)
    (h : transforms place r = .ok ([], r')) : r = [] := by
  cases r with
  | nil => rfl
  | cons c r =>
    by_cases hbar : c = '|'
    · subst hbar
      exact (transforms_of_bar h).elim
    · rw [endsAt.eq_3 c r hbar] at hend
      cases hend

/-- What is read as a group without its parentheses, if no transforms follow. -/
theorem branchesFrom_of_expression {g : Grammar} {e : ParseFailure} {segments : List Segment}
    {r : List Char} (hplain : topPath g cs = .error e) (hsign : cs.head? ≠ some '-')
    (h : expression g cs = .ok (⟨segments, []⟩, r)) :
    ∃ branches mid, g.branchesFrom .key cs = .ok (branches, mid) ∧
      mid.dropWhile Text.isBlank = [] ∧ segments = [.group .or branches false] := by
  obtain ⟨segments', mid, hsegments, h⟩ := bind_eq_ok h
  obtain ⟨chain, rest, hchain, h⟩ := bind_eq_ok h
  rw [run_bind_of_ok (run_get rest)] at h
  split at h
  · cases h
    rw [expressionSegments, run_bind_of_ok (run_peek cs)] at hsegments
    split at hsegments
    · rename_i hbar
      obtain ⟨ds, rfl⟩ := List.head?_eq_some_iff.mp (beq_iff_eq.mp hbar)
      cases hsegments
      exact (transforms_of_bar hchain).elim
    -- the plain path fails, so what is read is the group that needs no parentheses
    · rw [run_bind_of_ok (eat_of_head?_ne hsign), if_neg Bool.false_ne_true, topSegments,
        hplain] at hsegments
      dsimp only at hsegments
      cases hgroup : implicitGroup g cs with
      | error e =>
        rw [hgroup] at hsegments
        cases hsegments
      | ok p =>
        obtain ⟨group, q⟩ := p
        rw [hgroup] at hsegments
        cases hsegments
        obtain ⟨branches, mid', hbranches, hgroup⟩ := bind_eq_ok hgroup
        rw [run_bind_of_ok (run_skipBlanks mid'), run_bind_of_ok (run_get _)] at hgroup
        split at hgroup
        · rename_i hend
          cases hgroup
          exact ⟨branches, mid', hbranches, eq_nil_of_transforms hend hchain, rfl⟩
        · cases hgroup
  · cases h

/-- **A group that ends with the text is read in parentheses.** -/
theorem branchesFrom_closed {branches : List Branch} {r : List Char}
    (h : (grammar cs.length).branchesFrom .key cs = .ok (branches, r)) :
    (grammar (cs.length + 1)).branchesFrom .key (closed cs) = .ok (branches, closed r) := by
  have hat := (nested_grammar cs.length).branchesFrom_closed .key cs cs.length (Nat.le_refl _)
    (Nat.le_refl _)
  have hrun := hat.run_of_failing h 0
  rwa [Nat.zero_add] at hrun

/-- A group in parentheses is a path. -/
theorem topSegments_of_branches {g : Grammar} {branches : List Branch} {ds r : List Char}
    (h : g.branches .key ds = .ok (branches, r)) (hr : r.dropWhile Text.isBlank = [')']) :
    topSegments g ('(' :: ds) = .ok ([.group .or branches false], []) := by
  have hgroup : g.group .key ('(' :: ds) = .ok (.group .or branches false, []) := by
    rw [Grammar.group, run_bind_of_ok (expect_cons_self '(' ds), run_bind_of_ok h,
      run_bind_of_ok (run_skipBlanks r), hr]
    rfl
  have hpath : topPath g ('(' :: ds) = .ok ([.group .or branches false], []) := by
    have hfirst : g.firstSegment .top .key ('(' :: ds) = .ok (.group .or branches false, []) :=
      run_bind_of_ok hgroup
    have hpath : g.pathFrom .top .key ('(' :: ds) = .ok ([.group .or branches false], []) :=
      run_bind_of_ok hfirst
    exact run_bind_of_ok hpath
  rw [topSegments, hpath]

/-- What is read as an expression from nonempty text. -/
theorem expression_of_parseChars {e : PathExpression} (hcs : cs ≠ [])
    (h : PathExpression.parseChars cs = .ok e) :
    ∃ r, expression (grammar cs.length) cs = .ok (e, r) := by
  rw [PathExpression.parseChars, if_neg (by simpa using hcs)] at h
  cases hread : expression (grammar cs.length) cs with
  | error failure =>
    rw [hread] at h
    cases h
  | ok p =>
    rw [hread] at h
    cases h
    exact ⟨p.2, rfl⟩

/-- A text that is not read plainly is not empty, and no path. -/
theorem topPath_of_readsPlainly {text : String} (h : PathExpression.readsPlainly text = false) :
    text.toList ≠ [] ∧ ∃ e, topPath (grammar text.toList.length) text.toList = .error e := by
  obtain ⟨hempty, hpath⟩ := Bool.or_eq_false_iff.mp h
  constructor
  · intro hnil
    rw [String.toList_eq_nil_iff.mp hnil] at hempty
    cases hempty
  · cases hplain : topPath (grammar text.toList.length) text.toList with
    | error e => exact ⟨e, rfl⟩
    | ok p =>
      rw [hplain] at hpath
      cases hpath

end Parse

/-- **A group without its parentheses means what it does with them**: a text that is not read as a
plain path, but is read without transforms, is read as the same segments in parentheses. -/
theorem PathExpression.parse_parenthesized {text : String} {segments : List Segment}
    (hsign : text.toList.head? ≠ some '-') (hplain : readsPlainly text = false)
    (h : parse text = .ok ⟨segments, []⟩) :
    parse ("(" ++ text ++ ")") = .ok ⟨segments, []⟩ := by
  obtain ⟨hne, failure, hpath⟩ := topPath_of_readsPlainly hplain
  obtain ⟨r, hread⟩ := expression_of_parseChars hne h
  obtain ⟨branches, mid, hbranches, hmid, rfl⟩ := branchesFrom_of_expression hpath hsign hread
  have hclosed : (closed mid).dropWhile Text.isBlank = [')'] := by
    rw [dropWhile_closed (by decide), hmid, closed_nil]
  have htext : ("(" ++ text ++ ")").toList = '(' :: closed text.toList := by
    rw [String.toList_append, String.toList_append]
    rfl
  rw [parse, htext]
  refine parseChars_of_expressionSegments (List.cons_ne_nil _ _) ?_
  -- the parentheses are two more characters, so the grammar is two deeper
  rw [List.length_cons, length_closed, expressionSegments, run_bind_of_ok (run_peek _),
    if_neg (by simp), run_bind_of_ok (eat_of_head?_ne (by simp)), if_neg Bool.false_ne_true]
  exact topSegments_of_branches (branchesFrom_closed hbranches) hclosed

/-- Two keys with a comma between them. -/
theorem PathExpression.parse_parenthesized_keys :
    let segments := [Segment.group .or [.mk [.access .key (.literal (.str "a")) none false] .none,
      .mk [.access .key (.literal (.str "b")) none false] .hard] false]
    readsPlainly "a, b#" = false ∧ parse "a, b#" = .ok ⟨segments, []⟩ ∧
      parse "(a, b#)" = .ok ⟨segments, []⟩ := by
  have hplain : readsPlainly "a, b#" = false := rfl
  have hparse : parse "a, b#" = .ok ⟨[.group .or [
    .mk [.access .key (.literal (.str "a")) none false] .none,
    .mk [.access .key (.literal (.str "b")) none false] .hard] false], []⟩ := rfl
  have hclosed := parse_parenthesized (by decide) hplain hparse
  have htext : "(" ++ "a, b#" ++ ")" = "(a, b#)" := rfl
  rw [htext] at hclosed
  exact ⟨hplain, hparse, hclosed⟩

end DottedPath

import DottedPath.Proofs.Path.Closed.FilterPath

/-!
# What follows a segment, before a closing parenthesis

Restrictions, guards, depth windows, slices and cut marks do not read a closing parenthesis as part
of themselves, but for the parenthesis that closes a list of kinds, a list of transforms or a
pattern.  The readers here have nothing nested in them and are the same at every depth.
-/

namespace DottedPath.Parse

variable {cs : List Char} {n : Nat}

/-! ### Restrictions and guards -/

section

variable {β : Type} {lag : Lag} {fits : β → List Char → Prop} {k : Bool → Parse β}
  {K : Nat → Bool → Parse β}

/-- A restriction is looked for. -/
theorem restrictionAhead_closed
    (htrue : ∀ r, cs = ':' :: r → At lag fits cs (k true) fun m => K m true)
    (hfalse : At lag fits cs (k false) fun m => K m false) :
    At lag fits cs (restrictionAhead >>= k) fun m => restrictionAhead >>= K m := by
  by_cases hcolon : cs.head? = some ':'
  · obtain ⟨r, rfl⟩ := List.head?_eq_some_iff.mp hcolon
    cases r with
    | nil => exact .test (a := false) rfl rfl hfalse
    | cons c r =>
      refine .test (a := c.isAlpha || c == '!' || c == '(') rfl rfl ?_
      cases c.isAlpha || c == '!' || c == '(' with
      | false => exact hfalse
      | true => exact htrue _ rfl
  · have hcolon' : (closed cs).head? ≠ some ':' := by
      rw [← beq_eq_false_iff_ne, head?_closed_beq (by decide), beq_eq_false_iff_ne]
      exact hcolon
    exact .test (restrictionAhead_of_head?_ne hcolon) (restrictionAhead_of_head?_ne hcolon') hfalse

end

theorem kindName_closed (hcs : cs.length ≤ n) :
    At never (Within n) cs kindName fun _ => kindName := by
  refine .get ((At.takeWhile (by decide) hcs).bind_never fun name r hr => ?_)
  cases Kind.ofName? (String.ofList name) with
  | none => exact .failAt _ _ _ _
  | some k => exact .pure hr

theorem kindRestriction_closed (hcs : cs.length ≤ n) :
    At failing (Within n) cs kindRestriction fun _ => kindRestriction := by
  have hkind (N : Nat) : Sim N failing kindName fun _ => kindName :=
    fun _ _ hcs _ => (kindName_closed hcs).of_never
  refine (At.eatMark (by decide) hcs).bind_never fun negated r hr => ?_
  refine .eat (by decide) (fun r' hr' => ?_) fun _ => ?_
  · have hle : r'.length ≤ n := Nat.le_of_succ_le (by rwa [hr'] at hr)
    refine ((hkind n).separated (by decide) r' n hle (Nat.le_refl n)).bind_failing
      (fun kinds r hr => ?_) leaving_none fun kinds => .inr ⟨_, fun _ => rfl⟩
    refine .expect_close (fun r' hr' => .pure ?_) leaving_none ⟨_, fun _ => rfl⟩
    exact Nat.le_of_succ_le (by rwa [hr'] at hr)
  · exact (kindName_closed hr).of_never.mapWithin _

theorem guardTest_closed (hcs : cs.length ≤ n) :
    At failing (Within n) cs guardTest fun _ => guardTest := by
  refine .get (.peek (fun hnil => ?_) fun c r hcons => ?_)
  · simp only [Option.none_beq_some, Option.some_beq_some, Char.reduceBEq, Bool.false_eq_true,
      if_false, pure_bind]
    exact compared_closed (Nat.zero_le n) (fun _ _ => .set (.pure hcs)) fun op _ hr =>
      (comparedPattern_closed op hr).mapWithin _
  rw [← hcons]
  dsimp only
  split
  · -- a chain that takes the parenthesis is given back: no comparison follows it
    refine .attempt_bind (transforms_closed hcs) (fun chain r hr => ?_) (.pure hcs)
      (fun _ chain => ?_) fun chain chain' r hr _ => ?_
    · exact compared_closed hr (fun _ _ => .set (.pure hcs)) fun op _ hr =>
        (comparedPattern_closed op hr).mapWithin _
    · exact ⟨_, fun _ => rfl, .same hcs⟩
    · obtain rfl := hr r rfl
      exact ⟨_, fun _ => rfl, .same hcs⟩
  · simp only [pure_bind]
    exact compared_closed hcs (fun _ _ => .set (.pure hcs)) fun op _ hr =>
      (comparedPattern_closed op hr).mapWithin _

theorem suffixes_closed (place : Place) (s : Segment) (hcs : cs.length ≤ n) :
    At failing (Within n) cs (suffixes place s) fun _ => suffixes place s := by
  unfold suffixes
  split
  · exact .pure hcs
  · refine restrictionAhead_closed (fun r hr => ?_) ?_
    · subst hr
      refine .skip ((kindRestriction_closed (Nat.le_of_succ_le hcs)).bind_failing
        (fun kinds r hr => ?_) leaving_none fun kinds => .inl ⟨_, fun _ => rfl⟩)
      simp only [pure_bind]
      refine (guardTest_closed hr).answers fun test => ?_
      cases test <;> exact ⟨_, rfl⟩
    · simp only [pure_bind]
      refine (guardTest_closed hcs).answers fun test => ?_
      cases test <;> exact ⟨_, rfl⟩

/-! ### Depth windows and slices -/

/-- A colon that begins no restriction is looked for. -/
theorem colonAhead_closed {β : Type} {lag : Lag} {fits : β → List Char → Prop} {A B : Parse β}
    {A' B' : Nat → Parse β} (hA : ∀ r, cs = ':' :: r → At lag fits cs A A')
    (hB : At lag fits cs B B') :
    At lag fits cs (do if (← peek) == some ':' && !(← restrictionAhead) then A else B)
      (fun m => do if (← peek) == some ':' && !(← restrictionAhead) then A' m else B' m) := by
  refine .peek (fun hnil => ?_) fun c r hcons => ?_
  · subst hnil
    exact restrictionAhead_closed (fun r hr => nomatch hr) hB
  · rw [← hcons]
    refine restrictionAhead_closed (fun r' hr' => ?_) ?_
    · rw [Bool.not_true, Bool.and_false]
      exact hB
    · split
      · rename_i hc
        obtain rfl : c = ':' := by simpa using hc
        exact hA r hcons
      · exact hB

theorem depthPart_closed (hcs : cs.length ≤ n) :
    At never (Within n) cs depthPart fun _ => depthPart := by
  refine colonAhead_closed (fun r hr => ?_) (.pure hcs)
  subst hr
  exact .skip (optionalInt_closed (Nat.le_of_succ_le hcs))

theorem depthRange_closed (hcs : cs.length ≤ n) :
    At never (Within n) cs depthRange fun _ => depthRange := by
  refine (optionalInt_closed hcs).bind_never fun start r hr => ?_
  refine colonAhead_closed (fun r' hr' => ?_) (.pure hr)
  subst hr'
  refine .skip ((optionalInt_closed (Nat.le_of_succ_le hr)).bind_never fun stop r hr => ?_)
  exact (depthPart_closed hr).mapWithin _

theorem bound_closed (hcs : cs.length ≤ n) : At never (Within n) cs bound fun _ => bound := by
  refine (At.eatMark (by decide) hcs).bind_never fun plus r hr => ?_
  split
  · exact .pure hr
  · exact (optionalInt_closed hr).mapWithin _

theorem sliceRange_closed (hcs : cs.length ≤ n) :
    At never (Within n) cs sliceRange fun _ => sliceRange := by
  refine .get ((bound_closed hcs).bind_never fun start r hr => ?_)
  refine (At.eatMark (by decide) hr).bind_never fun colon r hr => ?_
  split
  · refine (bound_closed hr).bind_never fun stop r hr => ?_
    refine (At.eatMark (by decide) hr).bind_never fun colon r hr => ?_
    have hclose (step : Option Int) (r : List Char) (hr : r.length ≤ n) : At never (Within n) r
        (do
          skipBlanks
          if ← eat ']' then pure (some (SliceRange.mk start stop step)) else fail "invalid slice")
        (fun _ => do
          skipBlanks
          if ← eat ']' then pure (some (SliceRange.mk start stop step))
          else fail "invalid slice") := by
      refine (At.skipBlanks hr).bind_never fun _ r hr => ?_
      refine (At.eatMark (by decide) hr).bind_never fun closed r hr => ?_
      split
      · exact .pure hr
      · exact .fail _ _
    dsimp only
    split
    · exact (optionalInt_closed hr).bind_never fun step r hr => hclose step r hr
    · exact hclose none r hr
  · exact .set (.pure hcs)

theorem cutMark_closed (hcs : cs.length ≤ n) : At never (Within n) cs cutMark fun _ => cutMark := by
  refine (At.skipBlanks hcs).bind_never fun _ r hr => ?_
  refine .eatText (by decide) (fun r' hr' => .pure ?_) ?_
  · subst hr'
    exact Nat.le_of_succ_le (Nat.le_of_succ_le hr)
  · refine .peek (fun hnil => ?_) fun c r' hcons => ?_
    · subst hnil
      exact .pure (Nat.zero_le n)
    · rw [← hcons]
      refine .test (run_quoteAt 1 r) (by rw [run_quoteAt, any_isQuote_closed]) ?_
      split
      · subst hcons
        exact .skip (.pure (Nat.le_of_succ_le hr))
      · exact .pure hr

end DottedPath.Parse

import DottedPath.Proofs.Path.Closed.Segment

/-!
# Filters and groups before a closing parenthesis

If what is nested in a grammar goes together with the deeper ones on texts of a length, so do its
filters and its branches on texts that are one character longer.  A filter that has taken the
parenthesis leaves a dangling separator without it.  A group that has taken it fails without it:
what follows a dangling ampersand is read as a term and dangles again, what follows a dangling comma
is read as a branch, and the branches end where no separator is left.

## Main statements

- `Nested.deepen`: one nesting more.
- `nested_grammar`: a grammar as deep as a text is long goes together with the deeper ones.
-/

namespace DottedPath.Parse

variable {cs : List Char} {n N k : Nat} {g : Grammar}

theorem length_dropWhile_lt {y : List Char} (hy : y.length < N) :
    (y.dropWhile Text.isBlank).length ≤ N :=
  Nat.le_trans (length_dropWhile_le _ _) (Nat.le_of_lt hy)

/-- Where a filter term reads the whole text, so does a conjunction. -/
theorem conjunction_of_filterTerm (hg : Overlaps g) {f : Filter} {lead : Accessor} {z r : List Char}
    {segments : List Segment} (h : g.filterTerm z = .ok (f, []))
    (h' : g.conjunction lead z = .ok (segments, r)) : r = [] := by
  obtain ⟨terms, hterms⟩ := conjunction_separated h'
  obtain ⟨term, mid, hterm, hafter⟩ := separated_dropWhile hterms
  rw [filterTerm_dropWhile h] at hterm
  obtain rfl := groupTerm_of_filterTerm hg h stops_nil hterm
  cases hafter
  rfl

/-- The segments after the first one. -/
theorem Nested.nextSegments (h : Nested N k g) {place : Place} (hplace : place ≠ .top) :
    Repeats N Dangles (g.nextSegment place) fun m => (grammar (m + (k + 1))).nextSegment place where
  reads := h.nextSegment_closed hplace
  ends := fun m => rfl
  behind := by
    intro r o r' _ hD hrun
    rw [hD.nextSegment g hplace] at hrun
    cases hrun
    exact hD

namespace Nested

variable (h : Nested N k g)

include h

theorem path_closed {place : Place} (hplace : place ≠ .top) {first : Parse Segment}
    {first' : Nat → Parse Segment} (hfirst : Sim N (leaving Dangles) first first') :
    Sim N (leaving Dangles)
      (do
        let first ← first
        let rest ← many (g.nextSegment place)
        pure (first :: rest))
      (fun m => do
        let first ← first' m
        let rest ← many ((grammar (m + (k + 1))).nextSegment place)
        pure (first :: rest)) := by
  intro cs n hcs hn
  refine (hfirst cs n hcs hn).bind_stays (fun first r hr => ?_) (fun first => ⟨_, fun _ => rfl⟩)
    fun first r hD => ?_
  · exact ((h.nextSegments hplace).many r n hr hn).mapWithin (first :: ·)
  · exact .map (.many (.of_ok (hD.nextSegment g hplace))) _

theorem pathFrom_closed {place : Place} (hplace : place ≠ .top) (lead : Accessor) :
    Sim N (leaving Dangles) (g.pathFrom place lead)
      fun m => (grammar (m + (k + 1))).pathFrom place lead :=
  h.path_closed hplace (h.firstSegment_closed place lead)

/-! ### Branches -/

omit h in
theorem negationsFrom_closed (count : Nat) (cs : List Char) :
    negationsFrom count (closed cs) =
      ((negationsFrom count cs).1, closed (negationsFrom count cs).2) := by
  fun_induction negationsFrom count cs with
  | case1 count => rfl
  | case2 count c cs hblank ih => rw [closed_cons, negationsFrom, if_pos hblank, ih]
  | case3 count c cs hblank hmark ih =>
    rw [closed_cons, negationsFrom, if_neg hblank, if_pos hmark, ih]
  | case4 count c cs hblank hmark =>
    rw [closed_cons, negationsFrom, if_neg hblank, if_neg hmark]

theorem groupTerm_closed (lead : Accessor) :
    Sim N (leaving Dangles) (g.groupTerm lead)
      fun m => (grammar (m + (k + 1))).groupTerm lead := by
  intro cs n hcs hn
  refine .get ?_
  rw [negationsFrom_closed]
  have hle : (negationsFrom 0 cs).2.length ≤ n :=
    Nat.le_trans (length_negationsFrom_le ..) hcs
  generalize negationsFrom 0 cs = p at hle
  obtain ⟨negations, rest⟩ := p
  refine .set ?_
  have hpath : At (leaving Dangles) (Within n) rest
      (do pure (Nat.repeat negate negations (← g.pathFrom .branch lead)))
      (fun m => do
        pure (Nat.repeat negate negations (← (grammar (m + (k + 1))).pathFrom .branch lead))) :=
    (h.pathFrom_closed (by decide) lead rest n hle hn).mapWithin _
  refine .peek (fun hnil => ?_) fun c r hcons => ?_
  · subst hnil
    cases lead <;> exact hpath
  · rw [← hcons]
    split
    · subst hcons
      have hdotted := (h.path_closed (by decide : Place.branch ≠ .top)
        (h.dottedSegment_closed .branch) r n (Nat.le_of_succ_le hle) hn).mapWithin
          (Nat.repeat negate negations)
      simp only [bind_assoc, pure_bind] at hdotted
      refine .skip ?_
      simp only [pure_bind]
      exact hdotted
    · exact hpath

theorem terms (lead : Accessor) : Separates N Dangles '&' (g.groupTerm lead)
    fun m => (grammar (m + (k + 1))).groupTerm lead where
  reads := h.groupTerm_closed lead
  noBlank := fun _ hD => hD.noBlank
  behind := by
    -- with the parenthesis a term after the ampersand ends where the filter term does
    intro y a r' hy hD hrun
    have hat := h.groupTerm_closed lead _ _ (Nat.le_refl _) (length_dropWhile_lt hy)
    refine hD.completes.lags (k := k + 1) hat hrun fun m t b r'' ht hb => ?_
    exact groupTerm_of_filterTerm (overlaps_grammar _) ht stops_nil hb

theorem conjunction_closed (lead : Accessor) :
    Sim N (leaving fun r => Dangles r ∧ r.head? ≠ some '&') (g.conjunction lead)
      fun m => (grammar (m + (k + 1))).conjunction lead := by
  intro cs n hcs hn
  refine ((h.terms lead).separated (by decide) cs n hcs hn).answers fun terms => ?_
  split <;> exact ⟨_, rfl⟩

theorem branch_closed (lead : Accessor) :
    Sim N (leaving fun r => Dangles r ∧ r.head? ≠ some '&')
      (do
        let segments ← g.conjunction lead
        let cut ← cutMark
        pure (Branch.mk segments cut))
      (fun m => do
        let segments ← (grammar (m + (k + 1))).conjunction lead
        let cut ← cutMark
        pure (Branch.mk segments cut)) := by
  intro cs n hcs hn
  refine (h.conjunction_closed lead cs n hcs hn).bind_stays (fun segments r hr => ?_)
    (fun segments => ⟨_, fun _ => rfl⟩) fun segments r hD => .map (.of_ok hD.1.cutMark) _
  exact (cutMark_closed hr).of_never.mapWithin _

theorem branchesFrom_closed (lead : Accessor) :
    Sim N failing (g.branchesFrom lead) fun m => (grammar (m + (k + 1))).branchesFrom lead := by
  have hbranches : Separates N (fun r => Dangles r ∧ r.head? ≠ some '&') ',' _ _ :=
    { reads := h.branch_closed lead
      noBlank := fun _ hD => hD.1.noBlank
      behind := by
        intro y a r' hy hD hrun
        have hat := h.branch_closed lead _ _ (Nat.le_refl _) (length_dropWhile_lt hy)
        refine hD.1.completes.lags (k := k + 1) hat hrun fun m t b r'' ht hb => ?_
        obtain ⟨segments, mid, hsegments, hb⟩ := bind_eq_ok hb
        obtain rfl := conjunction_of_filterTerm (overlaps_grammar _) ht hsegments
        cases hb
        rfl }
  intro cs n hcs hn
  refine (hbranches.separated (by decide) cs n hcs hn).mono fun o ho r hr => ?_
  -- what dangles begins with one of the separators, and both have been read past
  obtain ⟨⟨⟨c, y, rfl, hc, -⟩, hand⟩, hcomma⟩ := ho r hr
  rcases hc with rfl | rfl
  · exact hand rfl
  · exact hcomma rfl

/-! ### Filters -/

theorem compareFilter_closed :
    Sim N failing g.compareFilter fun m => (grammar (m + (k + 1))).compareFilter := by
  intro cs n hcs hn
  refine (h.pathFrom_closed (by decide : Place.filterKey ≠ .top) .key cs n hcs hn).bind_blocked
    (fun key r hr => ?_) (fun key => ⟨_, fun _ => rfl⟩) fun key r hD => ?_
  · refine .peek (fun hnil => ?_) fun c r' hcons => ?_
    · simp only [Option.none_beq_some, Option.some_beq_some, Char.reduceBEq, Bool.false_eq_true,
        if_false, pure_bind]
      exact compared_closed (Nat.zero_le n) (fun _ _ => .fail _ _) fun op _ hr =>
        (comparedPattern_closed op hr).mapWithin _
    rw [← hcons]
    dsimp only
    split
    · refine (transforms_closed hr).bind_blocked (fun chain r hr => ?_)
        (fun chain => ⟨_, fun _ => rfl⟩) fun chain r hnil => ?_
      · exact compared_closed hr (fun _ _ => .fail _ _) fun op _ hr =>
          (comparedPattern_closed op hr).mapWithin _
      · subst hnil
        exact ⟨_, rfl⟩
    · simp only [pure_bind]
      exact compared_closed hr (fun _ _ => .fail _ _) fun op _ hr =>
        (comparedPattern_closed op hr).mapWithin _
  · have hhead : (r.head? == some '|') = false :=
      beq_eq_false_iff_ne.mpr (hD.head?_ne (by decide))
    rw [run_bind_of_ok (run_peek r), hhead, if_neg Bool.false_ne_true,
      run_bind_of_ok (run_pure _ r)]
    dsimp only
    rw [run_bind_of_ok (comparison_of_noGuard hD.stops.noGuard)]
    exact ⟨_, rfl⟩

theorem filterTerm_failing :
    Sim N failing g.filterTerm fun m => (grammar (m + (k + 1))).filterTerm := by
  intro cs n hcs hn
  refine (At.takeWhile (by decide) hcs).bind_never fun marks r hr => ?_
  refine .eat (by decide) (fun r' hr' => ?_) fun _ => ?_
  · subst hr'
    have hlt : r'.length < n := hr
    refine (At.skipBlanks (Nat.le_sub_one_of_lt hlt)).bind_never fun _ r hr => ?_
    simp only [pure_bind]
    refine (h.filter r (n - 1) hr (by omega)).of_filterLag.bind_blocked (fun f r hr => ?_)
      (fun f => ⟨_, fun _ => rfl⟩) fun f r hD => ?_
    · refine (At.skipBlanks hr).bind_never fun _ r hr => ?_
      refine .expect_close (fun r' hr' => .pure ?_) leaving_none ⟨_, fun _ => rfl⟩
      subst hr'
      have hr : r'.length + 1 ≤ n - 1 := hr
      show r'.length ≤ n
      omega
    · exact hD.expect (by decide) _
  · exact (h.compareFilter_closed r n hr hn).mapWithin _

/-- With the parenthesis a filter term that lags behind has read the whole text. -/
theorem filterTerm_closed : ∀ cs n, cs.length ≤ n → n ≤ N →
    At (filterLag cs) (Within n) cs g.filterTerm fun m => (grammar (m + (k + 1))).filterTerm := by
  intro cs n hcs hn
  refine (h.filterTerm_failing cs n hcs hn).mono_of_taken fun o b ho hrun => ?_
  cases o with
  | some r => exact (ho r rfl).elim
  | none =>
    -- the family reaches every grammar from this depth on
    refine ⟨b, k + 1, fun m hm => ?_⟩
    rw [← dropWhile_closed (by decide), filterTerm_dropWhile (hrun 0)]
    have := hrun (m - (k + 1))
    rwa [Nat.sub_add_cancel hm] at this

end Nested

/-! ### Filters with separators -/

theorem completes_dropWhile {y : List Char} : Completes (y.dropWhile Text.isBlank) ↔ Completes y := by
  unfold Completes
  rw [List.dropWhile_idempotent]

theorem nextAfter_answers (separator : Char) (blanks : Bool) (term : Parse Filter) :
    Answers (Grammar.nextAfter separator blanks term) := by
  intro cs
  by_cases hhead : cs.head? = some separator
  · obtain ⟨y, rfl⟩ := List.head?_eq_some_iff.mp hhead
    rw [nextAfter_cons]
    split <;> exact ⟨_, rfl⟩
  · exact ⟨_, nextAfter_of_head?_ne hhead⟩

/-- A filter that goes together with the deeper ones, and with the parenthesis reads the whole text
if a filter term does. -/
structure CompletesWith (N k : Nat) (term : Parse Filter) (term' : Nat → Parse Filter) : Prop where
  reads : ∀ cs n, cs.length ≤ n → n ≤ N → At (filterLag cs) (Within n) cs term term'
  taken : ∀ m z t b r, (grammar (m + k)).filterTerm z = .ok (t, []) →
    term' m z = .ok (b, r) → r = []

namespace CompletesWith

variable {separator : Char} {blanks : Bool} {term : Parse Filter} {term' : Nat → Parse Filter}

theorem inner_closed (h : CompletesWith N k term term') {c : Char} {r : List Char}
    (hr : r.length ≤ n) (hn : n ≤ N) :
    At (filterLag r) (Within n) (c :: r)
      (do
        skip 1
        if blanks then skipBlanks
        term)
      (fun m => do
        skip 1
        if blanks then skipBlanks
        term' m) := by
  cases blanks with
  | false => exact .skip (h.reads r n hr hn)
  | true =>
    refine .skip ?_
    refine .of_eq (run_bind_of_ok (run_skipBlanks r))
      (fun m => ?_) ((h.reads (r.dropWhile Text.isBlank) n ?_ hn).mono fun o ho => ?_)
    · rw [← dropWhile_closed (by decide)]
      exact run_bind_of_ok (run_skipBlanks _)
    · exact Nat.le_trans (length_dropWhile_le _ _) hr
    · cases o with
      | none => exact completes_dropWhile.mp ho
      | some r => exact ho

section

variable (h : CompletesWith N k term term') (hsep : separator = '&' ∨ separator = ',')
  (hblanks : ∀ y f t, term (afterBlanks blanks y) = .ok (f, t) →
    afterBlanks blanks y = y.dropWhile Text.isBlank)

include h hsep hblanks

theorem repeats : Repeats N Dangles (Grammar.nextAfter separator blanks term)
    fun m => Grammar.nextAfter separator blanks (term' m) where
  reads := by
    intro cs n hcs hn
    refine .peek (fun hnil => ?_) fun c r hcons => ?_
    · rcases hsep with rfl | rfl <;> exact .pure (Nat.zero_le n)
    subst hcons
    split
    · rename_i hc
      obtain rfl : c = separator := by simpa using hc
      have hlt : r.length < n := hcs
      refine (h.inner_closed (Nat.le_sub_one_of_lt hlt) (by omega)).attempt_fits hcs
        (fun f r' hr' => ?_) (fun hcompletes => ?_) fun r' hr' => leaving_some hr'
      · have hr' : r'.length ≤ n - 1 := hr'
        show r'.length + 1 ≤ n
        omega
      · exact leaving_some ⟨_, r, rfl, hsep, hcompletes⟩
    · exact .pure hcs
  ends := fun m => nextAfter_of_head?_ne (by simp)
  behind := by
    intro r o r' hN hD hrun
    by_cases hhead : r.head? = some separator
    · obtain ⟨y, rfl⟩ := List.head?_eq_some_iff.mp hhead
      rw [nextAfter_cons] at hrun
      cases hf : term (afterBlanks blanks y) with
      | error e =>
        rw [hf] at hrun
        cases hrun
        exact hD
      | ok p =>
        obtain ⟨f, t⟩ := p
        rw [hf] at hrun
        cases hrun
        -- the term after the separator dangles again
        rw [hblanks y f r' hf] at hf
        have hat := h.reads _ _ (Nat.le_refl _) (length_dropWhile_lt hN)
        exact hD.completes.lags hat.of_filterLag hf fun m => h.taken m _
    · rw [nextAfter_of_head?_ne hhead] at hrun
      cases hrun
      exact hD

theorem joined_nil {join : List Filter → Parse Filter} {f : Filter} (hjoin : join [] = pure f)
    (m : Nat) :
    (many (Grammar.nextAfter separator blanks (term' m)) >>= join) [] = .ok (f, []) := by
  rw [run_bind_of_ok ((h.repeats hsep hblanks).many_nil m), hjoin]
  rfl

/-- Terms with separators go together with the deeper ones if the terms do. -/
theorem joined (join : Filter → List Filter → Parse Filter)
    (hjoin : ∀ f fs, ∃ f', join f fs = pure f') :
    CompletesWith N k
      (do
        let first ← term
        join first (← many (Grammar.nextAfter separator blanks term)))
      (fun m => do
        let first ← term' m
        join first (← many (Grammar.nextAfter separator blanks (term' m)))) where
  reads := by
    have hmany := h.repeats hsep hblanks
    have htotal := nextAfter_answers separator blanks term
    intro cs n hcs hn
    refine (h.reads cs n hcs hn).bind (fun first r hr => ?_) (fun hcompletes first e _ => ?_)
      fun first first' r hD hr _ => ?_
    · obtain ⟨p, hp⟩ := htotal.many r
      exact ((hmany.many r n hr hn).of_answers hp fun _ hD => hD).answers (hjoin first)
    · obtain ⟨f, hf⟩ := hjoin first []
      exact .of_passes ⟨f, fun m => h.joined_nil hsep hblanks hf m⟩ hcompletes
    · -- the first term lags behind: the terms after it do too
      obtain ⟨⟨fs, q⟩, hq⟩ := htotal.many r
      obtain ⟨hD', hle⟩ := hmany.many_behind hD (Nat.le_trans hr hn) hq
      obtain ⟨f, hf⟩ := hjoin first fs
      obtain ⟨f', hf'⟩ := hjoin first' []
      refine ⟨_, fun m => h.joined_nil hsep hblanks hf' m, ?_⟩
      rw [run_bind_of_ok hq, hf]
      exact .behind f' hD' (Nat.le_trans hle hr)
  taken := by
    intro m z t b r ht hrun
    obtain ⟨first, mid, hfirst, hrun⟩ := bind_eq_ok hrun
    obtain rfl := h.taken m z t first mid ht hfirst
    obtain ⟨f, hf⟩ := hjoin first []
    rw [h.joined_nil hsep hblanks hf m] at hrun
    cases hrun
    rfl

end

end CompletesWith

namespace Nested

variable (h : Nested N k g)

include h

theorem completesWith_filterTerm :
    CompletesWith N (k + 1) g.filterTerm fun m => (grammar (m + (k + 1))).filterTerm where
  reads := h.filterTerm_closed
  taken := by
    intro m z t b r ht hrun
    rw [ht] at hrun
    cases hrun
    rfl

theorem completesWith_filterAnd :
    CompletesWith N (k + 1) g.filterAnd fun m => (grammar (m + (k + 1))).filterAnd := by
  refine h.completesWith_filterTerm.joined (.inl rfl) (fun y f t hf => ?_) _ fun f fs => ?_
  · exact (filterTerm_dropWhile hf).symm
  · cases fs <;> exact ⟨_, rfl⟩

theorem completesWith_filterOr :
    CompletesWith N (k + 1) g.filterOr fun m => (grammar (m + (k + 1))).filterOr := by
  refine h.completesWith_filterAnd.joined (.inr rfl) (fun y f t hf => rfl) _ fun f fs => ?_
  cases fs <;> exact ⟨_, rfl⟩

/-- **What a deeper grammar nests goes together with what the ones deeper still do.** -/
theorem deepen : Nested (N + 1) (k + 1) g.deepen where
  filter := fun cs n hcs hn => h.completesWith_filterOr.reads cs n hcs (Nat.le_of_lt_succ hn)
  branches := fun lead cs n hcs hn => h.branchesFrom_closed lead cs n hcs (Nat.le_of_lt_succ hn)
  path := fun cs n hcs hn => h.pathFrom_closed (by decide) .key cs n hcs (Nat.le_of_lt_succ hn)

end Nested

/-- A grammar that is deep enough goes together with the deeper ones. -/
theorem nested_grammar : ∀ n, Nested n n (grammar n)
  | 0 => ⟨fun _ _ _ h => (nomatch h), fun _ _ _ _ h => (nomatch h), fun _ _ _ h => (nomatch h)⟩
  | n + 1 => (nested_grammar n).deepen

end DottedPath.Parse

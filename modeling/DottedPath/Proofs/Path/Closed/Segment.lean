import DottedPath.Proofs.Path.Closed.FilterTerm
import DottedPath.Proofs.Path.Closed.Suffix

/-!
# Segments before a closing parenthesis

A filter after an ampersand may take the parenthesis where the reader without it finds no filter and
leaves the ampersand.  What then follows the ampersand is a filter term with the parenthesis
(`Dangles`), and nothing of it is read before the group ends: no segment, suffix or mark begins with
an ampersand or a comma.

The segments of a grammar go together with those of the deeper ones if what is nested in them does
on shorter texts (`Nested`).
-/

namespace DottedPath.Parse

variable {cs : List Char} {n : Nat}

/-! ### Dangling separators -/

/-- With the parenthesis a filter term reads the whole text, in all grammars that are deep
enough. -/
def Completes (y : List Char) : Prop :=
  ∃ f k, ∀ m, k ≤ m → (grammar m).filterTerm (closed (y.dropWhile Text.isBlank)) = .ok (f, [])

/-- A separator is left, and with the parenthesis what follows it is read as a filter term. -/
def Dangles (r : List Char) : Prop := ∃ c y, r = c :: y ∧ (c = '&' ∨ c = ',') ∧ Completes y

/-- How a filter lags behind. -/
def filterLag (cs : List Char) : Lag
  | none => Completes cs
  | some r => Dangles r

theorem At.of_filterLag {α : Type} {fits : α → List Char → Prop} {f : Parse α} {F : Nat → Parse α}
    {z : List Char} (h : At (filterLag z) fits cs f F) : At (leaving Dangles) fits cs f F := by
  refine h.mono fun o ho r hr => ?_
  subst hr
  exact ho

namespace Dangles

variable {r : List Char}

theorem stops (h : Dangles r) : Stops r := by
  obtain ⟨c, y, rfl, rfl | rfl, -⟩ := h <;> (rintro _ ⟨⟩; exact .inr (by decide))

theorem head?_ne (h : Dangles r) {c : Char} (hc : c ≠ '&' ∧ c ≠ ',') : r.head? ≠ some c := by
  obtain ⟨d, y, rfl, hd, -⟩ := h
  rintro ⟨⟩
  exact hd.elim hc.1 hc.2

theorem noBlank (h : Dangles r) : r.dropWhile Text.isBlank = r := by
  obtain ⟨c, y, rfl, rfl | rfl, -⟩ := h <;> rfl

theorem endsAt (h : Dangles r) {place : Place} (hplace : place ≠ .top) :
    endsAt place r = true := by
  obtain ⟨c, y, rfl, hc, -⟩ := h
  cases place with
  | top => exact absurd rfl hplace
  | branch => rcases hc with rfl | rfl <;> rfl
  | filterKey => rcases hc with rfl | rfl <;> rfl

theorem nextSegment (h : Dangles r) (g : Grammar) {place : Place} (hplace : place ≠ .top) :
    g.nextSegment place r = .ok (none, r) := by
  rw [Grammar.nextSegment, run_bind_of_ok (run_get r), h.endsAt hplace]
  rfl

theorem cutMark (h : Dangles r) : cutMark r = .ok (.none, r) := by
  obtain ⟨c, y, rfl, rfl | rfl, -⟩ := h <;> rfl

/-- No key begins with a dangling separator. -/
theorem access (h : Dangles r) {g : Grammar} {place : Place} {accessor : Accessor} {s : Segment}
    {q : List Char} : (g.access place accessor >>= suffixes place) r ≠ .ok (s, q) := by
  obtain ⟨c, y, rfl, hc, -⟩ := h
  intro hrun
  refine access_of_noKeyChar (c := c) ?_ rfl hrun
  rcases hc with rfl | rfl <;> decide

/-- No bracket is closed by a dangling separator. -/
theorem expect {β : Type} (h : Dangles r) {c : Char} (hc : c ≠ '&' ∧ c ≠ ',') (k : Unit → Parse β) :
    ∃ e, (do skipBlanks; k (← expect c)) r = .error e := by
  obtain ⟨e, he⟩ := expect_bind_of_head?_ne (k := k) (h.head?_ne hc)
  exact ⟨e, by rw [run_bind_of_ok (run_skipBlanks r), h.noBlank, he]⟩

end Dangles

/-- **What follows a dangling separator dangles again**, for a reader that reads the whole text with
the parenthesis if a filter term does. -/
theorem Completes.lags {α : Type} {P : List Char → Prop} {y r : List Char} {k : Nat} (h : Completes y)
    {f : Parse α} {F : Nat → Parse α} {fits : α → List Char → Prop} {a : α}
    (hat : At (leaving P) fits (y.dropWhile Text.isBlank) f F)
    (hrun : f (y.dropWhile Text.isBlank) = .ok (a, r))
    (htaken : ∀ m t b r', (grammar (m + k)).filterTerm (closed (y.dropWhile Text.isBlank)) =
      .ok (t, []) → F m (closed (y.dropWhile Text.isBlank)) = .ok (b, r') → r' = []) :
    P r := by
  obtain ⟨t, i, ht⟩ := h
  exact hat.lag_of_ok hrun (fun b r' => htaken i t b r' (ht (i + k) (Nat.le_add_right i k))) r rfl

theorem Dangles.completes {c : Char} {y : List Char} (h : Dangles (c :: y)) : Completes y := by
  obtain ⟨d, y', heq, -, hy⟩ := h
  rwa [(List.cons.inj heq).2]

theorem stops_nil : Stops [] := by
  rintro c ⟨⟩

/-- A reader that answers takes nothing from a text. -/
def Stays {α : Type} (f : Parse α) (r : List Char) : Prop := ∀ a r', f r = .ok (a, r') → r' = r

namespace Stays

variable {α β : Type} {r : List Char} {f : Parse α} {k : α → Parse β}

theorem pure (a : α) : Stays (pure a) r := by
  rintro _ _ ⟨⟩
  rfl

theorem of_ok {a : α} (h : f r = .ok (a, r)) : Stays f r := by
  intro b r' hrun
  rw [h] at hrun
  cases hrun
  rfl

theorem bind (hf : Stays f r) (hk : ∀ a, Stays (k a) r) : Stays (f >>= k) r := by
  intro b r' hrun
  obtain ⟨a, mid, ha, hb⟩ := bind_eq_ok hrun
  obtain rfl := hf a mid ha
  exact hk a b r' hb

theorem map (hf : Stays f r) (g : α → β) : Stays (f >>= fun a => Pure.pure (g a)) r :=
  hf.bind fun a => .pure (g a)

theorem eat {c : Char} (h : r.head? ≠ some c) : Stays (eat c) r := .of_ok (eat_of_head?_ne h)

theorem many {item : Parse (Option α)} (h : Stays item r) : Stays (many item) r := by
  have hwithin (p : Nat) : Stays (manyWithin item p) r := by
    induction p with
    | zero => exact .pure []
    | succ p ih =>
      refine .bind h fun o => ?_
      cases o with
      | none => exact .pure []
      | some x => exact ih.map (x :: ·)
  exact fun xs r' hrun => hwithin _ xs r' hrun

theorem suffixes (h : Stops r) (place : Place) (s : Segment) : Stays (suffixes place s) r :=
  .of_ok (suffixes_of_noGuard place s h.noGuard)

end Stays

/-- After a step that lags behind nothing more is taken. -/
theorem At.bind_stays {α β : Type} {P : List Char → Prop} {f : Parse α} {F : Nat → Parse α}
    {k : α → Parse β} {K : Nat → α → Parse β} (hf : At (leaving P) (Within n) cs f F)
    (hk : ∀ a r, r.length ≤ n → At (leaving P) (Within n) r (k a) fun m => K m a)
    (hend : ∀ b, Passes fun m => K m b) (hstays : ∀ a r, P r → Stays (k a) r) :
    At (leaving P) (Within n) cs (f >>= k) fun m => F m >>= K m := by
  refine hf.bind_leaving hk leaving_none hend fun a r b r' hP hr hrun => ?_
  obtain rfl := hstays a r hP b r' hrun
  exact ⟨leaving_some hP, hr⟩

/-! ### Segments -/

/-- The readers go together on all texts of a length, and take a character at least. -/
def Takes {α : Type} (N : Nat) (lag : Lag) (f : Parse α) (F : Nat → Parse α) : Prop :=
  ∀ cs n, cs.length ≤ n → n ≤ N → At lag (Below n) cs f F

/-- What a grammar nests goes together with what deeper grammars nest, on shorter texts. -/
structure Nested (N k : Nat) (g : Grammar) : Prop where
  filter : ∀ cs n, cs.length ≤ n → n < N →
    At (filterLag cs) (Within n) cs g.filter fun m => (grammar (m + (k + 1))).filter
  branches : ∀ lead cs n, cs.length ≤ n → n < N →
    At failing (Within n) cs (g.branches lead) fun m => (grammar (m + (k + 1))).branches lead
  path : ∀ cs n, cs.length ≤ n → n < N →
    At (leaving Dangles) (Within n) cs (g.path .branch .key)
      fun m => (grammar (m + (k + 1))).path .branch .key

namespace Nested

variable {N k : Nat} {g : Grammar} (h : Nested N k g)

include h

theorem filterSuffix_closed :
    Sim N (leaving Dangles) g.filterSuffix fun m => (grammar (m + (k + 1))).filterSuffix := by
  intro cs n hcs hn
  refine .peek (fun hnil => .pure (Nat.zero_le n)) fun c r hcons => ?_
  subst hcons
  split
  · rename_i hc
    obtain rfl : c = '&' := by simpa using hc
    have hlt : r.length < n := hcs
    have hf : At (filterLag r) (Within n) r g.filter fun m => (grammar (m + (k + 1))).filter :=
      (h.filter r (n - 1) (by omega) (by omega)).imp fun _ r hr => Nat.le_trans hr (Nat.sub_le n 1)
    -- the filter is given back where it fails: its ampersand dangles
    refine .attempt hcs (.skip hf) (fun hcompletes => ?_) fun r' hr' => leaving_some hr'
    exact leaving_some ⟨_, r, rfl, .inl rfl, hcompletes⟩
  · exact .pure hcs

theorem access_closed (place : Place) (accessor : Accessor) :
    Sim N (leaving Dangles) (g.access place accessor)
      fun m => (grammar (m + (k + 1))).access place accessor := by
  intro cs n hcs hn
  refine (keyPattern_closed hcs).bind_failing (fun p r hr => ?_) leaving_none fun p => ?_
  · obtain ⟨key, first⟩ := p
    dsimp only
    split
    · exact .pure hr
    · refine (h.filterSuffix_closed r n hr hn).bind_stays (fun f r hr => ?_) (fun f => ?_)
        fun f r hD => ?_
      · cases f with
        | none => exact .pure hr
        | some f => exact (At.eatMark (by decide) hr).of_never.mapWithin _
      · cases f <;> exact ⟨_, fun _ => rfl⟩
      · cases f with
        | none => exact .pure _
        | some f => exact .map (.eat (hD.head?_ne (by decide))) _
  · obtain ⟨key, first⟩ := p
    dsimp only
    split <;> exact .inl ⟨_, fun _ => rfl⟩

theorem group_closed (lead : Accessor) :
    Takes N failing (g.group lead) fun m => (grammar (m + (k + 1))).group lead := by
  intro cs n hcs hn
  refine .expect (by decide) fun r hr => ?_
  subst hr
  have hlt : r.length < n := hcs
  refine (h.branches lead r (n - 1) (by omega) (by omega)).bind_failing (fun bs r hr => ?_)
    leaving_none fun bs => .inr ⟨_, fun _ => rfl⟩
  refine (At.skipBlanks hr).bind_never fun _ r hr => ?_
  refine .expect_close (fun r' hr' => ?_) leaving_none ⟨_, fun _ => rfl⟩
  subst hr'
  have hr : r'.length + 1 ≤ n - 1 := hr
  exact (At.eatMark (by decide) (Nat.le_refl _)).of_never.map _ fun _ r hle => by
    have hle : r.length ≤ r'.length := hle
    show r.length < n
    omega

theorem groupSegment_closed (place : Place) (lead : Accessor) :
    Takes N failing (g.groupSegment place lead)
      fun m => (grammar (m + (k + 1))).groupSegment place lead := by
  intro cs n hcs hn
  refine (h.group_closed lead cs n hcs hn).bind_failing (fun s r hr => ?_) leaving_none
    fun s => .inl ?_
  · exact (suffixes_closed place s (Nat.le_refl _)).imp fun _ _ hle => Nat.lt_of_le_of_lt hle hr
  · cases place <;> exact ⟨_, fun _ => rfl⟩

/-! ### Recursive segments -/

theorem recursiveBranches_closed :
    Sim N failing g.recursiveBranches fun m => (grammar (m + (k + 1))).recursiveBranches := by
  intro cs n hcs hn
  refine .expect (by decide) fun r hr => ?_
  subst hr
  have hlt : r.length < n := hcs
  have hreads : Sim (n - 1) (leaving Dangles)
      (do
        let segments ← g.path .branch .key
        let cut ← cutMark
        pure (Branch.mk segments cut))
      (fun m => do
        let segments ← (grammar (m + (k + 1))).path .branch .key
        let cut ← cutMark
        pure (Branch.mk segments cut)) := by
    intro cs n' hcs hn'
    refine (h.path cs n' hcs (by omega)).bind_stays (fun segments r hr => ?_)
      (fun segments => ⟨_, fun _ => rfl⟩) fun segments r hD => ?_
    · exact (cutMark_closed hr).of_never.mapWithin _
    · exact .map (.of_ok hD.cutMark) _
  have hitem : Separates (n - 1) Dangles ',' _ _ :=
    { reads := hreads
      noBlank := fun _ hD => hD.noBlank
      behind := by
        intro y a r' hy hD hrun
        have hle : (y.dropWhile Text.isBlank).length ≤ n - 1 :=
          Nat.le_trans (length_dropWhile_le _ _) (Nat.le_of_lt hy)
        refine hD.completes.lags (k := k) (hreads _ _ hle (Nat.le_refl _)) hrun ?_
        intro m t b r' ht hb
        obtain ⟨segments, mid, hsegments, hb⟩ := bind_eq_ok hb
        obtain rfl := pathFrom_of_filterTerm (overlaps_grammar (m + k)) ht stops_nil hsegments
        cases hb
        rfl }
  refine (hitem.separated (by decide) r (n - 1) (by omega) (Nat.le_refl _)).bind_blocked
    (fun bs r hr => ?_) (fun bs => ⟨_, fun _ => rfl⟩) fun bs r hD => hD.1.expect (by decide) _
  refine (At.skipBlanks hr).bind_never fun _ r hr => ?_
  refine .expect_close (fun r' hr' => .pure ?_) leaving_none ⟨_, fun _ => rfl⟩
  subst hr'
  exact Nat.le_trans (Nat.le_of_succ_le hr) (Nat.sub_le n 1)

omit h in
/-- What stands after the first asterisk of a recursive segment, if it is none of its own signs. -/
theorem recursiveKey_cons {c : Char} (hstar : c ≠ '*') (hslash : c ≠ '/') (hparen : c ≠ '(')
    (r : List Char) : g.recursiveKey (c :: r) =
      (if isWordChar c || c == '\\' || isQuote c || (c == '#' && r.head?.any isQuote) then
        do pure (some (.literal (← keyLiteral), []))
      else pure none : Parse (Option (KeyPattern × List Branch))) (c :: r) := by
  rw [Grammar.recursiveKey, run_bind_of_ok (run_get _)]
  generalize hz : c :: r = z
  split
  · exact absurd (List.cons.inj hz).1 hstar
  · exact absurd (List.cons.inj hz).1 hslash
  · exact absurd (List.cons.inj hz).1 hparen
  · obtain ⟨rfl, rfl⟩ := List.cons.inj hz
    rfl
  · cases hz

omit h in
theorem recursiveKey_paren (r : List Char) : g.recursiveKey ('(' :: r) =
    (if r.head? == some '.' then pure none
      else do pure (some (.wildcard, ← g.recursiveBranches)) :
        Parse (Option (KeyPattern × List Branch))) ('(' :: r) := rfl

theorem recursiveKey_closed :
    Sim N failing g.recursiveKey fun m => (grammar (m + (k + 1))).recursiveKey := by
  intro cs n hcs hn
  cases cs with
  | nil => exact .ok (a := none) rfl (fun _ => rfl) hcs
  | cons c r =>
    -- the reader looks at the first character only, and each of its cases reads the same twice
    by_cases hstar : c = '*'
    · subst hstar
      exact .get (.skip (.pure (Nat.le_of_succ_le hcs)))
    by_cases hslash : c = '/'
    · subst hslash
      exact .get ((regex_closed hcs).of_never.mapWithin _)
    by_cases hparen : c = '('
    · subst hparen
      refine .of_eq (recursiveKey_paren r) (fun m => recursiveKey_paren (closed r)) ?_
      rw [head?_closed_beq (by decide)]
      split
      · exact .pure hcs
      · exact (h.recursiveBranches_closed _ n hcs hn).mapWithin _
    refine .of_eq (recursiveKey_cons hstar hslash hparen r)
      (fun m => recursiveKey_cons hstar hslash hparen (closed r)) ?_
    have hquote : (closed r).head?.any isQuote = r.head?.any isQuote := by
      rw [List.head?_eq_getElem?, List.head?_eq_getElem?]
      exact any_isQuote_closed 0 r
    rw [hquote]
    split
    · exact (keyLiteral_closed hcs).mapWithin _
    · exact .pure hcs

omit h in
/-- If a recursive segment follows nothing, nothing is taken. -/
theorem recursiveKey_none {z r : List Char} (hrun : g.recursiveKey z = .ok (none, r)) : r = z := by
  rw [Grammar.recursiveKey, run_bind_of_ok (run_get z)] at hrun
  split at hrun
  · cases hrun
  · obtain ⟨a, mid, -, hrun⟩ := bind_eq_ok hrun
    cases hrun
  · split at hrun
    · cases hrun
      rfl
    · obtain ⟨a, mid, -, hrun⟩ := bind_eq_ok hrun
      cases hrun
  · split at hrun
    · obtain ⟨a, mid, -, hrun⟩ := bind_eq_ok hrun
      cases hrun
    · cases hrun
      rfl
  · cases hrun
    rfl

omit h in
theorem recursiveMarksWithin_closed (key : KeyPattern) : ∀ {p q : Nat} {cs : List Char}
    (branches : List Branch) (depth : DepthRange), cs.length ≤ n → cs.length < p →
    cs.length + 1 < q →
    At failing (Within n) cs (Grammar.recursiveMarksWithin key p branches depth)
      fun _ => Grammar.recursiveMarksWithin key q branches depth
  | p + 1, q + 1, cs, branches, depth, hcs, hp, hq => by
    refine restrictionAhead_closed (fun r hr => ?_)
      (.eat (by decide) (fun r hr => ?_) fun _ => .pure hcs)
    · subst hr
      simp only [List.length_cons] at hcs hp hq
      refine .skip ((kindRestriction_closed (Nat.le_refl _)).bind_failing (fun kinds r' hr' => ?_)
        leaving_none fun kinds => .inl ?_)
      · have hr' : r'.length ≤ r.length := hr'
        exact recursiveMarksWithin_closed key _ _ (by omega) (by omega) (by omega)
      · obtain ⟨q, rfl⟩ : ∃ i, q = i + 1 := ⟨q - 1, by omega⟩
        exact ⟨_, fun _ => rfl⟩
    · subst hr
      simp only [List.length_cons] at hcs hp hq
      refine (depthRange_closed (Nat.le_refl _)).bind_never fun depth r' hr' => ?_
      have hr' : r'.length ≤ r.length := hr'
      exact recursiveMarksWithin_closed key _ _ (by omega) (by omega) (by omega)

omit h in
/-- The guard at the end of a recursive segment. -/
theorem guarded_closed (s : Segment) (hcs : cs.length ≤ n) : At (leaving Dangles) (Within n) cs
    (do
      match ← guardTest with
      | some test => pure (some (Segment.guard s test))
      | none => pure (some s))
    (fun _ => do
      match ← guardTest with
      | some test => pure (some (Segment.guard s test))
      | none => pure (some s)) := by
  exact (guardTest_closed hcs).of_failing.answers fun test => by cases test <;> exact ⟨_, rfl⟩

omit h in
theorem guarded_stays (s : Segment) {r : List Char} (hr : Stops r) : Stays
    (do
      match ← guardTest with
      | some test => pure (some (Segment.guard s test))
      | none => pure (some s)) r := by
  refine .bind (.of_ok (guardTest_of_noGuard hr.noGuard)) fun test => ?_
  cases test <;> exact .pure _

omit h in
theorem guarded_ne_none (s : Segment) {z r : List Char} : (do
    match ← guardTest with
    | some test => pure (some (Segment.guard s test))
    | none => pure (some s) : Parse (Option Segment)) z ≠ .ok (none, r) := by
  intro hrun
  obtain ⟨test, mid, -, hrun⟩ := bind_eq_ok hrun
  cases test <;> cases hrun

theorem recursive_closed {c : Char} {r : List Char} (hcs : (c :: r).length ≤ n) (hn : n ≤ N) :
    At (leaving Dangles) (Within n) (c :: r) g.recursive
      fun m => (grammar (m + (k + 1))).recursive := by
  have hkey := h.recursiveKey_closed r n (Nat.le_of_succ_le hcs) hn
  refine .get (.skip (hkey.bind (fun o r' hr' => ?_) (fun _ o e hrun => ?_)
    fun _ _ _ hlag => (hlag _ rfl).elim))
  -- that nothing is read is told by the key alone, which the parenthesis is not
  · cases o with
    | none => exact .set (.pure hcs)
    | some p =>
      obtain ⟨key, branches⟩ := p
      refine (At.eatMark (by decide) hr').bind_never fun first r hr => .get ?_
      rw [length_closed]
      refine (recursiveMarksWithin_closed key branches .unbounded hr (Nat.lt_succ_self _)
        (Nat.lt_succ_self _)).bind_failing (fun marks r hr => ?_) leaving_none
        fun marks => .inl ⟨_, fun _ => rfl⟩
      refine (h.filterSuffix_closed r n hr hn).bind_stays (fun filter r hr => ?_)
        (fun filter => ?_) fun filter r hD => ?_
      · cases filter with
        | none => exact guarded_closed _ hr
        | some f =>
          exact (At.eatMark (by decide) hr).bind_never fun marked r hr => guarded_closed _ hr
      · cases filter <;> exact ⟨_, fun _ => rfl⟩
      · cases filter with
        | none => exact guarded_stays _ hD.stops
        | some f => exact .bind (.eat (hD.head?_ne (by decide))) fun _ => guarded_stays _ hD.stops
  · cases o with
    | none => exact absurd (recursiveKey_none (hrun 0)).symm (closed_ne_nil r)
    | some p => exact .of_passes ⟨_, fun _ => rfl⟩ leaving_none

omit h in
theorem recursive_none {z r : List Char} (hrun : g.recursive z = .ok (none, r)) : r = z := by
  rw [Grammar.recursive, run_bind_of_ok (run_get z), run_bind_of_ok (run_skip 1 z)] at hrun
  obtain ⟨o, mid, -, hrun⟩ := bind_eq_ok hrun
  cases o with
  | none =>
    cases hrun
    rfl
  | some p =>
    -- every other answer is a segment
    obtain ⟨first, mid, -, hrun⟩ := bind_eq_ok hrun
    obtain ⟨cs, mid, -, hrun⟩ := bind_eq_ok hrun
    obtain ⟨marks, mid, -, hrun⟩ := bind_eq_ok hrun
    obtain ⟨filter, mid, -, hrun⟩ := bind_eq_ok hrun
    dsimp only at hrun
    split at hrun
    · obtain ⟨marked, mid, -, hrun⟩ := bind_eq_ok hrun
      exact (guarded_ne_none _ hrun).elim
    · exact (guarded_ne_none _ hrun).elim

/-- A key access with its suffixes. -/
theorem suffixedAccess_closed (place : Place) (accessor : Accessor) :
    Sim N (leaving Dangles) (g.access place accessor >>= suffixes place)
      fun m => (grammar (m + (k + 1))).access place accessor >>= suffixes place := by
  intro cs n hcs hn
  refine (h.access_closed place accessor cs n hcs hn).bind_stays
    (fun s r hr => (suffixes_closed place s hr).of_failing) (fun s => ?_)
    fun s r hD => .suffixes hD.stops place s
  cases place <;> exact ⟨_, fun _ => rfl⟩

theorem keySegment_closed (place : Place) :
    Sim N (leaving Dangles) (g.keySegment place)
      fun m => (grammar (m + (k + 1))).keySegment place := by
  intro cs n hcs hn
  refine .peek (fun hnil => ?_) fun c r hcons => ?_
  · exact h.suffixedAccess_closed place .key [] n (Nat.zero_le n) hn
  · subst hcons
    dsimp only
    split
    · -- a recursive segment that has taken the parenthesis is not a plain asterisk
      refine (h.recursive_closed hcs hn).bind (fun o r' hr' => ?_) (fun _ o e hrun => ?_)
        fun o o' r' hD hr' hrun => ?_
      · cases o with
        | none => exact h.suffixedAccess_closed place .key r' n hr' hn
        | some s => exact .pure hr'
      · cases o with
        | none => exact absurd (recursive_none (hrun 0)).symm (closed_ne_nil _)
        | some s => exact .of_passes ⟨s, fun _ => rfl⟩ leaving_none
      · cases o' with
        | none => exact absurd (recursive_none (hrun 0)).symm (closed_ne_nil _)
        | some s =>
          refine .of_behind ⟨s, fun _ => rfl⟩ leaving_none fun t q ht => ?_
          cases o with
          | none => exact ((hD _ rfl).access ht).elim
          | some s =>
            cases ht
            exact ⟨hD, hr'⟩
    · exact h.suffixedAccess_closed place .key _ n hcs hn

/-! ### Attributes -/

omit h in
theorem attrMarksFrom_closed (marked afterAt : Bool) (cs : List Char) :
    attrMarksFrom marked afterAt (closed cs) =
      ((attrMarksFrom marked afterAt cs).1, closed (attrMarksFrom marked afterAt cs).2) := by
  fun_induction attrMarksFrom marked afterAt cs with
  | case1 marked afterAt cs ih => exact ih
  | case2 marked afterAt cs ih => exact ih
  | case3 marked afterAt cs hnop hat =>
    cases cs with
    | nil => rfl
    | cons c cs =>
      rw [closed_cons, attrMarksFrom]
      · rintro _ ⟨⟩
        exact hnop _ rfl
      · rintro _ ⟨⟩
        exact hat _ rfl

theorem attrBody_closed (place : Place) (afterAt : Bool) :
    Sim N (leaving Dangles) (g.attrBody place afterAt)
      fun m => (grammar (m + (k + 1))).attrBody place afterAt := by
  intro cs n hcs hn
  refine .get ?_
  rw [attrMarksFrom_closed]
  have hle : (attrMarksFrom false afterAt cs).2.length ≤ n :=
    Nat.le_trans (length_attrMarksFrom_le ..) hcs
  generalize attrMarksFrom false afterAt cs = p at hle
  obtain ⟨⟨marked, after⟩, rest⟩ := p
  refine .set ?_
  have haccess : At (leaving Dangles) (Within n) rest
      ((g.access place .attr >>= suffixes place) >>= fun s => pure (nopIf marked s))
      (fun m => ((grammar (m + (k + 1))).access place .attr >>= suffixes place) >>= fun s =>
        pure (nopIf marked s)) :=
    (h.suffixedAccess_closed place .attr rest n hle hn).mapWithin _
  simp only [bind_assoc] at haccess
  refine .peek (fun hnil => ?_) fun c r hcons => ?_
  · subst hnil
    cases after <;> exact haccess
  · rw [← hcons]
    split
    · exact (h.groupSegment_closed place .attr rest n hle hn).within.of_failing.mapWithin _
    · exact haccess

theorem attrSegment_closed (place : Place) :
    Takes N (leaving Dangles) (g.attrSegment place)
      fun m => (grammar (m + (k + 1))).attrSegment place := by
  intro cs n hcs hn
  refine .expect (by decide) fun r hr => ?_
  subst hr
  have hbody := h.attrBody_closed place true r r.length (Nat.le_refl _)
    (Nat.le_of_succ_le (Nat.le_trans hcs hn))
  exact hbody.imp fun _ _ hle => Nat.lt_of_le_of_lt hle hcs

/-! ### Brackets -/

theorem bracketFilter_closed :
    ∀ cs n, cs.length ≤ n → n < N →
    At never (Within n) cs g.bracketFilter fun m => (grammar (m + (k + 1))).bracketFilter := by
  intro cs n hcs hn
  have hread : At never (Within n) cs
      (do
        let f ← g.filter
        let first ← eat '?'
        if ← eat ']' then pure (some (Segment.sliceFilter f first)) else fail "expected ']'")
      (fun m => do
        let f ← (grammar (m + (k + 1))).filter
        let first ← eat '?'
        if ← eat ']' then pure (some (Segment.sliceFilter f first)) else fail "expected ']'") := by
    -- neither the end of the text nor a dangling separator closes the bracket
    refine (h.filter cs n hcs hn).of_filterLag.bind_blocked (fun f r hr => ?_)
      (fun f => ⟨_, fun _ => rfl⟩) fun f r hD => ?_
    · refine (At.eatMark (by decide) hr).bind_never fun first r hr => ?_
      refine (At.eatMark (by decide) hr).bind_never fun closed r hr => ?_
      split
      · exact .pure hr
      · exact .fail _ _
    · rw [run_bind_of_ok (eat_of_head?_ne (hD.head?_ne (by decide))),
        run_bind_of_ok (eat_of_head?_ne (hD.head?_ne (by decide)))]
      exact ⟨_, rfl⟩
  simp only [Grammar.bracketFilter, map_eq_pure_bind]
  exact (At.attempt hcs hread (fun h => h) fun _ h => h).mapWithin _

theorem bracketSlot_closed (place : Place) :
    Sim N failing (g.bracketSlot place) fun m => (grammar (m + (k + 1))).bracketSlot place := by
  intro cs n hcs hn
  refine (h.access_closed place .slot cs n hcs hn).bind_blocked (fun s r hr => ?_)
    (fun s => ⟨_, fun _ => rfl⟩) fun s r hD => hD.expect (by decide) _
  refine (At.skipBlanks hr).bind_never fun _ r hr => .expect (by decide) fun r' hr' => ?_
  subst hr'
  exact suffixes_closed place s (Nat.le_of_succ_le hr)

theorem bracketBody_closed (place : Place) :
    ∀ cs n, cs.length ≤ n → n < N →
    At failing (Within n) cs (g.bracketBody place)
      fun m => (grammar (m + (k + 1))).bracketBody place := by
  intro cs n hcs hn
  have hslot (r : List Char) (hr : r.length ≤ n) : At failing (Within n) r (g.bracketSlot place)
      fun m => (grammar (m + (k + 1))).bracketSlot place :=
    h.bracketSlot_closed place r n hr (Nat.le_of_lt hn)
  refine (At.skipBlanks hcs).bind_never fun _ r hr => ?_
  refine (At.eatMark (by decide) hr).bind_never fun empty r hr => ?_
  split
  · exact suffixes_closed place _ hr
  -- what stands alone between brackets: an append mark, a slice, a filter, a group or a slot
  refine .eatText (by decide) (fun r' hr' => suffixes_closed place _ ?_) ?_
  · subst hr'
    exact Nat.le_trans (List.suffix_append _ r').length_le hr
  refine .eatText (by decide) (fun r' hr' => suffixes_closed place _ ?_) ?_
  · subst hr'
    exact Nat.le_trans (List.suffix_append _ r').length_le hr
  refine (sliceRange_closed hr).bind_never fun range r hr => ?_
  cases range with
  | some range => exact suffixes_closed place _ hr
  | none =>
    dsimp only
    split
    · exact hslot r hr
    refine (h.bracketFilter_closed r n hr hn).bind_never fun s r hr => ?_
    cases s with
    | some s => exact suffixes_closed place s hr
    | none =>
      refine .peek (fun hnil => hslot [] (Nat.zero_le n)) fun c r' hcons => ?_
      rw [← hcons]
      split
      · have hgroup := (h.group_closed .slot r n hr (Nat.le_of_lt hn)).within
        refine hgroup.bind_failing (fun s r hr => ?_) leaving_none fun s => .inr ⟨_, fun _ => rfl⟩
        refine (At.skipBlanks hr).bind_never fun _ r hr => .expect (by decide) fun r' hr' => ?_
        subst hr'
        exact suffixes_closed place s (Nat.le_of_succ_le hr)
      · exact hslot r hr

theorem bracketSegment_closed (place : Place) :
    Takes N failing (g.bracketSegment place)
      fun m => (grammar (m + (k + 1))).bracketSegment place := by
  intro cs n hcs hn
  refine .expect (by decide) fun r hr => ?_
  subst hr
  have hlt : r.length < n := hcs
  refine (At.skipBlanks (Nat.le_refl r.length)).bind_never fun _ r' hr => ?_
  refine (At.eatMark (by decide) hr).bind_never fun marked r' hr => ?_
  exact (h.bracketBody_closed place r' r.length hr (by omega)).map _ fun _ _ hle =>
    Nat.lt_of_le_of_lt hle hlt

/-! ### Paths -/

theorem slotToken_closed (place : Place) :
    Sim N (leaving Dangles) (g.slotToken place)
      fun m => (grammar (m + (k + 1))).slotToken place := by
  intro cs n hcs hn
  refine (At.takeWhile (by decide) hcs).bind_never fun marks r hr => ?_
  have hbody : At (leaving Dangles) (Within n) r (g.slotBody place)
      fun m => (grammar (m + (k + 1))).slotBody place := by
    refine .eatText (by decide) (fun r' hr' => .pure ?_) ?_
    · subst hr'
      exact Nat.le_trans (List.suffix_append _ r').length_le hr
    refine (At.eatMark (by decide) hr).bind_never fun append r hr => ?_
    split
    · exact .pure hr
    · exact h.suffixedAccess_closed place .slot r n hr hn
  exact hbody.mapWithin _

theorem dottedSegment_closed (place : Place) :
    Sim N (leaving Dangles) (g.dottedSegment place)
      fun m => (grammar (m + (k + 1))).dottedSegment place := by
  intro cs n hcs hn
  simp only [Grammar.dottedSegment]
  split
  · exact h.keySegment_closed place cs n hcs hn
  refine (At.takeWhile (by decide) hcs).bind_never fun marks r hr => ?_
  have hkey : At (leaving Dangles) (Within n) r
      (do pure (nopIf (!marks.isEmpty) (← g.keySegment place)))
      (fun m => do pure (nopIf (!marks.isEmpty) (← (grammar (m + (k + 1))).keySegment place))) :=
    (h.keySegment_closed place r n hr hn).mapWithin _
  refine .peek (fun hnil => ?_) fun c r' hcons => ?_
  · subst hnil
    exact hkey
  · rw [← hcons]
    split
    · exact (h.groupSegment_closed place .key r n hr hn).within.of_failing.mapWithin _
    · exact hkey

theorem markedFirst_closed (place : Place) :
    Sim N (leaving Dangles) (g.markedFirst place)
      fun m => (grammar (m + (k + 1))).markedFirst place := by
  intro cs n hcs hn
  refine .peek (fun hnil => h.keySegment_closed place [] n (Nat.zero_le n) hn) fun c r hcons => ?_
  rw [← hcons]
  split
  · exact (h.attrSegment_closed place cs n hcs hn).within
  · exact (h.bracketSegment_closed place cs n hcs hn).within.of_failing
  · exact (h.groupSegment_closed place .key cs n hcs hn).within.of_failing
  · exact h.keySegment_closed place cs n hcs hn

theorem firstKeySegment_closed (place : Place) :
    Sim N (leaving Dangles) (g.firstKeySegment place)
      fun m => (grammar (m + (k + 1))).firstKeySegment place := by
  intro cs n hcs hn
  refine .peek (fun hnil => .fail _ _) fun c r hcons => ?_
  have hkey : At (leaving Dangles) (Within n) (c :: r) (g.keySegment place)
      fun m => (grammar (m + (k + 1))).keySegment place := by
    rw [← hcons]
    exact h.keySegment_closed place cs n hcs hn
  subst hcons
  have hr : r.length ≤ n := Nat.le_of_succ_le hcs
  split
  · split
    · exact hkey
    · exact .skip ((h.markedFirst_closed place r n hr hn).mapWithin _)
  · exact (h.attrSegment_closed place _ n hcs hn).within
  · exact (h.bracketSegment_closed place _ n hcs hn).within.of_failing
  · split
    · exact hkey
    · exact (h.groupSegment_closed place .key _ n hcs hn).within.of_failing
  · exact .fail _ _
  · exact .fail _ _
  · exact .fail _ _
  · exact .fail _ _
  · exact .fail _ _
  · exact hkey

theorem firstSegment_closed (place : Place) (lead : Accessor) :
    Sim N (leaving Dangles) (g.firstSegment place lead)
      fun m => (grammar (m + (k + 1))).firstSegment place lead := by
  cases lead with
  | slot => exact h.slotToken_closed place
  | attr => exact h.attrBody_closed place false
  | key => exact h.firstKeySegment_closed place

theorem markedNext_closed (place : Place) :
    Sim N (leaving Dangles) (g.markedNext place)
      fun m => (grammar (m + (k + 1))).markedNext place := by
  intro cs n hcs hn
  refine .peek (fun hnil => .fail _ _) fun c r hcons => ?_
  subst hcons
  split
  · rename_i heq
    exact .skip (h.dottedSegment_closed place r n (Nat.le_of_succ_le hcs) hn)
  · exact (h.attrSegment_closed place _ n hcs hn).within
  · exact (h.bracketSegment_closed place _ n hcs hn).within.of_failing
  · exact .fail _ _

omit h in
theorem endsAt_closed {place : Place} (hplace : place ≠ .top) (cs : List Char) :
    endsAt place (closed cs) = endsAt place cs := by
  cases cs with
  | nil =>
    cases place with
    | top => exact absurd rfl hplace
    | branch => rfl
    | filterKey => rfl
  | cons c cs =>
    by_cases hbar : c = '|'
    · subst hbar
      rfl
    cases place with
    | top => exact absurd rfl hplace
    | branch => rw [closed_cons, endsAt.eq_4 c _ hbar, endsAt.eq_4 c _ hbar]
    | filterKey =>
      rw [closed_cons, endsAt.eq_5 c _ hbar, endsAt.eq_5 c _ hbar, head?_closed_beq (by decide)]

theorem nextSegment_closed {place : Place} (hplace : place ≠ .top) : ∀ cs n, cs.length ≤ n → n ≤ N →
    At (leaving Dangles) (Item n) cs (g.nextSegment place)
      fun m => (grammar (m + (k + 1))).nextSegment place := by
  intro cs n hcs hn
  refine .get ?_
  rw [endsAt_closed hplace]
  split
  · exact .pure hcs
  refine .peek (fun hnil => .fail _ _) fun c r hcons => ?_
  subst hcons
  have hlt : r.length < n := hcs
  have hdot (i : Nat) : Within r.length i r := Nat.le_refl _
  split
  · have hdotted := h.dottedSegment_closed place r r.length (Nat.le_refl _) (by omega)
    exact .skip (hdotted.map _ fun _ _ hle => Nat.lt_of_le_of_lt hle hlt)
  · exact (h.bracketSegment_closed place _ n hcs hn).of_failing.map _ fun _ _ h => h
  · exact (h.attrSegment_closed place _ n hcs hn).map _ fun _ _ h => h
  · split
    · exact .fail _ _
    · exact (h.groupSegment_closed place .key _ n hcs hn).of_failing.map _ fun _ _ h => h
  · split
    · exact .fail _ _
    · have hmarked := h.markedNext_closed place r r.length (Nat.le_refl _) (by omega)
      exact .skip (hmarked.map _ fun _ _ hle => Nat.lt_of_le_of_lt hle hlt)
  · exact .fail _ _

end Nested

end DottedPath.Parse

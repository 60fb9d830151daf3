import DottedPath.Proofs.Path.Unbounded.Segment
import Mathlib.Data.List.DropRight

/-!
# A filter read as branches of a group

After an ampersand or a comma a filter is tried before the next term of a group.  Where both can be
read they are read from the same characters: a comparison is a path with a guard on its last
segment, a filter in parentheses is a group, filters that must all hold are a conjunction, and
filters of which one must hold are branches.  For filters in parentheses this goes by induction on
the depth of the grammar (`Overlaps`).

## Main statements

- `groupTerm_of_filterTerm`: a filter term and a term of a conjunction end at the same place.
- `overlaps_grammar`: in every grammar a filter and the branches of a group close at the same place.
-/

namespace DottedPath.Parse

variable {g : Grammar} {z q q' r : List Char}

/-! ### Terms -/

/-- A filter term without its exclamation marks: a filter in parentheses, or a comparison. -/
inductive TermBody (g : Grammar) (z r : List Char) : Prop where
  | group {x mid : List Char} {f : Filter} (hz : z = '(' :: x)
      (hf : g.filter (x.dropWhile Text.isBlank) = .ok (f, mid))
      (hclose : mid.dropWhile Text.isBlank = ')' :: r)
  | compare {f : Filter} (hz : z.head? ≠ some '(') (hf : g.compareFilter z = .ok (f, r))

theorem filterTerm_ok {f : Filter} (h : g.filterTerm z = .ok (f, r)) :
    TermBody g (z.dropWhile (· == '!')) r := by
  rw [Grammar.filterTerm, run_bind_of_ok (run_takeWhile _ z)] at h
  generalize z.dropWhile (· == '!') = x at h ⊢
  by_cases hx : x.head? = some '('
  · obtain ⟨y, rfl⟩ := List.head?_eq_some_iff.mp hx
    rw [run_bind_of_ok (eat_cons_self '(' y), if_pos rfl, run_bind_of_ok (run_skipBlanks y)] at h
    obtain ⟨f', mid, hf, h⟩ := bind_eq_ok h
    rw [run_bind_of_ok (run_skipBlanks mid)] at h
    obtain ⟨_, rest, hclose, h⟩ := bind_eq_ok h
    cases h
    exact .group rfl hf (cons_of_expect hclose)
  · rw [run_bind_of_ok (eat_of_head?_ne hx), if_neg Bool.false_ne_true] at h
    obtain ⟨f', hf⟩ := eq_ok_of_map h
    exact .compare hx hf

/-- A comparison begins with a key, an attribute or a bracket. -/
theorem compareFilter_head {f : Filter} (h : g.compareFilter z = .ok (f, r)) :
    ∃ c cs, z = c :: cs ∧ Text.isBlank c = false ∧ c ∉ ['!', '.', '('] := by
  obtain ⟨path, mid, test, hpath, -⟩ := compareFilter_ok h
  obtain ⟨s, q, hs, -⟩ := bind_eq_ok hpath
  rcases firstKeySegment_filterKey hs with ⟨-, hz⟩ | ⟨-, hz⟩ | hs
  · obtain ⟨cs, rfl⟩ := List.head?_eq_some_iff.mp hz
    exact ⟨_, _, rfl, by decide⟩
  · obtain ⟨cs, rfl⟩ := List.head?_eq_some_iff.mp hz
    exact ⟨_, _, rfl, by decide⟩
  · obtain ⟨p, hkey⟩ := keySegment_filterKey hs
    obtain ⟨c, cs, rfl, hc, hblank⟩ := keyPattern_head hkey
    refine ⟨c, cs, rfl, hblank, fun hmem => hc ?_⟩
    have hsub : ∀ c ∈ ['!', '.', '('], c ∈ noKeyChars := forall_mem_of_all (by decide)
    exact hsub c hmem

theorem TermBody.head (h : TermBody g z r) :
    ∃ c cs, z = c :: cs ∧ Text.isBlank c = false ∧ c ∉ ['!', '.'] := by
  cases h with
  | group hz => exact ⟨_, _, hz, by decide⟩
  | compare hz hf =>
    obtain ⟨c, cs, rfl, hblank, hc⟩ := compareFilter_head hf
    refine ⟨c, cs, rfl, hblank, fun hmem => hc ?_⟩
    exact List.mem_append_left ['('] hmem

/-- No filter begins with a blank. -/
theorem filterTerm_dropWhile {f : Filter} (h : g.filterTerm z = .ok (f, r)) :
    z.dropWhile Text.isBlank = z := by
  obtain ⟨c, cs, hz, hblank, -⟩ := (filterTerm_ok h).head
  cases z with
  | nil => rfl
  | cons d z =>
    refine List.dropWhile_cons_of_neg ?_
    by_cases hd : d = '!'
    · subst hd
      decide
    · rw [List.dropWhile_cons_of_neg (by simpa using hd)] at hz
      cases hz
      simpa using hblank

/-- A group that reads what a filter in parentheses does ends where it does. -/
theorem groupSegment_of_filter (hg : Overlaps g) {x mid : List Char} {f : Filter} {s : Segment}
    {r' : List Char} (hf : g.filter (x.dropWhile Text.isBlank) = .ok (f, mid))
    (hclose : mid.dropWhile Text.isBlank = ')' :: r) (hr : Stops r)
    (h : g.groupSegment .branch .key ('(' :: x) = .ok (s, r')) : r' = r := by
  obtain ⟨t, y, ht, hsuffix⟩ := bind_eq_ok h
  rw [Grammar.group, run_bind_of_ok (expect_cons_self '(' x)] at ht
  obtain ⟨bs, w, hbs, ht⟩ := bind_eq_ok ht
  have hw : w.dropWhile Text.isBlank = ')' :: r :=
    (hg.branches x f mid bs w hf (by rw [Closes, hclose]; rfl) hbs).trans hclose
  have hmark : r.head? ≠ some '?' := fun hhead => by
    have := hr '?' hhead
    revert this
    decide
  rw [run_bind_of_ok (run_skipBlanks w), hw, run_bind_of_ok (expect_cons_self ')' r),
    run_bind_of_ok (eat_of_head?_ne hmark)] at ht
  cases ht
  exact Suffixed.eq_of_noGuard ⟨_, _, hsuffix⟩ hr.noGuard

theorem pathFrom_of_termBody (hg : Overlaps g) (hbody : TermBody g z r) (hr : Stops r)
    {lead : Accessor} {path : List Segment} {r' : List Char}
    (h : g.pathFrom .branch lead z = .ok (path, r')) : r' = r := by
  cases hbody with
  | compare hz hf => exact pathFrom_of_compareFilter hg hf hr h
  | @group x mid f hz hf hclose =>
    subst hz
    obtain ⟨s, mid', hs, hrun⟩ := bind_eq_ok h
    obtain ⟨ss, hss⟩ := eq_ok_of_map hrun
    cases lead with
    | key =>
      rw [groupSegment_of_filter hg hf hclose hr hs] at hss
      exact manyWithin_of_stops hr hss
    | slot =>
      obtain ⟨t, ht⟩ := slotToken_access hs (by simp) (by simp)
      exact (access_of_noKeyChar (c := '(') (by decide) rfl ht).elim
    | attr =>
      obtain ⟨t, ht⟩ := attrBody_access hs (by simp) (by simp)
      exact (access_of_noKeyChar (c := '(') (by decide) rfl ht).elim

theorem negationsFrom_eq (count : Nat) {c : Char} (hblank : Text.isBlank c = false)
    {cs : List Char} : ∀ z : List Char, z.dropWhile (· == '!') = c :: cs →
    (negationsFrom count z).2 = c :: cs := by
  intro z hz
  induction z generalizing count with
  | nil => cases hz
  | cons d z ih =>
    by_cases hd : d = '!'
    · subst hd
      rw [List.dropWhile_cons_of_pos (by decide)] at hz
      rw [negationsFrom, if_neg (by decide), if_pos (by decide)]
      exact ih (count + 1) hz
    · rw [List.dropWhile_cons_of_neg (by simpa using hd)] at hz
      cases hz
      have hblank : ¬ Text.isBlank c = true := by simp [hblank]
      rw [negationsFrom, if_neg hblank, if_neg (by simpa using hd)]

/-- **A filter term and a term of a conjunction are read from the same characters.** -/
theorem groupTerm_of_filterTerm (hg : Overlaps g) {f : Filter} {lead : Accessor}
    {term : List Segment} {r' : List Char} (h : g.filterTerm z = .ok (f, r)) (hr : Stops r)
    (h' : g.groupTerm lead z = .ok (term, r')) : r' = r := by
  have hbody := filterTerm_ok h
  obtain ⟨c, cs, hz, hblank, hc⟩ := hbody.head
  have hrest : (negationsFrom 0 z).2 = c :: cs :=
    negationsFrom_eq 0 hblank z hz
  rw [hz] at hbody
  rw [Grammar.groupTerm, run_bind_of_ok (run_get z)] at h'
  generalize negationsFrom 0 z = p at hrest h'
  obtain ⟨count, rest⟩ := p
  dsimp only at hrest h'
  subst hrest
  have hpoint : (lead == .key && (c :: cs).head? == some '.') = false := by
    rw [Bool.and_eq_false_iff, List.head?_cons, beq_eq_false_iff_ne (b := some '.')]
    exact .inr fun hpoint => hc (by rw [Option.some.inj hpoint]; decide)
  rw [run_bind_of_ok (run_set z _), run_bind_of_ok (run_peek _), hpoint,
    if_neg Bool.false_ne_true] at h'
  obtain ⟨path, hpath⟩ := eq_ok_of_map h'
  exact pathFrom_of_termBody hg hbody hr hpath

/-- A filter term and a path of a branch are read from the same characters. -/
theorem pathFrom_of_filterTerm (hg : Overlaps g) {f : Filter} {path : List Segment} {r' : List Char}
    (h : g.filterTerm z = .ok (f, r)) (hr : Stops r)
    (h' : g.pathFrom .branch .key z = .ok (path, r')) : r' = r := by
  have hbody := filterTerm_ok h
  obtain ⟨s, mid, hs, -⟩ := bind_eq_ok h'
  have hmarks : z.dropWhile (· == '!') = z := by
    cases z with
    | nil => rfl
    | cons c cs =>
      refine List.dropWhile_cons_of_neg fun hc => ?_
      obtain rfl : c = '!' := by simpa using hc
      -- no key begins with an exclamation mark
      have hkey : (g.access .branch .key >>= suffixes .branch) ('!' :: cs) = .ok (s, mid) := hs
      exact access_of_noKeyChar (c := '!') (by decide) rfl hkey
  rw [hmarks] at hbody
  exact pathFrom_of_termBody hg hbody hr h'

/-! ### Filters and branches -/

section NextAfter

variable {separator : Char} {blanks : Bool} {term : Parse Filter}

/-- Where the term after a separator begins. -/
def afterBlanks (blanks : Bool) (y : List Char) : List Char :=
  if blanks then y.dropWhile Text.isBlank else y

theorem nextAfter_of_head?_ne (h : z.head? ≠ some separator) :
    Grammar.nextAfter separator blanks term z = .ok (none, z) := by
  rw [Grammar.nextAfter, run_bind_of_ok (run_peek z), if_neg (by simpa using h)]
  rfl

/-- A term after a separator is tried. -/
theorem nextAfter_cons (y : List Char) :
    Grammar.nextAfter separator blanks term (separator :: y) =
      match term (afterBlanks blanks y) with
      | .ok (f, t) => .ok (some f, t)
      | .error _ => .ok (none, separator :: y) := by
  have hrun : (do
      skip 1
      if blanks then skipBlanks
      term : Parse Filter) (separator :: y) = term (afterBlanks blanks y) := by
    cases blanks <;> rfl
  rw [Grammar.nextAfter, run_bind_of_ok (run_peek _), if_pos (by simp), attempt, hrun]
  cases term (afterBlanks blanks y) <;> rfl

theorem manyWithin_nextAfter_head {p : Nat} {fs : List Filter}
    (h : manyWithin (Grammar.nextAfter separator blanks term) p z = .ok (fs, r)) :
    r = z ∨ z.head? = some separator := by
  by_cases hz : z.head? = some separator
  · exact .inr hz
  · refine .inl ?_
    cases p with
    | zero =>
      cases h
      rfl
    | succ p =>
      rw [manyWithin, run_bind_of_ok (nextAfter_of_head?_ne hz)] at h
      cases h
      rfl

/-- Where no separator follows there are no more items. -/
theorem afterItem_of_not_closes {α : Type} {item : Parse α} {p : Nat} {t : List Char} {x : α}
    {xs : List α} (ht : ¬ Closes separator t)
    (h : Separates.afterItem separator item p x t = .ok (xs, r)) :
    r = t.dropWhile Text.isBlank := by
  rw [Separates.afterItem, run_bind_of_ok (run_skipBlanks t),
    run_bind_of_ok (eat_of_head?_ne ht)] at h
  cases h
  rfl

/-- After a separator another item is read. -/
theorem afterItem_of_separator {α : Type} {item : Parse α} {p : Nat} {t y : List Char} {x : α}
    {xs : List α} (ht : t.dropWhile Text.isBlank = separator :: y) (hp : t.length ≤ p)
    (h : Separates.afterItem separator item p x t = .ok (xs, r)) :
    ∃ q x' mid ys, y.length ≤ q ∧ item (y.dropWhile Text.isBlank) = .ok (x', mid) ∧
      Separates.afterItem separator item q x' mid = .ok (ys, r) := by
  rw [Separates.afterItem, run_bind_of_ok (run_skipBlanks t), ht,
    run_bind_of_ok (eat_cons_self separator y), if_pos rfl] at h
  have hlen : (separator :: y).length ≤ t.length := by
    rw [← ht]
    exact length_dropWhile_le _ _
  obtain ⟨q, rfl⟩ : ∃ i, p = i + 1 := ⟨p - 1, by simp at hlen; omega⟩
  obtain ⟨ys, hys⟩ := eq_ok_of_map h
  rw [Separates.separatedWithin_succ, run_bind_of_ok (run_skipBlanks y)] at hys
  obtain ⟨x', mid, hx', hys⟩ := bind_eq_ok hys
  refine ⟨q, x', mid, ys, ?_, hx', hys⟩
  simp only [List.length_cons] at hlen
  omega

/-- **The terms after a separator go together with the items after it**, as far as the terms are
read. -/
theorem afterItem_of_nextAfter (hsep : Text.isBlank separator = false) {α : Type} {item : Parse α}
    {ends : List Char → Prop} (hinside : ∀ n, Agree n item item)
    (hterm : ∀ y f t a t', term (afterBlanks blanks y) = .ok (f, t) → ends t →
      item (y.dropWhile Text.isBlank) = .ok (a, t') →
      t'.dropWhile Text.isBlank = t.dropWhile Text.isBlank)
    (hends : ∀ y, ends (separator :: y)) (hr : ends r) (hclose : ¬ Closes separator r) :
    ∀ {p p' : Nat} {t t' r' : List Char} {x : α} {fs : List Filter} {xs : List α},
    manyWithin (Grammar.nextAfter separator blanks term) p t = .ok (fs, r) →
    t'.dropWhile Text.isBlank = t.dropWhile Text.isBlank → t'.length ≤ p' →
    Separates.afterItem separator item p' x t' = .ok (xs, r') → r' = r.dropWhile Text.isBlank := by
  intro p p' t t' r' x fs xs h ht hp h'
  -- no separator follows: both have come to their end
  have hstop {t' : List Char} {p' : Nat} {x : α} {xs : List α}
      (ht : t'.dropWhile Text.isBlank = r.dropWhile Text.isBlank)
      (h' : Separates.afterItem separator item p' x t' = .ok (xs, r')) :
      r' = r.dropWhile Text.isBlank := by
    have hclose' : ¬ Closes separator t' := by rwa [Closes, ht]
    rw [afterItem_of_not_closes hclose' h', ht]
  induction p generalizing p' t t' x fs xs with
  | zero =>
    cases h
    exact hstop ht h'
  | succ p ih =>
    obtain ⟨o, mid, ho, hrun⟩ := bind_eq_ok h
    by_cases hhead : t.head? = some separator
    · obtain ⟨y, rfl⟩ := List.head?_eq_some_iff.mp hhead
      have hblank : (separator :: y).dropWhile Text.isBlank = separator :: y :=
        List.dropWhile_cons_of_neg (by rw [hsep]; exact Bool.false_ne_true)
      rw [nextAfter_cons] at ho
      cases hf : term (afterBlanks blanks y) with
      | error e =>
        rw [hf] at ho
        cases ho
        cases hrun
        exact absurd (congrArg List.head? hblank) hclose
      | ok q =>
        obtain ⟨f, u⟩ := q
        rw [hf] at ho
        cases ho
        obtain ⟨gs, hgs⟩ := eq_ok_of_map hrun
        have hmid : ends mid := by
          rcases manyWithin_nextAfter_head hgs with rfl | hmid
          · exact hr
          · obtain ⟨v, rfl⟩ := List.head?_eq_some_iff.mp hmid
            exact hends v
        obtain ⟨i, x', u', ys, hi, hx', hys⟩ := afterItem_of_separator (ht.trans hblank) hp h'
        have hle : u'.length ≤ y.length :=
          (hinside y.length).length_le (length_dropWhile_le _ _) hx'
        exact ih hgs (hterm y f mid x' u' hf hmid hx') (Nat.le_trans hle hi) hys
    · rw [nextAfter_of_head?_ne hhead] at ho
      cases ho
      cases hrun
      exact hstop ht h'

end NextAfter

/-- After a term of a conjunction in parentheses another one begins, another branch, or the
parentheses close. -/
def EndsTerm (t : List Char) : Prop := Closes ')' t ∨ t.head? = some ',' ∨ t.head? = some '&'

theorem EndsTerm.stops {t : List Char} (h : EndsTerm t) : Stops t := by
  intro c hc
  rcases h with h | h | h
  · obtain ⟨d, cs, rfl, hd⟩ := h.head
    cases hc
    exact hd.imp_right fun hd => by rw [hd]; decide
  · rw [Option.mem_def.mp hc] at h
    cases h
    exact .inr (by decide)
  · rw [Option.mem_def.mp hc] at h
    cases h
    exact .inr (by decide)

theorem separated_dropWhile {α : Type} {separator : Char} {item : Parse α} {xs : List α}
    (h : separated separator item z = .ok (xs, r)) :
    ∃ x mid, item (z.dropWhile Text.isBlank) = .ok (x, mid) ∧
      Separates.afterItem separator item z.length x mid = .ok (xs, r) := by
  rw [separated, run_bind_of_ok (run_get z), Separates.separatedWithin_succ,
    run_bind_of_ok (run_skipBlanks z)] at h
  exact bind_eq_ok h

theorem conjunction_separated {lead : Accessor} {segments : List Segment}
    (h : g.conjunction lead z = .ok (segments, r)) :
    ∃ terms, separated '&' (g.groupTerm lead) z = .ok (terms, r) := by
  obtain ⟨terms, mid, hterms, h⟩ := bind_eq_ok h
  split at h <;> (cases h; exact ⟨_, hterms⟩)

/-- After a term of a conjunction in parentheses another branch begins, or the parentheses close. -/
def EndsBranch (t : List Char) : Prop := Closes ')' t ∨ t.head? = some ','

theorem Closes.not {c d : Char} (h : Closes c r) (hcd : c ≠ d) : ¬ Closes d r := by
  intro hd
  rw [Closes, h] at hd
  exact hcd (Option.some.inj hd)

theorem closes_of_head? {c : Char} (hc : Text.isBlank c = false) (h : r.head? = some c) :
    Closes c r := by
  obtain ⟨cs, rfl⟩ := List.head?_eq_some_iff.mp h
  rw [Closes, List.dropWhile_cons_of_neg (by rw [hc]; exact Bool.false_ne_true)]
  rfl

theorem filterAnd_ok {f : Filter} (h : g.filterAnd z = .ok (f, r)) :
    ∃ first t fs p, g.filterTerm z = .ok (first, t) ∧
      manyWithin (Grammar.nextAfter '&' false g.filterTerm) p t = .ok (fs, r) := by
  obtain ⟨first, t, hfirst, hrun⟩ := bind_eq_ok h
  obtain ⟨fs, mid, hfs, hrun⟩ := bind_eq_ok hrun
  refine ⟨first, t, fs, t.length + 1, hfirst, ?_⟩
  split at hrun <;> (cases hrun; exact hfs)

theorem filterOr_ok {f : Filter} (h : g.filterOr z = .ok (f, r)) :
    ∃ first t fs p, g.filterAnd z = .ok (first, t) ∧
      manyWithin (Grammar.nextAfter ',' true g.filterAnd) p t = .ok (fs, r) := by
  obtain ⟨first, t, hfirst, hrun⟩ := bind_eq_ok h
  obtain ⟨fs, mid, hfs, hrun⟩ := bind_eq_ok hrun
  refine ⟨first, t, fs, t.length + 1, hfirst, ?_⟩
  split at hrun <;> (cases hrun; exact hfs)

/-- Filters that must all hold go together with the terms of a conjunction. -/
theorem conjunction_of_filterAnd (hg : Overlaps g) (hself : ∀ n, g.AgreeBelow n g) {f : Filter}
    {lead : Accessor} {segments : List Segment} {r' : List Char} (h : g.filterAnd z = .ok (f, r))
    (hr : EndsBranch r) (h' : g.conjunction lead z = .ok (segments, r')) :
    r' = r.dropWhile Text.isBlank := by
  obtain ⟨first, t, fs, p, hfirst, hfs⟩ := filterAnd_ok h
  obtain ⟨terms, hterms⟩ := conjunction_separated h'
  obtain ⟨x, t', hx, hafter⟩ := separated_dropWhile hterms
  rw [filterTerm_dropWhile hfirst] at hx
  have hends : EndsTerm r := hr.imp_right .inl
  have ht : EndsTerm t := by
    rcases manyWithin_nextAfter_head hfs with rfl | ht
    · exact hends
    · exact .inr (.inr ht)
  have hclose : ¬ Closes '&' r :=
    hr.elim (·.not (by decide)) fun hr => (closes_of_head? (by decide) hr).not (by decide)
  refine afterItem_of_nextAfter (by decide) (fun n => (hself n).groupTerm lead) ?_
    (fun _ => .inr (.inr rfl)) hends hclose hfs ?_ ?_ hafter
  · intro y f u a u' hf hu ha
    rw [filterTerm_dropWhile (show g.filterTerm y = _ from hf)] at ha
    rw [groupTerm_of_filterTerm hg hf hu.stops ha]
  · rw [groupTerm_of_filterTerm hg hfirst ht.stops hx]
  · exact ((hself z.length).groupTerm lead).length_le (Nat.le_refl _) hx

/-- No cut mark stands at the end of a branch. -/
theorem cutMark_of_endsBranch (hr : EndsBranch r) :
    cutMark (r.dropWhile Text.isBlank) = .ok (.none, r.dropWhile Text.isBlank) := by
  obtain ⟨c, cs, hcs, hblank, hc⟩ : ∃ c cs, r.dropWhile Text.isBlank = c :: cs ∧
      Text.isBlank c = false ∧ c ≠ '#' := by
    rcases hr with hr | hr
    · obtain ⟨cs, hcs⟩ := List.head?_eq_some_iff.mp hr
      exact ⟨_, cs, hcs, by decide⟩
    · obtain ⟨cs, hcs⟩ := List.head?_eq_some_iff.mp (closes_of_head? (by decide) hr)
      exact ⟨_, cs, hcs, by decide⟩
  have hhead : (c :: cs).head? ≠ some '#' := fun h => hc (Option.some.inj h)
  have hblanks : skipBlanks (c :: cs) = .ok ((), c :: cs) :=
    skipBlanks_of_head? fun d hd => by cases hd; exact hblank
  rw [hcs, cutMark, run_bind_of_ok hblanks,
    run_bind_of_ok (eatText_of_head?_ne (c := '#') rfl hhead),
    if_neg Bool.false_ne_true, run_bind_of_ok (run_peek _), run_bind_of_ok (run_quoteAt _ _),
    beq_eq_false_iff_ne.mpr hhead]
  rfl

/-- **Filters go together with branches**, up to a closing parenthesis. -/
theorem branchesFrom_of_filterOr (hg : Overlaps g) (hself : ∀ n, g.AgreeBelow n g) {f : Filter}
    {branches : List Branch} {r' : List Char}
    (h : g.filterOr (z.dropWhile Text.isBlank) = .ok (f, r)) (hr : Closes ')' r)
    (h' : g.branchesFrom .key z = .ok (branches, r')) :
    r'.dropWhile Text.isBlank = r.dropWhile Text.isBlank := by
  obtain ⟨first, t, fs, p, hfirst, hfs⟩ := filterOr_ok h
  obtain ⟨x, t', hx, hafter⟩ := separated_dropWhile h'
  have hitem {y u u' : List Char} {f : Filter} {b : Branch} (hf : g.filterAnd y = .ok (f, u))
      (hu : EndsBranch u) (hb : (do
        let segments ← g.conjunction .key
        let cut ← cutMark
        pure (Branch.mk segments cut) : Parse Branch) y = .ok (b, u')) :
      u'.dropWhile Text.isBlank = u.dropWhile Text.isBlank := by
    obtain ⟨segments, mid, hsegments, hb⟩ := bind_eq_ok hb
    rw [conjunction_of_filterAnd hg hself hf hu hsegments] at hb
    rw [run_bind_of_ok (cutMark_of_endsBranch hu)] at hb
    cases hb
    exact List.dropWhile_idempotent _ u
  have ht : EndsBranch t := by
    rcases manyWithin_nextAfter_head hfs with rfl | ht
    · exact .inl hr
    · exact .inr ht
  have hfinal : r' = r.dropWhile Text.isBlank := by
    refine afterItem_of_nextAfter (by decide) ?_
      (fun y f u a u' hf (hu : EndsBranch u) ha => hitem hf hu ha) (fun _ => .inr rfl) (.inl hr)
      (hr.not (by decide)) hfs (hitem hfirst ht hx) ?_ hafter
    · exact fun n => .branchOf ((hself n).conjunction .key)
    · have hbranch := Agree.branchOf ((hself z.length).conjunction .key)
      exact hbranch.length_le (length_dropWhile_le _ _) hx
  rw [hfinal, List.dropWhile_idempotent]

/-- A slot between brackets is no filter: no comparison follows it. -/
theorem filterOr_of_keyPattern {p : KeyPattern × Bool} {y : List Char} {f : Filter}
    (hkey : keyPattern z = .ok (p, y)) (hy : Closes ']' y) : g.filterOr z ≠ .ok (f, r) := by
  intro h
  obtain ⟨_, _, _, _, hand, -⟩ := filterOr_ok h
  obtain ⟨_, _, _, _, hterm, -⟩ := filterAnd_ok hand
  have hbody := filterTerm_ok hterm
  have hmarks : z.dropWhile (· == '!') = z := by
    obtain ⟨c, cs, rfl, hc, -⟩ := keyPattern_head hkey
    refine List.dropWhile_cons_of_neg fun hmark => hc ?_
    rw [show c = '!' by simpa using hmark]
    decide
  rw [hmarks] at hbody
  cases hbody with
  | group hz =>
    refine head?_ne_of_keyPattern hkey (c := '(') (by decide) ?_
    rw [hz]
    rfl
  | compare hz hf =>
    obtain ⟨path, mid, test, hpath, htest⟩ := compareFilter_ok hf
    obtain ⟨s, q, hs, hrun⟩ := bind_eq_ok hpath
    obtain ⟨ss, hss⟩ := eq_ok_of_map hrun
    rw [Grammar.firstSegment, firstKeySegment_of_keyPattern .filterKey hkey] at hs
    obtain ⟨p', hkey'⟩ := keySegment_filterKey hs
    rw [hkey] at hkey'
    cases hkey'
    obtain ⟨c, cs, rfl, hc⟩ := follows_of_manyWithin hss htest
    obtain ⟨d, ds, hd, hclose⟩ := hy.head
    cases hd
    revert hclose
    have hno : ∀ c ∈ ['.', '[', '@', '|', '=', '<', '>', '!'],
        ¬ (Text.isBlank c = true ∨ c = ']') := forall_mem_of_all (by decide)
    exact hno c hc

/-- **Filters go together with branches in every grammar.** -/
theorem overlaps_grammar : ∀ i, Overlaps (grammar i)
  | 0 => ⟨fun _ _ _ _ _ _ _ h => (nomatch h), fun _ _ _ _ _ h => (nomatch h)⟩
  | i + 1 =>
    { slot := fun _ _ _ hkey hy _ _ => filterOr_of_keyPattern hkey hy
      branches := fun _ _ _ _ _ h hr h' =>
        branchesFrom_of_filterOr (overlaps_grammar i) (fun n => agreeBelow_grammar n i) h hr h' }

end DottedPath.Parse

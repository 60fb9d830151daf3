import DottedPath.Proofs.Path.Closed.Pattern
import DottedPath.Proofs.Path.PathText

/-!
# A filter's path read as the path of a branch

A comparison in a filter is a path and a test; in a branch of a group the same characters are a path
with a guard on its last segment.  Segment by segment the reader of the branch reads what the reader
of the filter does (`firstSegment_suffixed`, `nextSegment_suffixed`), until at the last segment it
reads the test as a suffix (`Suffixed`).

## Main statements

- `pathFrom_of_compareFilter`: a comparison and a path of a branch end at the same place.
-/

namespace DottedPath.Parse

variable {g : Grammar} {z q q' r : List Char}

/-! ### Where no guard follows -/

/-- Neither a restriction nor a guard begins here. -/
def NoGuard (r : List Char) : Prop := ∀ c ∈ r.head?, c ∉ [':', '|', '=', '<', '>', '!']

theorem NoGuard.head?_ne (h : NoGuard r) {c : Char} (hc : c ∈ [':', '|', '=', '<', '>', '!']) :
    r.head? ≠ some c :=
  fun hr => h c hr hc

theorem comparison_of_noGuard (h : NoGuard r) : comparison r = .ok (none, r) := by
  have hfind : Comparison.all.find? (fun op => op.symbol.toList.isPrefixOf r) = none := by
    rw [List.find?_eq_none]
    intro op _ hprefix
    obtain ⟨rest, rfl⟩ := List.isPrefixOf_iff_prefix.mp hprefix
    have hhead : ∃ c cs, op.symbol.toList = c :: cs ∧ c ∈ [':', '|', '=', '<', '>', '!'] := by
      cases op <;> exact ⟨_, _, rfl, by decide⟩
    obtain ⟨c, cs, hcs, hc⟩ := hhead
    exact h c (by rw [hcs]; rfl) hc
  rw [comparison, run_bind_of_ok (run_get r), hfind]
  rfl

theorem guardTest_of_noGuard (h : NoGuard r) : guardTest r = .ok (none, r) := by
  have hbar : (r.head? == some '|') = false := beq_eq_false_iff_ne.mpr (h.head?_ne (by decide))
  rw [guardTest, run_bind_of_ok (run_get r), run_bind_of_ok (run_peek r), hbar]
  rw [if_neg Bool.false_ne_true, run_bind_of_ok (run_pure _ r)]
  show (comparison >>= _) r = _
  rw [run_bind_of_ok (comparison_of_noGuard h)]
  rfl

theorem restrictionAhead_of_head?_ne (h : r.head? ≠ some ':') :
    restrictionAhead r = .ok (false, r) := by
  rw [restrictionAhead, run_bind_of_ok (run_get r)]
  split
  · exact absurd rfl h
  · rfl

/-- What is read after a segment in a branch: a restriction and a guard. -/
def Suffixed (q q' : List Char) : Prop := ∃ s s', suffixes .branch s q = .ok (s', q')

theorem suffixes_of_noGuard (place : Place) (s : Segment) (h : NoGuard r) :
    suffixes place s r = .ok (s, r) := by
  rw [suffixes]
  split
  · rfl
  · rw [run_bind_of_ok (restrictionAhead_of_head?_ne (h.head?_ne (by decide))),
      if_neg Bool.false_ne_true, run_bind_of_ok (run_pure s r)]
    show (guardTest >>= _) r = _
    rw [run_bind_of_ok (guardTest_of_noGuard h)]
    rfl

theorem Suffixed.eq_of_noGuard (h : Suffixed q q') (hq : NoGuard q) : q' = q := by
  obtain ⟨s, s', h⟩ := h
  rw [suffixes_of_noGuard .branch s hq] at h
  cases h
  rfl

/-- A guard begins with a bar or a comparison. -/
theorem head?_of_guardTest {test : ValueTest} (h : guardTest q = .ok (some test, r)) :
    ∃ c cs, q = c :: cs ∧ c ∈ ['|', '=', '<', '>', '!'] := by
  cases q with
  | nil => cases h
  | cons c cs =>
    by_cases hc : c ∈ ['|', '=', '<', '>', '!']
    · exact ⟨c, cs, rfl, hc⟩
    · by_cases hcolon : c = ':'
      · subst hcolon
        cases h
      · have hno : NoGuard (c :: cs) := by
          rintro _ ⟨⟩ hmem
          exact (List.mem_cons.mp hmem).elim hcolon hc
        rw [guardTest_of_noGuard hno] at h
        cases h

theorem Suffixed.eq_of_guardTest (h : Suffixed q q') {test : ValueTest}
    (htest : guardTest q = .ok (some test, r)) : q' = r := by
  obtain ⟨s, s', h⟩ := h
  obtain ⟨c, cs, rfl, hc⟩ := head?_of_guardTest htest
  have hcolon : (c :: cs).head? ≠ some ':' := by
    rintro ⟨⟩
    revert hc
    decide
  rw [suffixes, if_neg (by decide), run_bind_of_ok (restrictionAhead_of_head?_ne hcolon),
    if_neg Bool.false_ne_true, run_bind_of_ok (run_pure _ _)] at h
  obtain ⟨test', mid, htest', h⟩ := bind_eq_ok h
  rw [htest] at htest'
  cases htest'
  cases h
  rfl

/-! ### Where a key begins -/

/-- What holds of each character of a list, one by one. -/
theorem forall_mem_of_all {p : Char → Prop} [DecidablePred p] {l : List Char}
    (h : (l.all fun c => decide (p c)) = true) : ∀ c ∈ l, p c := by
  simpa using h

/-- Characters that begin no key. -/
def noKeyChars : List Char := ".[]:|+?=,@&()!~\x7b\x7d<>".toList

/-- No key begins with a character that is neither quoted nor part of a word. -/
theorem keyLiteral_of_not_word {c : Char} (hword : isWordChar c = false)
    (hquote : isQuote c = false)
    (hnumber : c ≠ '#') (cs : List Char) : ∃ e, keyLiteral (c :: cs) = .error e := by
  have hne {d : Char} (hd : isWordChar d = true) : c ≠ d := by
    rintro rfl
    exact absurd hd (by rw [hword]; exact Bool.false_ne_true)
  have hb : bytesAhead (c :: cs) = .ok (false, c :: cs) := by
    have hhead : ((c :: cs).head? == some 'b') = false :=
      beq_eq_false_iff_ne.mpr fun h => hne (d := 'b') (by decide) (Option.some.inj h)
    rw [bytesAhead, run_bind_of_ok (run_peek _), run_bind_of_ok (run_quoteAt _ _), hhead]
    rfl
  have hnum : numberAhead (c :: cs) = .ok (false, c :: cs) :=
    numberAhead_of_head? fun h => hnumber (Option.some.inj h)
  have hw : wordFrom (beginsNumeric (c :: cs)) [] false (c :: cs) = .ok (([], false), c :: cs) := by
    rw [wordFrom_cons (hne (by decide)), if_neg (by rw [hword]; exact Bool.false_ne_true),
      if_neg (by simp)]
    rfl
  rw [keyLiteral, run_bind_of_ok (run_quoteAt _ _)]
  rw [show (c :: cs)[0]?.any isQuote = false from hquote, if_neg Bool.false_ne_true,
    run_bind_of_ok hb, if_neg Bool.false_ne_true, run_bind_of_ok hnum, if_neg Bool.false_ne_true]
  obtain ⟨e, he⟩ : ∃ e, word (c :: cs) = .error e := by
    rw [word, run_bind_of_ok (run_get _), run_bind_of_ok hw]
    exact ⟨_, rfl⟩
  exact ⟨e, run_bind_of_error he⟩

theorem keyPattern_head {p : KeyPattern × Bool} (h : keyPattern z = .ok (p, r)) :
    ∃ c cs, z = c :: cs ∧ c ∉ noKeyChars ∧ Text.isBlank c = false := by
  cases z with
  | nil => cases h
  | cons c cs =>
    refine ⟨c, cs, rfl, ?_⟩
    by_contra hc
    -- neither a reserved character nor a blank is part of a word
    have hword : isWordChar c = false := by
      have hreserved : ∀ c ∈ noKeyChars, isReserved c = true := forall_mem_of_all (by decide)
      by_contra hw
      simp only [isWordChar, Bool.not_eq_false, Bool.and_eq_true, Bool.not_eq_true'] at hw
      refine hc ⟨fun hmem => ?_, hw.1.2⟩
      exact absurd (hreserved c hmem) (by rw [hw.1.1]; exact Bool.false_ne_true)
    have hne {d : Char} (hd : d ∉ noKeyChars ∧ Text.isBlank d = false) : c ≠ d := by
      rintro rfl
      exact hc hd
    have hquote : isQuote c = false := by
      rw [isQuote, Bool.or_eq_false_iff, beq_eq_false_iff_ne, beq_eq_false_iff_ne]
      exact ⟨hne (by decide), hne (by decide)⟩
    obtain ⟨e, he⟩ := keyLiteral_of_not_word hword hquote (hne (by decide)) cs
    have hstar : (c :: cs).head? ≠ some '*' := fun h => hne (by decide) (Option.some.inj h)
    have hslash : (c :: cs).head? ≠ some '/' := fun h => hne (by decide) (Option.some.inj h)
    rw [keyPattern_of_head? hstar hslash, run_bind_of_error he] at h
    cases h

/-! ### Segments of a filter's path -/

/-- The path of a filter goes on here or its comparison begins. -/
def Follows (q : List Char) : Prop :=
  ∃ c cs, q = c :: cs ∧ c ∈ ['.', '[', '@', '|', '=', '<', '>', '!']

theorem Follows.head?_ne (h : Follows q) {c : Char}
    (hc : c ∉ ['.', '[', '@', '|', '=', '<', '>', '!']) : q.head? ≠ some c := by
  obtain ⟨d, cs, rfl, hd⟩ := h
  rintro ⟨⟩
  exact hc hd

/-- A filter's path has no filters in it. -/
theorem access_filterKey {accessor : Accessor} {s : Segment}
    (h : g.access .filterKey accessor z = .ok (s, q)) : ∃ p, keyPattern z = .ok (p, q) := by
  obtain ⟨⟨key, first⟩, mid, hkey, h⟩ := bind_eq_ok h
  cases h
  exact ⟨_, hkey⟩

theorem filterSuffix_of_head?_ne (hq : q.head? ≠ some '&') : g.filterSuffix q = .ok (none, q) := by
  rw [Grammar.filterSuffix, run_bind_of_ok (run_peek _), if_neg (by simpa using hq)]
  rfl

theorem access_of_keyPattern {p : KeyPattern × Bool} (h : keyPattern z = .ok (p, q))
    (hq : q.head? ≠ some '&') (accessor : Accessor) :
    g.access .branch accessor z = .ok (.access accessor p.1 none p.2, q) := by
  rw [Grammar.access, run_bind_of_ok h]
  dsimp only
  rw [if_neg (by decide), run_bind_of_ok (filterSuffix_of_head?_ne hq)]
  rfl

/-- An asterisk is a plain one where the path of a filter goes on behind it. -/
theorem recursive_of_follows {p : KeyPattern × Bool} (h : keyPattern ('*' :: z) = .ok (p, q))
    (hq : Follows q) : g.recursive ('*' :: z) = .ok (none, '*' :: z) := by
  have hkey : g.recursiveKey z = .ok (none, z) := by
    have hplain : ∀ c ∈ ['?', '.', '[', '@', '|', '=', '<', '>', '!'], ∀ cs,
        g.recursiveKey (c :: cs) = .ok (none, c :: cs) := by
      simp only [List.forall_mem_cons, List.not_mem_nil, false_implies, implies_true, and_true]
      refine ⟨?_, ?_, ?_, ?_, ?_, ?_, ?_, ?_, ?_⟩ <;> exact fun cs => rfl
    by_cases hmark : z.head? = some '?'
    · obtain ⟨cs, rfl⟩ := List.head?_eq_some_iff.mp hmark
      exact hplain '?' (by decide) cs
    · have hrun : keyPattern ('*' :: z) = .ok ((.wildcard, false), z) := by
        rw [keyPattern, run_bind_of_ok (run_peek _)]
        simp only [List.head?_cons]
        rw [run_bind_of_ok (run_skip 1 _), List.drop_one, List.tail_cons,
          run_bind_of_ok (eat_of_head?_ne hmark)]
        rfl
      rw [hrun] at h
      cases h
      obtain ⟨c, cs, rfl, hc⟩ := hq
      exact hplain c (List.mem_cons_of_mem _ hc) cs
  rw [Grammar.recursive, run_bind_of_ok (run_get _), run_bind_of_ok (run_skip 1 _)]
  show (g.recursiveKey >>= _) z = _
  rw [run_bind_of_ok hkey]
  rfl

theorem keySegment_filterKey {s : Segment} (h : g.keySegment .filterKey z = .ok (s, q)) :
    ∃ p, keyPattern z = .ok (p, q) := by
  have hplace : (Place.filterKey != .filterKey) = false := rfl
  rw [Grammar.keySegment, run_bind_of_ok (run_peek _), hplace, Bool.and_false] at h
  have h : (g.access .filterKey .key >>= suffixes .filterKey) z = .ok (s, q) := h
  obtain ⟨s', mid, haccess, h⟩ := bind_eq_ok h
  cases h
  exact access_filterKey haccess

theorem keySegment_of_keyPattern {p : KeyPattern × Bool} (h : keyPattern z = .ok (p, q))
    (hq : Follows q) : g.keySegment .branch z =
      suffixes .branch (.access .key p.1 none p.2) q := by
  have haccess := access_of_keyPattern (g := g) h (hq.head?_ne (by decide)) .key
  rw [Grammar.keySegment, run_bind_of_ok (run_peek _)]
  split
  · rename_i hstar
    have hstar : z.head? = some '*' := by simpa using (Bool.and_eq_true_iff.mp hstar).1
    obtain ⟨cs, rfl⟩ := List.head?_eq_some_iff.mp hstar
    rw [run_bind_of_ok (recursive_of_follows h hq)]
    exact run_bind_of_ok haccess
  · rw [run_bind_of_ok (run_pure none z)]
    exact run_bind_of_ok haccess

theorem keySegment_suffixed {s s' : Segment} (h : g.keySegment .filterKey z = .ok (s, q))
    (hq : Follows q) (h' : g.keySegment .branch z = .ok (s', q')) : Suffixed q q' := by
  obtain ⟨p, hkey⟩ := keySegment_filterKey h
  rw [keySegment_of_keyPattern hkey hq] at h'
  exact ⟨_, _, h'⟩

/-- A step that only changes the answer is done by the first. -/
theorem eq_ok_of_map {α β : Type} {x : Parse α} {f : α → β} {b : β}
    (h : (x >>= fun a => pure (f a)) z = .ok (b, r)) : ∃ a, x z = .ok (a, r) := by
  obtain ⟨a, mid, ha, h⟩ := bind_eq_ok h
  cases h
  exact ⟨a, ha⟩

/-- Segments of attributes have the same groups in a filter's path and in a branch. -/
theorem attrBody_suffixed {afterAt : Bool} {s s' : Segment}
    (h : g.attrBody .filterKey afterAt z = .ok (s, q)) (hq : Follows q)
    (h' : g.attrBody .branch afterAt z = .ok (s', q')) : Suffixed q q' := by
  rw [Grammar.attrBody, run_bind_of_ok (run_get z)] at h h'
  generalize attrMarksFrom false afterAt z = p at h h'
  obtain ⟨⟨marked, after⟩, rest⟩ := p
  dsimp only at h h'
  rw [run_bind_of_ok (run_set z rest), run_bind_of_ok (run_peek _)] at h h'
  split at h
  · rename_i hgroup
    rw [if_pos hgroup] at h'
    obtain ⟨t, ht⟩ := eq_ok_of_map h
    obtain ⟨t', ht'⟩ := eq_ok_of_map h'
    obtain ⟨u, mid, hu, ht⟩ := bind_eq_ok ht
    cases ht
    rw [Grammar.groupSegment, run_bind_of_ok hu] at ht'
    exact ⟨_, _, ht'⟩
  · rename_i hgroup
    rw [if_neg hgroup] at h'
    obtain ⟨t, mid, ht, h⟩ := bind_eq_ok h
    obtain ⟨_, _, ⟨⟩, h⟩ := bind_eq_ok h
    cases h
    obtain ⟨p, hkey⟩ := access_filterKey ht
    rw [run_bind_of_ok (access_of_keyPattern hkey (hq.head?_ne (by decide)) .attr)] at h'
    obtain ⟨t', ht'⟩ := eq_ok_of_map h'
    exact ⟨_, _, ht'⟩

theorem attrSegment_suffixed {s s' : Segment}
    (h : g.attrSegment .filterKey z = .ok (s, q)) (hq : Follows q)
    (h' : g.attrSegment .branch z = .ok (s', q')) : Suffixed q q' := by
  obtain ⟨_, mid, hat, h⟩ := bind_eq_ok h
  rw [Grammar.attrSegment, run_bind_of_ok hat] at h'
  exact attrBody_suffixed h hq h'

/-! ### Brackets -/

/-- The rest of the text closes with a character, blanks before it. -/
def Closes (c : Char) (r : List Char) : Prop := (r.dropWhile Text.isBlank).head? = some c

/-- What comes next is blank, or the closing character. -/
theorem Closes.head {c : Char} (h : Closes c r) :
    ∃ d cs, r = d :: cs ∧ (Text.isBlank d = true ∨ d = c) := by
  cases r with
  | nil => cases h
  | cons d cs =>
    refine ⟨d, cs, rfl, ?_⟩
    by_cases hd : Text.isBlank d = true
    · exact .inl hd
    · rw [Closes, List.dropWhile_cons_of_neg hd] at h
      exact .inr (Option.some.inj h)

/-- What a grammar nests: no slot is a filter, and a filter in parentheses is a group. -/
structure Overlaps (g : Grammar) : Prop where
  slot : ∀ x p y, keyPattern x = .ok (p, y) → Closes ']' y → ∀ f r, g.filter x ≠ .ok (f, r)
  branches : ∀ z f r bs r', g.filter (z.dropWhile Text.isBlank) = .ok (f, r) → Closes ')' r →
    g.branches .key z = .ok (bs, r') → r'.dropWhile Text.isBlank = r.dropWhile Text.isBlank

theorem bracketFilter_of_keyPattern (hg : Overlaps g) {p : KeyPattern × Bool} {x y : List Char}
    (hkey : keyPattern x = .ok (p, y)) (hy : Closes ']' y) :
    g.bracketFilter x = .ok (none, x) := by
  have hfilter : ∃ e, g.filter x = .error e := by
    cases hrun : g.filter x with
    | error e => exact ⟨e, rfl⟩
    | ok a => exact (hg.slot x p y hkey hy a.1 a.2 hrun).elim
  obtain ⟨e, he⟩ := hfilter
  rw [Grammar.bracketFilter, run_map_of_ok (attempt_of_error (run_bind_of_error he))]
  rfl

/-- What must come next does. -/
theorem cons_of_expect {c : Char} {u : Unit} (h : expect c z = .ok (u, r)) : z = c :: r := by
  by_cases hhead : z.head? = some c
  · obtain ⟨cs, rfl⟩ := List.head?_eq_some_iff.mp hhead
    rw [expect_cons_self] at h
    cases h
    rfl
  · obtain ⟨e, he⟩ := expect_of_head?_ne hhead
    rw [he] at h
    cases h

/-- A slot in a filter's path closes its bracket. -/
theorem bracketSlot_filterKey {s : Segment} (h : g.bracketSlot .filterKey z = .ok (s, q)) :
    ∃ p y, keyPattern z = .ok (p, y) ∧ y.dropWhile Text.isBlank = ']' :: q := by
  obtain ⟨t, y, ht, h⟩ := bind_eq_ok h
  obtain ⟨p, hkey⟩ := access_filterKey ht
  obtain ⟨_, mid, hblanks, h⟩ := bind_eq_ok h
  cases hblanks
  obtain ⟨_, rest, hclose, h⟩ := bind_eq_ok h
  cases h
  exact ⟨p, y, hkey, cons_of_expect hclose⟩

/-- Steps that two readers share are done by both. -/
theorem bind_eq_ok_both {α β γ : Type} {x : Parse α} {k : α → Parse β} {k' : α → Parse γ} {b : β}
    {b' : γ} (h : (x >>= k) z = .ok (b, r)) (h' : (x >>= k') z = .ok (b', q)) :
    ∃ a mid, x z = .ok (a, mid) ∧ k a mid = .ok (b, r) ∧ k' a mid = .ok (b', q) := by
  obtain ⟨a, mid, ha, h⟩ := bind_eq_ok h
  rw [run_bind_of_ok ha] at h'
  exact ⟨a, mid, ha, h, h'⟩

/-- A segment is answered, or the readers go on. -/
theorem suffixed_ite {c : Bool} {t s s' : Segment} {f f' : Parse Segment}
    (h : (if c then suffixes .filterKey t else f) z = .ok (s, q))
    (h' : (if c then suffixes .branch t else f') z = .ok (s', q'))
    (helse : f z = .ok (s, q) → f' z = .ok (s', q') → Suffixed q q') : Suffixed q q' := by
  cases c with
  | true =>
    cases h
    exact ⟨_, _, h'⟩
  | false => exact helse h h'

theorem bracketBody_suffixed (hg : Overlaps g) {s s' : Segment}
    (h : g.bracketBody .filterKey z = .ok (s, q))
    (h' : g.bracketBody .branch z = .ok (s', q')) : Suffixed q q' := by
  obtain ⟨_, mid, -, h, h'⟩ := bind_eq_ok_both h h'
  obtain ⟨full, mid, -, h, h'⟩ := bind_eq_ok_both h h'
  refine suffixed_ite h h' fun h h' => ?_
  obtain ⟨unique, mid, -, h, h'⟩ := bind_eq_ok_both h h'
  refine suffixed_ite h h' fun h h' => ?_
  obtain ⟨append, mid, -, h, h'⟩ := bind_eq_ok_both h h'
  refine suffixed_ite h h' fun h h' => ?_
  obtain ⟨range, mid, -, h, h'⟩ := bind_eq_ok_both h h'
  cases range with
  | some range =>
    cases h
    exact ⟨_, _, h'⟩
  | none =>
    obtain ⟨p, y, hkey, hy⟩ := bracketSlot_filterKey h
    have hclose : Closes ']' y := by rw [Closes, hy]; rfl
    have hand : y.head? ≠ some '&' := by
      obtain ⟨d, cs, rfl, hd | rfl⟩ := hclose.head
      · rintro ⟨⟩
        exact absurd hd (by decide)
      · rintro ⟨⟩
    -- a key pattern is followed neither by a comparison nor by a group, so it is a slot in both
    have hparen : (mid.head? == some '(') = false := by
      obtain ⟨c, cs, rfl, hc, -⟩ := keyPattern_head hkey
      rw [beq_eq_false_iff_ne]
      rintro ⟨⟩
      exact hc (by decide)
    dsimp only at h'
    rw [if_neg (by decide), run_bind_of_ok (bracketFilter_of_keyPattern hg hkey hclose)] at h'
    dsimp only at h'
    rw [run_bind_of_ok (run_peek _), hparen, if_neg Bool.false_ne_true, Grammar.bracketSlot,
      run_bind_of_ok (access_of_keyPattern hkey hand .slot), run_bind_of_ok (run_skipBlanks y), hy,
      run_bind_of_ok (expect_cons_self ']' q)] at h'
    exact ⟨_, _, h'⟩

theorem bracketSegment_suffixed (hg : Overlaps g) {s s' : Segment}
    (h : g.bracketSegment .filterKey z = .ok (s, q))
    (h' : g.bracketSegment .branch z = .ok (s', q')) : Suffixed q q' := by
  obtain ⟨_, mid, -, h, h'⟩ := bind_eq_ok_both h h'
  obtain ⟨_, mid, -, h, h'⟩ := bind_eq_ok_both h h'
  obtain ⟨marked, mid, -, h, h'⟩ := bind_eq_ok_both h h'
  obtain ⟨t, ht⟩ := eq_ok_of_map h
  obtain ⟨t', ht'⟩ := eq_ok_of_map h'
  exact bracketBody_suffixed hg ht ht'

/-! ### Paths of a filter -/

/-- The first segment of a filter's path. -/
theorem firstKeySegment_filterKey {s : Segment} (h : g.firstKeySegment .filterKey z = .ok (s, q)) :
    g.attrSegment .filterKey z = .ok (s, q) ∧ z.head? = some '@' ∨
    g.bracketSegment .filterKey z = .ok (s, q) ∧ z.head? = some '[' ∨
    g.keySegment .filterKey z = .ok (s, q) := by
  rw [Grammar.firstKeySegment, run_bind_of_ok (run_peek z)] at h
  generalize hz : z.head? = o at h
  split at h
  · exact .inr (.inr h)
  · exact .inl ⟨h, rfl⟩
  · exact .inr (.inl ⟨h, rfl⟩)
  · exact .inr (.inr h)
  iterate 5 cases h
  · exact .inr (.inr h)

/-- A key is read as one at the start of a path. -/
theorem firstKeySegment_of_keyPattern (place : Place) {p : KeyPattern × Bool} {y : List Char}
    (h : keyPattern z = .ok (p, y)) : g.firstKeySegment place z = g.keySegment place z := by
  obtain ⟨c, cs, rfl, hc, -⟩ := keyPattern_head h
  have hne {d : Char} (hd : d ∈ noKeyChars) : some c ≠ some d := by
    rintro ⟨⟩
    exact hc hd
  have hsome : some c ≠ none := Option.some_ne_none c
  rw [Grammar.firstKeySegment, run_bind_of_ok (run_peek _), List.head?_cons]
  generalize some c = o at hne hsome
  split
  · exact absurd rfl (hne (d := '~') (by decide))
  · exact absurd rfl (hne (d := '@') (by decide))
  · exact absurd rfl (hne (d := '[') (by decide))
  · exact absurd rfl (hne (d := '(') (by decide))
  · exact absurd rfl (hne (d := '.') (by decide))
  · exact absurd rfl (hne (d := ']') (by decide))
  · exact absurd rfl (hne (d := ')') (by decide))
  · exact absurd rfl (hne (d := ',') (by decide))
  · exact absurd rfl hsome
  · rfl


theorem head?_ne_of_keyPattern {p : KeyPattern × Bool} {y : List Char}
    (h : keyPattern z = .ok (p, y)) {c : Char} (hc : c ∈ noKeyChars) : z.head? ≠ some c := by
  obtain ⟨d, cs, rfl, hd, -⟩ := keyPattern_head h
  rintro ⟨⟩
  exact hd hc

/-- A slot without its bracket is appended, or it is an access. -/
theorem slotToken_access {s : Segment} (h : g.slotToken .branch z = .ok (s, q'))
    (htilde : z.head? ≠ some '~') (hplus : z.head? ≠ some '+') :
    ∃ s', (g.access .branch .slot >>= suffixes .branch) z = .ok (s', q') := by
  have hmarks : takeWhile (· == '~') z = .ok ([], z) := by
    refine takeWhile_of_head? fun c hc => ?_
    rw [beq_eq_false_iff_ne]
    rintro rfl
    exact htilde hc
  rw [Grammar.slotToken, run_bind_of_ok hmarks] at h
  obtain ⟨t, ht⟩ := eq_ok_of_map h
  rw [Grammar.slotBody, run_bind_of_ok (eatText_of_head?_ne (c := '+') rfl hplus),
    if_neg Bool.false_ne_true, run_bind_of_ok (eat_of_head?_ne hplus),
    if_neg Bool.false_ne_true] at ht
  exact ⟨t, ht⟩

/-- Without marks an attribute without its `@` is an access. -/
theorem attrBody_access {s : Segment} (h : g.attrBody .branch false z = .ok (s, q'))
    (htilde : z.head? ≠ some '~') (hat : z.head? ≠ some '@') :
    ∃ s', (g.access .branch .attr >>= suffixes .branch) z = .ok (s', q') := by
  rw [Grammar.attrBody, run_bind_of_ok (run_get z), attrMarksFrom_of_head? htilde hat] at h
  dsimp only at h
  rw [run_bind_of_ok (run_set z z), run_bind_of_ok (run_peek _), Bool.false_and,
    if_neg Bool.false_ne_true] at h
  obtain ⟨t, mid, ht, h⟩ := bind_eq_ok h
  obtain ⟨t', ht'⟩ := eq_ok_of_map h
  exact ⟨t', (run_bind_of_ok ht).trans ht'⟩

/-- An access and its suffixes go together with the key in its place. -/
theorem access_suffixed {p : KeyPattern × Bool} {accessor : Accessor} {s' : Segment}
    (h : keyPattern z = .ok (p, q)) (hq : Follows q)
    (h' : (g.access .branch accessor >>= suffixes .branch) z = .ok (s', q')) : Suffixed q q' := by
  rw [run_bind_of_ok (access_of_keyPattern h (hq.head?_ne (by decide)) accessor)] at h'
  exact ⟨_, _, h'⟩

theorem access_of_noKeyChar {c : Char} (hc : c ∈ noKeyChars) (hz : z.head? = some c)
    {place : Place} {accessor : Accessor} {s : Segment} :
    (g.access place accessor >>= suffixes place) z ≠ .ok (s, q) := by
  intro h
  obtain ⟨t, mid, ht, -⟩ := bind_eq_ok h
  obtain ⟨p, y, hkey, -⟩ := bind_eq_ok ht
  obtain ⟨d, cs, rfl, hd, -⟩ := keyPattern_head hkey
  cases hz
  exact hd hc

/-- **The first segment of a filter's path goes together with the first one of a branch**, whatever
the branch reads a bare token as. -/
theorem firstSegment_suffixed (hg : Overlaps g) {lead : Accessor} {s s' : Segment}
    (h : g.firstSegment .filterKey .key z = .ok (s, q)) (hq : Follows q)
    (h' : g.firstSegment .branch lead z = .ok (s', q')) : Suffixed q q' := by
  rcases firstKeySegment_filterKey h with ⟨h, hz⟩ | ⟨h, hz⟩ | h
  · -- an attribute: only a group of slots has none
    obtain ⟨cs, rfl⟩ := List.head?_eq_some_iff.mp hz
    cases lead with
    | key => exact attrSegment_suffixed h hq h'
    | slot =>
      obtain ⟨t, ht⟩ := slotToken_access h' (by simp) (by simp)
      exact (access_of_noKeyChar (by decide) hz ht).elim
    | attr =>
      have hmark : g.attrBody .branch false ('@' :: cs) = g.attrBody .branch true cs := rfl
      obtain ⟨_, mid, hat, h⟩ := bind_eq_ok h
      obtain rfl := (List.cons.inj (cons_of_expect hat)).2
      exact attrBody_suffixed h hq h'
  · -- brackets: there are none in groups of slots and attributes
    obtain ⟨cs, rfl⟩ := List.head?_eq_some_iff.mp hz
    cases lead with
    | key => exact bracketSegment_suffixed hg h h'
    | slot =>
      obtain ⟨t, ht⟩ := slotToken_access h' (by simp) (by simp)
      exact (access_of_noKeyChar (by decide) hz ht).elim
    | attr =>
      obtain ⟨t, ht⟩ := attrBody_access h' (by simp) (by simp)
      exact (access_of_noKeyChar (by decide) hz ht).elim
  · obtain ⟨p, hkey⟩ := keySegment_filterKey h
    have hhead {c : Char} (hc : c ∈ noKeyChars) : z.head? ≠ some c := head?_ne_of_keyPattern hkey hc
    cases lead with
    | key =>
      rw [Grammar.firstSegment, firstKeySegment_of_keyPattern .branch hkey] at h'
      exact keySegment_suffixed h hq h'
    | slot =>
      obtain ⟨t, ht⟩ := slotToken_access h' (hhead (by decide)) (hhead (by decide))
      exact access_suffixed hkey hq ht
    | attr =>
      obtain ⟨t, ht⟩ := attrBody_access h' (hhead (by decide)) (hhead (by decide))
      exact access_suffixed hkey hq ht

/-- A segment inside of a filter's path. -/
theorem nextSegment_filterKey {s : Segment} (h : g.nextSegment .filterKey z = .ok (some s, q)) :
    (∃ x, z = '.' :: x ∧ g.keySegment .filterKey x = .ok (s, q)) ∨
    (∃ x, z = '[' :: x ∧ g.bracketSegment .filterKey z = .ok (s, q)) ∨
    (∃ x, z = '@' :: x ∧ g.attrSegment .filterKey z = .ok (s, q)) := by
  rw [Grammar.nextSegment, run_bind_of_ok (run_get z)] at h
  split at h
  · cases h
  · rw [run_bind_of_ok (run_peek z)] at h
    generalize hz : z.head? = o at h
    split at h
    · obtain ⟨x, rfl⟩ := List.head?_eq_some_iff.mp hz
      have h : (g.keySegment .filterKey >>= fun s => pure (some s)) x = _ := h
      obtain ⟨t, mid, ht, h⟩ := bind_eq_ok h
      cases h
      exact .inl ⟨x, rfl, ht⟩
    · obtain ⟨x, rfl⟩ := List.head?_eq_some_iff.mp hz
      obtain ⟨t, mid, ht, h⟩ := bind_eq_ok h
      cases h
      exact .inr (.inl ⟨x, rfl, ht⟩)
    · obtain ⟨x, rfl⟩ := List.head?_eq_some_iff.mp hz
      obtain ⟨t, mid, ht, h⟩ := bind_eq_ok h
      cases h
      exact .inr (.inr ⟨x, rfl, ht⟩)
    iterate 3 cases h

theorem dottedSegment_of_keyPattern {p : KeyPattern × Bool} {y : List Char} {s : Segment}
    (h : keyPattern z = .ok (p, y)) (h' : g.dottedSegment .branch z = .ok (s, q')) :
    ∃ s', g.keySegment .branch z = .ok (s', q') := by
  have hmarks : takeWhile (· == '~') z = .ok ([], z) := by
    refine takeWhile_of_head? fun c hc => ?_
    rw [beq_eq_false_iff_ne]
    rintro rfl
    exact head?_ne_of_keyPattern h (by decide) hc
  have hparen : (z.head? == some '(') = false :=
    beq_eq_false_iff_ne.mpr (head?_ne_of_keyPattern h (by decide))
  rw [Grammar.dottedSegment, if_neg (by decide), run_bind_of_ok hmarks, run_bind_of_ok (run_peek _),
    hparen, if_neg Bool.false_ne_true] at h'
  exact eq_ok_of_map h'

/-- **The next segment of a filter's path goes together with the next one of a branch.** -/
theorem nextSegment_suffixed (hg : Overlaps g) {s : Segment} {o : Option Segment}
    (h : g.nextSegment .filterKey z = .ok (some s, q)) (hq : Follows q)
    (h' : g.nextSegment .branch z = .ok (o, q')) : Suffixed q q' ∧ o ≠ none := by
  rcases nextSegment_filterKey h with ⟨x, rfl, hs⟩ | ⟨x, rfl, hs⟩ | ⟨x, rfl, hs⟩
  · obtain ⟨t, mid, ht, h'⟩ :=
      bind_eq_ok (show (g.dottedSegment .branch >>= fun s => pure (some s)) x = _ from h')
    cases h'
    obtain ⟨p, hkey⟩ := keySegment_filterKey hs
    obtain ⟨t', ht'⟩ := dottedSegment_of_keyPattern hkey ht
    exact ⟨keySegment_suffixed hs hq ht', Option.some_ne_none t⟩
  · obtain ⟨t, mid, ht, h'⟩ :=
      bind_eq_ok (show (g.bracketSegment .branch >>= fun s => pure (some s)) ('[' :: x) = _ from h')
    cases h'
    exact ⟨bracketSegment_suffixed hg hs ht, Option.some_ne_none t⟩
  · obtain ⟨t, mid, ht, h'⟩ :=
      bind_eq_ok (show (g.attrSegment .branch >>= fun s => pure (some s)) ('@' :: x) = _ from h')
    cases h'
    exact ⟨attrSegment_suffixed hs hq ht, Option.some_ne_none t⟩

/-! ### Comparisons -/

/-- A term of a group ends here: at a blank, a separator or the group's end. -/
def Stops (r : List Char) : Prop :=
  ∀ c ∈ r.head?, Text.isBlank c = true ∨ c ∈ [')', ',', '&']

theorem Stops.noGuard (h : Stops r) : NoGuard r := by
  intro c hc hmem
  have hno : ∀ c ∈ [':', '|', '=', '<', '>', '!'],
      Text.isBlank c = false ∧ c ∉ [')', ',', '&'] := forall_mem_of_all (by decide)
  obtain ⟨hblank, hother⟩ := hno c hmem
  exact (h c hc).elim (by rw [hblank]; exact Bool.false_ne_true) hother

theorem Stops.endsAt (h : Stops r) : endsAt .branch r = true := by
  cases r with
  | nil => rfl
  | cons c cs =>
    by_cases hbar : c = '|'
    · subst hbar
      rfl
    · have hset : ∀ c ∈ [')', ',', '&'], ",)#&]".toList.contains c = true :=
        forall_mem_of_all (by decide)
      rw [Parse.endsAt.eq_def]
      split
      · rfl
      · rfl
      · rename_i d ds heq
        obtain ⟨rfl, rfl⟩ := List.cons.inj heq
        exact Bool.or_eq_true_iff.mpr ((h c rfl).symm.imp (hset c) id)

theorem nextSegment_none {place : Place} (h : g.nextSegment place z = .ok (none, q)) : q = z := by
  have hsome {x : Parse Segment} {f : Segment → Segment} {z : List Char} :
      (x >>= fun s => pure (some (f s))) z ≠ .ok (none, q) := by
    intro h
    obtain ⟨s, mid, -, h⟩ := bind_eq_ok h
    cases h
  rw [Grammar.nextSegment, run_bind_of_ok (run_get z)] at h
  split at h
  · cases h
    rfl
  · rw [run_bind_of_ok (run_peek z)] at h
    generalize z.head? = o at h
    split at h
    · exact (hsome (f := id) h).elim
    · exact (hsome (f := id) h).elim
    · exact (hsome (f := id) h).elim
    · split at h
      · cases h
      · exact (hsome (f := id) h).elim
    · split at h
      · cases h
      · exact (hsome (f := asNop) h).elim
    · cases h

/-- The path of a filter goes on where one more segment is read. -/
theorem follows_of_manyWithin {p : Nat} {ss : List Segment} {test : ValueTest}
    (h : manyWithin (g.nextSegment .filterKey) p z = .ok (ss, q))
    (htest : guardTest q = .ok (some test, r)) : Follows z := by
  have hend (hz : q = z) : Follows z := by
    obtain ⟨c, cs, rfl, hc⟩ := head?_of_guardTest htest
    refine ⟨c, cs, hz.symm, ?_⟩
    exact List.mem_cons_of_mem _ (List.mem_cons_of_mem _ (List.mem_cons_of_mem _ hc))
  cases p with
  | zero =>
    cases h
    exact hend rfl
  | succ p =>
    obtain ⟨o, mid, ho, h⟩ := bind_eq_ok h
    cases o with
    | none =>
      cases h
      exact hend (nextSegment_none ho)
    | some s =>
      rcases nextSegment_filterKey ho with ⟨x, rfl, -⟩ | ⟨x, rfl, -⟩ | ⟨x, rfl, -⟩
      · exact ⟨_, _, rfl, by decide⟩
      · exact ⟨_, _, rfl, by decide⟩
      · exact ⟨_, _, rfl, by decide⟩

theorem manyWithin_of_stops (hr : Stops r) {p : Nat} {ss : List Segment}
    (h : manyWithin (g.nextSegment .branch) p r = .ok (ss, q)) : q = r := by
  cases p with
  | zero =>
    cases h
    rfl
  | succ p =>
    have hnone : g.nextSegment .branch r = .ok (none, r) := by
      rw [Grammar.nextSegment, run_bind_of_ok (run_get r), hr.endsAt]
      rfl
    rw [manyWithin, run_bind_of_ok hnone] at h
    cases h
    rfl

/-- The segments of a filter's path go together with those of a branch, and the comparison with the
guard on the last of them.  As many segments are read in both, so the bounds do not differ where the
next one begins. -/
theorem manyWithin_suffixed (hg : Overlaps g) {test : ValueTest} (hr : Stops r)
    (htest : guardTest q = .ok (some test, r)) : ∀ {p p' : Nat} {mid mid' r' : List Char}
    {ss ss' : List Segment}, manyWithin (g.nextSegment .filterKey) p mid = .ok (ss, q) →
    Suffixed mid mid' → (mid' = mid → p' = p) →
    manyWithin (g.nextSegment .branch) p' mid' = .ok (ss', r') → r' = r := by
  intro p p' mid mid' r' ss ss' h hmid hp h'
  induction p generalizing p' mid mid' ss ss' with
  | zero =>
    cases h
    obtain rfl := hmid.eq_of_guardTest htest
    exact manyWithin_of_stops hr h'
  | succ p ih =>
    obtain ⟨o, next, ho, hrun⟩ := bind_eq_ok h
    cases o with
    | none =>
      cases hrun
      obtain rfl := nextSegment_none ho
      obtain rfl := hmid.eq_of_guardTest htest
      exact manyWithin_of_stops hr h'
    | some s =>
      -- one more segment: no guard stands before it
      have hno : NoGuard mid := by
        rcases nextSegment_filterKey ho with ⟨x, rfl, -⟩ | ⟨x, rfl, -⟩ | ⟨x, rfl, -⟩ <;>
          (rintro _ ⟨⟩; decide)
      have hsame := hmid.eq_of_noGuard hno
      rw [hsame, hp hsame] at h'
      obtain ⟨rest, last, hrest, hrun⟩ := bind_eq_ok hrun
      cases hrun
      obtain ⟨o', next', ho', hrun'⟩ := bind_eq_ok h'
      obtain ⟨hnext, hsome⟩ := nextSegment_suffixed hg ho (follows_of_manyWithin hrest htest) ho'
      cases o' with
      | none => exact absurd rfl hsome
      | some s' =>
        obtain ⟨rest', last', hrest', hrun'⟩ := bind_eq_ok hrun'
        cases hrun'
        exact ih hrest hnext (fun _ => rfl) hrest'

/-- A comparison is a path and what a guard is. -/
theorem compareFilter_ok {f : Filter} (h : g.compareFilter z = .ok (f, r)) :
    ∃ path mid test, g.pathFrom .filterKey .key z = .ok (path, mid) ∧
      guardTest mid = .ok (some test, r) := by
  obtain ⟨path, mid, hpath, h⟩ := bind_eq_ok h
  rw [run_bind_of_ok (run_peek mid)] at h
  refine ⟨path, mid, ?_⟩
  simp only [guardTest, run_bind_of_ok (run_get mid), run_bind_of_ok (run_peek mid)]
  split at h
  · rename_i hbar
    rw [if_pos hbar]
    obtain ⟨chain, x, hchain, h⟩ := bind_eq_ok h
    rw [run_bind_of_ok (attempt_of_ok hchain)]
    obtain ⟨op, y, hop, h⟩ := bind_eq_ok h
    cases op with
    | none => cases h
    | some op =>
      obtain ⟨p, hp⟩ := eq_ok_of_map h
      exact ⟨_, hpath, (run_bind_of_ok hop).trans (run_bind_of_ok hp)⟩
  · rename_i hbar
    rw [if_neg hbar, run_bind_of_ok (run_pure _ mid)]
    rw [run_bind_of_ok (run_pure _ mid)] at h
    obtain ⟨op, y, hop, h⟩ := bind_eq_ok h
    cases op with
    | none => cases h
    | some op =>
      obtain ⟨p, hp⟩ := eq_ok_of_map h
      exact ⟨_, hpath, (run_bind_of_ok hop).trans (run_bind_of_ok hp)⟩

/-- **A comparison is read as a path in a branch**: its guard is the comparison. -/
theorem pathFrom_of_compareFilter (hg : Overlaps g) {f : Filter} {lead : Accessor}
    {path : List Segment} {r' : List Char} (h : g.compareFilter z = .ok (f, r)) (hr : Stops r)
    (h' : g.pathFrom .branch lead z = .ok (path, r')) : r' = r := by
  obtain ⟨keys, q, test, hkeys, htest⟩ := compareFilter_ok h
  obtain ⟨s, mid, hs, hrun⟩ := bind_eq_ok hkeys
  obtain ⟨ss, hss⟩ := eq_ok_of_map hrun
  obtain ⟨s', mid', hs', hrun'⟩ := bind_eq_ok h'
  obtain ⟨ss', hss'⟩ := eq_ok_of_map hrun'
  have hfirst := firstSegment_suffixed hg hs (follows_of_manyWithin hss htest) hs'
  exact manyWithin_suffixed hg hr htest hss hfirst (fun hmid => by rw [hmid]) hss'

end DottedPath.Parse

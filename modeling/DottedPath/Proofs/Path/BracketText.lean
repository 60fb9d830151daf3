import DottedPath.Proofs.Path.KeySegmentText

/-!
# Segments in brackets, read back

Between brackets a slice is tried before a filter, and a filter before a slot.  `bracketBody_slot`: a
slot access is read back, because it is no slice (`sliceRange_access`) and no comparison follows it
(`filter_access`).  `bracketBody_append`, `bracketBody_slice` and `bracketBody_full` are about what is
read before a filter is tried.
-/

namespace DottedPath

namespace Parse

/-! ### Brackets -/

/-- What begins no other segment and no separator is read as a key. -/
theorem firstKeySegment_of_head? (g : Grammar) (place : Place) {cs : List Char}
    (hne : cs.head? ≠ none)
    (h : ∀ c, isReserved c = true → c ≠ '*' → c ≠ '/' → cs.head? ≠ some c) :
    g.firstKeySegment place cs = g.keySegment place cs := by
  have hother (c : Char) (hc : isReserved c = true ∧ c ≠ '*' ∧ c ≠ '/') : cs.head? ≠ some c :=
    h c hc.1 hc.2.1 hc.2.2
  rw [Grammar.firstKeySegment, run_bind_of_ok (run_peek _)]
  generalize cs.head? = o at *
  split
  · exact absurd rfl (hother '~' (by decide))
  · exact absurd rfl (hother '@' (by decide))
  · exact absurd rfl (hother '[' (by decide))
  · exact absurd rfl (hother '(' (by decide))
  · exact absurd rfl (hother '.' (by decide))
  · exact absurd rfl (hother ']' (by decide))
  · exact absurd rfl (hother ')' (by decide))
  · exact absurd rfl (hother ',' (by decide))
  · exact absurd rfl hne
  · rfl

theorem endsAccess_close (rest : List Char) : EndsAccess (']' :: rest) := by
  rintro c ⟨⟩
  decide

/-- An access before a closing bracket is no filter: no comparison follows. -/
theorem compareFilter_access (g : Grammar) {key : KeyPattern} (h : key.Readable) {first : Bool}
    (hfirst : first = true → key.isPattern = true) (asKey : Bool) (rest : List Char) :
    ∃ e, g.compareFilter (accessChars asKey key first ++ ']' :: rest) = .error e := by
  have hend := endsAccess_close rest
  have hkey : g.keySegment .filterKey (accessChars asKey key first ++ ']' :: rest) =
      .ok (.access .key key none first, ']' :: rest) := by
    have haccess := access_accessText g .key h hfirst asKey hend .filterKey
    rw [Grammar.keySegment, run_bind_of_ok (run_peek _)]
    have hplace : (Place.filterKey != .filterKey) = false := rfl
    rw [hplace, Bool.and_false]
    show (g.access .filterKey .key >>= suffixes .filterKey) _ = _
    rw [run_bind_of_ok haccess]
    rfl
  have hpath : g.pathFrom .filterKey .key (accessChars asKey key first ++ ']' :: rest) =
      .ok ([.access .key key none first], ']' :: rest) := by
    obtain ⟨c, cs, hcs, -⟩ := accessChars_eq_cons h asKey first
    have hmany : many (g.nextSegment .filterKey) (']' :: rest) = .ok ([], ']' :: rest) :=
      many_of_reads (.done rfl) (Nat.zero_le _)
    rw [Grammar.pathFrom]
    show (g.firstKeySegment .filterKey >>= _) _ = _
    rw [run_bind_of_ok ((firstKeySegment_of_head? g .filterKey (by rw [hcs]; rintro ⟨⟩)
      fun c hc hstar hslash => head?_accessChars_ne h asKey first _ hc hstar hslash).trans hkey),
      run_bind_of_ok hmany]
    rfl
  refine ⟨⟨"expected a comparison operator", (']' :: rest).length⟩, ?_⟩
  rw [Grammar.compareFilter, run_bind_of_ok hpath]
  rfl

/-- Between brackets an access is no filter. -/
theorem filter_access (n : Nat) {key : KeyPattern} (h : key.Readable) {first : Bool}
    (hfirst : first = true → key.isPattern = true) (asKey : Bool) (rest : List Char) :
    ∃ e, (grammar n).filter (accessChars asKey key first ++ ']' :: rest) = .error e := by
  cases n with
  | zero => exact ⟨_, rfl⟩
  | succ n =>
    obtain ⟨e, he⟩ := compareFilter_access (grammar n) h hfirst asKey rest
    have hhead (c : Char) (hc : isReserved c = true ∧ c ≠ '*' ∧ c ≠ '/') :
        (accessChars asKey key first ++ ']' :: rest).head? ≠ some c :=
      head?_accessChars_ne h asKey first _ hc.1 hc.2.1 hc.2.2
    have hmarks : takeWhile (· == '!') (accessChars asKey key first ++ ']' :: rest) =
        .ok ([], accessChars asKey key first ++ ']' :: rest) := by
      refine takeWhile_of_head? fun c hc => ?_
      rw [beq_eq_false_iff_ne]
      rintro rfl
      exact hhead '!' (by decide) hc
    have hterm : (grammar n).filterTerm (accessChars asKey key first ++ ']' :: rest) = .error e := by
      rw [Grammar.filterTerm, run_bind_of_ok hmarks,
        run_bind_of_ok (eat_of_head?_ne (hhead '(' (by decide))), if_neg Bool.false_ne_true]
      exact run_bind_of_error he
    exact ⟨e, run_bind_of_error (run_bind_of_error hterm)⟩

/-- Without a colon after the first bound there is no slice. -/
theorem sliceRange_of_bound {cs mid : List Char} {o : Option Bound} (h : bound cs = .ok (o, mid))
    (hmid : mid.head? ≠ some ':') : sliceRange cs = .ok (none, cs) := by
  rw [sliceRange, run_bind_of_ok (run_get _), run_bind_of_ok h,
    run_bind_of_ok (eat_of_head?_ne hmid), if_neg Bool.false_ne_true, run_bind_of_ok (run_set _ _)]
  rfl

theorem bound_of_optionalInt {cs mid : List Char} {o : Option Int} (hplus : cs.head? ≠ some '+')
    (h : optionalInt cs = .ok (o, mid)) : bound cs = .ok (o.map .index, mid) := by
  rw [bound, run_bind_of_ok (eat_of_head?_ne hplus), if_neg Bool.false_ne_true, run_bind_of_ok h]
  rfl

/-- A key that may stand between brackets: a text has no minus sign in front, which would begin a
bound. -/
def IsSlotKey (key : KeyPattern) : Prop :=
  ∀ text, key = .literal (.str text) → (keyToken text).head? ≠ some '-'

/-- Between brackets an access is no slice. -/
theorem sliceRange_access {key : KeyPattern} (h : key.Readable) (hslot : IsSlotKey key) (first : Bool)
    (rest : List Char) :
    sliceRange (accessChars false key first ++ ']' :: rest) =
      .ok (none, accessChars false key first ++ ']' :: rest) := by
  have hhead (c : Char) (hc : isReserved c = true ∧ c ≠ '*' ∧ c ≠ '/') :
      (accessChars false key first ++ ']' :: rest).head? ≠ some c :=
    head?_accessChars_ne h false first _ hc.1 hc.2.1 hc.2.2
  have hclose : (']' :: rest).head? ≠ some ':' := by rintro ⟨⟩
  have hword (hdigit : ∀ c ∈ (accessChars false key first ++ ']' :: rest).head?, c.isDigit = false)
      (hminus : (accessChars false key first ++ ']' :: rest).head? ≠ some '-') :
      sliceRange (accessChars false key first ++ ']' :: rest) =
        .ok (none, accessChars false key first ++ ']' :: rest) :=
    sliceRange_of_bound
      (bound_of_optionalInt (hhead '+' (by decide)) (optionalInt_of_head? hdigit hminus))
      (hhead ':' (by decide))
  cases h with
  | literal h =>
    cases h with
    | @text text h =>
      obtain ⟨c, cs, hcs, -⟩ := h.exists_cons
      have hdigit := h.no_digit
      have hminus := hslot text rfl
      rw [hcs] at hdigit hminus
      rw [accessChars_literal, toList_normalize_str, hcs] at hword ⊢
      exact hword hdigit hminus
    -- a number may be the bound of a slice, but then no colon follows it
    | @int i h =>
      have hread := optionalInt_intText h (endsAccess_close rest).no_digit
      rw [accessChars_literal, normalize_int] at hhead ⊢
      exact sliceRange_of_bound (bound_of_optionalInt (hhead '+' (by decide)) hread) hclose
  | wildcard =>
    rw [accessChars_wildcard] at hword ⊢
    exact hword (by rintro c ⟨⟩; decide) (by rintro ⟨⟩)
  | regex h =>
    rw [accessChars_regex, toList_regexText] at hword ⊢
    exact hword (by rintro c ⟨⟩; decide) (by rintro ⟨⟩)

/-- **A slot access is read back from its text**, up to the closing bracket and what follows it. -/
theorem bracketBody_slot (n : Nat) {key : KeyPattern} (h : key.Readable) (hslot : IsSlotKey key)
    {first : Bool} (hfirst : first = true → key.isPattern = true) {s : Segment}
    {suffix rest : List Char} (hs : Suffix (.access .slot key none first) s suffix)
    (hr : EndsSegment rest) :
    (grammar n).bracketBody .top (accessChars false key first ++ ']' :: (suffix ++ rest)) =
      .ok (s, rest) := by
  have hhead (c : Char) (hc : isReserved c = true ∧ c ≠ '*' ∧ c ≠ '/') :
      (accessChars false key first ++ ']' :: (suffix ++ rest)).head? ≠ some c :=
    head?_accessChars_ne h false first _ hc.1 hc.2.1 hc.2.2
  have hend := endsAccess_close (suffix ++ rest)
  obtain ⟨e, he⟩ := filter_access n h hfirst false (suffix ++ rest)
  -- a filter is tried first and fails, for no comparison follows the access
  have hfilter : (grammar n).bracketFilter (accessChars false key first ++ ']' :: (suffix ++ rest)) =
      .ok (none, accessChars false key first ++ ']' :: (suffix ++ rest)) :=
    run_map_of_ok (f := Option.join) (attempt_of_error (run_bind_of_error he))
  have hslotRead : (grammar n).bracketSlot .top
      (accessChars false key first ++ ']' :: (suffix ++ rest)) = .ok (s, rest) := by
    rw [Grammar.bracketSlot, run_bind_of_ok (access_accessText _ .slot h hfirst false hend .top),
      run_bind_of_ok (skipBlanks_of_head? (by rintro c ⟨⟩; decide)),
      run_bind_of_ok (expect_cons_self ']' _), hs.read hr]
  rw [Grammar.bracketBody, run_bind_of_ok (skipBlanks_accessChars h false first _),
    run_bind_of_ok (eat_of_head?_ne (hhead ']' (by decide))), if_neg Bool.false_ne_true,
    run_bind_of_ok (eatText_of_head?_ne rfl (hhead '+' (by decide))), if_neg Bool.false_ne_true,
    run_bind_of_ok (eatText_of_head?_ne rfl (hhead '+' (by decide))), if_neg Bool.false_ne_true,
    run_bind_of_ok (sliceRange_access h hslot first _)]
  show ((grammar n).bracketFilter >>= _) _ = _
  rw [run_bind_of_ok hfilter]
  show (peek >>= _) _ = _
  rw [run_bind_of_ok (run_peek _), if_neg (by simpa using hhead '(' (by decide)), hslotRead]

/-- **The place after the last element is read back.** -/
theorem bracketBody_append (g : Grammar) (unique : Bool) {s : Segment} {suffix rest : List Char}
    (hs : Suffix (.append unique) s suffix) (hr : EndsSegment rest) :
    g.bracketBody .top ((if unique then "+?" else "+").toList ++ ']' :: (suffix ++ rest)) =
      .ok (s, rest) := by
  have hread := hs.read hr
  cases unique with
  | true =>
    show (g.bracketBody .top) ('+' :: '?' :: ']' :: (suffix ++ rest)) = _
    rw [Grammar.bracketBody, run_bind_of_ok (skipBlanks_of_head? (by rintro c ⟨⟩; decide)),
      run_bind_of_ok (eat_of_head?_ne (by rintro ⟨⟩)), if_neg Bool.false_ne_true]
    exact hread
  | false =>
    show (g.bracketBody .top) ('+' :: ']' :: (suffix ++ rest)) = _
    rw [Grammar.bracketBody, run_bind_of_ok (skipBlanks_of_head? (by rintro c ⟨⟩; decide)),
      run_bind_of_ok (eat_of_head?_ne (by rintro ⟨⟩)), if_neg Bool.false_ne_true,
      run_bind_of_ok (eatText_of_no_match rfl), if_neg Bool.false_ne_true]
    exact hread

/-- The bounds of a slice are integers of sixty-four bits. -/
structure SliceFits (r : SliceRange) : Prop where
  start : ∀ i, r.start = some (.index i) → Word.fits i = true
  stop : ∀ i, r.stop = some (.index i) → Word.fits i = true
  step : ∀ i, r.step = some i → Word.fits i = true

/-- A slice bound is read back. -/
theorem bound_boundText {b : Option Bound} (h : ∀ i, b = some (.index i) → Word.fits i = true)
    {rest : List Char} (hr : EndsAccess rest) :
    bound ((Bound.text b).toList ++ rest) = .ok (b, rest) := by
  match b with
  | none =>
    exact bound_of_optionalInt (hr.head?_ne (by decide))
      (optionalInt_of_head? hr.no_digit (hr.head?_ne (by decide)))
  | some .length =>
    show bound ('+' :: rest) = _
    rw [bound, run_bind_of_ok (eat_cons_self '+' rest), if_pos rfl]
    rfl
  | some (.index i) =>
    obtain ⟨c, cs, hcs, hreserved, -⟩ := (isWord_intText i).exists_cons
    have hplus : ((Decimal.intText i).toList ++ rest).head? ≠ some '+' := by
      rw [hcs]
      rintro ⟨⟩
      exact absurd hreserved (by decide)
    exact bound_of_optionalInt hplus (optionalInt_intText (h i rfl) hr.no_digit)

/-- A slice between its brackets, its start set apart. -/
theorem toList_sliceText (r : SliceRange) : r.text.toList =
    (Bound.text r.start).toList ++ ':' :: ((Bound.text r.stop).toList ++ depthStep r.step) := by
  rw [SliceRange.text]
  cases r.step <;> simp [depthStep]

theorem sliceRange_sliceText {r : SliceRange} (h : SliceFits r) (rest : List Char) :
    sliceRange (r.text.toList ++ ']' :: rest) = .ok (some r, rest) := by
  have hstep : EndsAccess (depthStep r.step ++ ']' :: rest) := by
    cases r.step with
    | none => exact endsAccess_close rest
    | some _ => exact endsAccess_colon _
  obtain ⟨start, stop, step⟩ := r
  have hend (step : Option Int) : (do
      skipBlanks
      if ← eat ']' then pure (some (SliceRange.mk start stop step))
      else fail "invalid slice" : Parse (Option SliceRange)) (']' :: rest) =
        .ok (some ⟨start, stop, step⟩, rest) := by
    rw [run_bind_of_ok (skipBlanks_of_head? (by rintro c ⟨⟩; decide)),
      run_bind_of_ok (eat_cons_self ']' rest)]
    rfl
  rw [toList_sliceText, List.append_assoc, List.cons_append, List.append_assoc, sliceRange,
    run_bind_of_ok (run_get _), run_bind_of_ok (bound_boundText h.start (endsAccess_colon _)),
    run_bind_of_ok (eat_cons_self ':' _), if_pos rfl, run_bind_of_ok (bound_boundText h.stop hstep)]
  cases step with
  | none =>
    show (eat ':' >>= _) (']' :: rest) = _
    rw [run_bind_of_ok (eat_of_head?_ne (by rintro ⟨⟩)), if_neg Bool.false_ne_true,
      run_bind_of_ok (run_pure _ _)]
    exact hend none
  | some n =>
    have hread := optionalInt_intText (h.step n rfl) (endsAccess_close rest).no_digit
    show (eat ':' >>= _) (':' :: ((Decimal.intText n).toList ++ ']' :: rest)) = _
    rw [run_bind_of_ok (eat_cons_self ':' _), if_pos rfl, run_bind_of_ok hread]
    exact hend (some n)

/-- What a slice begins with. Only the length begins with a plus sign, and a colon follows it. -/
theorem sliceText_eq_cons (r : SliceRange) (rest : List Char) : ∃ c cs, r.text.toList ++ rest = c :: cs ∧
    Text.isBlank c = false ∧ c ≠ ']' ∧ c ≠ '~' ∧ (c ≠ '+' ∨ cs.head? = some ':') := by
  rw [toList_sliceText]
  match r.start with
  | none => exact ⟨':', _, rfl, by decide, by decide, by decide, .inl (by decide)⟩
  | some .length => exact ⟨'+', _, rfl, by decide, by decide, by decide, .inr rfl⟩
  | some (.index i) =>
    obtain ⟨d, ds, hds, hreserved, hblank, -⟩ := (isWord_intText i).exists_cons
    have hne (e : Char) (he : isReserved e = true) : d ≠ e := by
      rintro rfl
      rw [hreserved] at he
      cases he
    have hstart : (Bound.text (some (.index i))).toList = d :: ds := hds
    rw [hstart]
    exact ⟨d, _, rfl, hblank, hne ']' (by decide), hne '~' (by decide), .inl (hne '+' (by decide))⟩

/-- **A slice is read back from its text.** -/
theorem bracketBody_slice (g : Grammar) {r : SliceRange} (h : SliceFits r) {s : Segment}
    {suffix rest : List Char} (hs : Suffix (.slice r) s suffix) (hr : EndsSegment rest) :
    g.bracketBody .top (r.text.toList ++ ']' :: (suffix ++ rest)) = .ok (s, rest) := by
  have hread := sliceRange_sliceText h (suffix ++ rest)
  obtain ⟨c, cs, hcs, hblank, hclose, -, hplus⟩ := sliceText_eq_cons r (']' :: (suffix ++ rest))
  have happend {text : String} {d : Char} {ds : List Char} (htext : text.toList = '+' :: d :: ds)
      (hd : d ≠ ':') : eatText text (c :: cs) = .ok (false, c :: cs) := by
    rcases hplus with hc | hcolon
    · exact eatText_of_head?_ne (by rw [htext]; rfl) (by rintro ⟨⟩; exact hc rfl)
    · obtain ⟨es, rfl⟩ := List.head?_eq_some_iff.mp hcolon
      refine eatText_of_no_match ?_
      rw [htext, List.isPrefixOf, List.isPrefixOf, beq_eq_false_iff_ne.mpr hd, Bool.false_and,
        Bool.and_false]
  rw [hcs] at hread ⊢
  rw [Grammar.bracketBody, run_bind_of_ok (skipBlanks_of_head? (by rintro d ⟨⟩; exact hblank)),
    run_bind_of_ok (eat_of_head?_ne (by rintro ⟨⟩; exact hclose rfl)), if_neg Bool.false_ne_true,
    run_bind_of_ok (happend rfl (by decide)), if_neg Bool.false_ne_true,
    run_bind_of_ok (happend rfl (by decide)),
    if_neg Bool.false_ne_true, run_bind_of_ok hread]
  exact hs.read hr

/-- The whole sequence is read back. -/
theorem bracketBody_full (g : Grammar) {s : Segment} {suffix rest : List Char}
    (hs : Suffix (.slice .full) s suffix) (hr : EndsSegment rest) :
    g.bracketBody .top (']' :: (suffix ++ rest)) = .ok (s, rest) := by
  rw [Grammar.bracketBody, run_bind_of_ok (skipBlanks_of_head? (by rintro c ⟨⟩; decide)),
    run_bind_of_ok (eat_cons_self ']' _), if_pos rfl, hs.read hr]

end Parse

end DottedPath

import DottedPath.Proofs.Path.SuffixText

/-!
# Key accesses and recursive segments, read back

Both are read from where a key may begin.  `keySegment_access`: an access is read back, although an
asterisk is tried as a recursive segment first.  `keySegment_recursive`: a recursive segment without
branches and filter is read back with its depth window.
-/

namespace DottedPath

namespace Parse

/-! ### Keys -/

/-- An asterisk that an access ends after is no recursive segment. -/
theorem recursive_star (g : Grammar) {rest : List Char} (hr : EndsAccess rest) (first : Bool) :
    g.recursive ('*' :: ((sign "?" first).toList ++ rest)) =
      .ok (none, '*' :: ((sign "?" first).toList ++ rest)) := by
  have hplain (cs : List Char) (hcs : ∀ c ∈ cs.head?, c ∈ '?' :: accessEnds) :
      g.recursiveKey cs = .ok (none, cs) := by
    cases cs with
    | nil => rfl
    | cons c cs =>
      have hc := hcs c rfl
      simp only [accessEnds, List.mem_cons, List.not_mem_nil, or_false] at hc
      rcases hc with rfl | rfl | rfl | rfl | rfl | rfl | rfl | rfl <;> rfl
  have hkey : g.recursiveKey ((sign "?" first).toList ++ rest) =
      .ok (none, (sign "?" first).toList ++ rest) := by
    refine hplain _ ?_
    cases first with
    | false => exact fun c hc => List.mem_cons_of_mem _ (hr c hc)
    | true =>
      rintro c ⟨⟩
      exact List.mem_cons_self ..
  rw [Grammar.recursive, run_bind_of_ok (run_get _), run_bind_of_ok (run_skip 1 _), List.drop_one,
    List.tail_cons, run_bind_of_ok hkey]
  rfl

/-- **A key access is read back from its text.** -/
theorem keySegment_access (g : Grammar) {key : KeyPattern} (h : key.Readable) {first : Bool}
    (hfirst : first = true → key.isPattern = true) {s : Segment} {suffix rest : List Char}
    (hs : Suffix (.access .key key none first) s suffix) (hr : EndsSegment rest) :
    g.keySegment .top (accessChars true key first ++ (suffix ++ rest)) = .ok (s, rest) := by
  have hend := hs.endsAccess hr
  have haccess := access_accessText g .key h hfirst true hend .top
  -- A wildcard is tried as a recursive segment first.
  have hread : (g.access .top .key >>= suffixes .top)
      (accessChars true key first ++ (suffix ++ rest)) = .ok (s, rest) := by
    rw [run_bind_of_ok haccess, hs.read hr]
  rw [Grammar.keySegment, run_bind_of_ok (run_peek _)]
  by_cases hstar : key = .wildcard
  · subst hstar
    rw [accessChars_wildcard, List.cons_append] at hread ⊢
    show (g.recursive >>= _) _ = _
    rw [run_bind_of_ok (recursive_star g hend first)]
    exact hread
  · rw [beq_eq_false_iff_ne.mpr (head?_accessChars_ne_star h hstar true first _)]
    exact hread

/-! ### Recursive segments -/

/-- The bounds of a depth window are integers of sixty-four bits. -/
structure DepthFits (d : DepthRange) : Prop where
  start : ∀ i ∈ d.start, Word.fits i = true
  stop : ∀ i ∈ d.stop, Word.fits i = true
  step : ∀ i ∈ d.step, Word.fits i = true

/-- What ends an access begins no integer. -/
theorem EndsAccess.no_digit {rest : List Char} (h : EndsAccess rest) :
    ∀ c ∈ rest.head?, c.isDigit = false := by
  intro c hc
  have hall : accessEnds.all (·.isDigit = false) = true := by decide
  exact of_decide_eq_true (List.all_eq_true.mp hall c (h c hc))

/-- An integer that may be left out is read back. -/
theorem optionalInt_optionalText {o : Option Int} (h : ∀ i ∈ o, Word.fits i = true)
    {rest : List Char} (hr : EndsAccess rest) :
    optionalInt ((optionalText o).toList ++ rest) = .ok (o, rest) := by
  cases o with
  | none => exact optionalInt_of_head? hr.no_digit (hr.head?_ne (by decide))
  | some i => exact optionalInt_intText (h i rfl) hr.no_digit

theorem no_restriction_of_isDigit {c : Char} (h : c.isDigit = true) :
    (c.isAlpha || c == '!' || c == '(') = false := by
  have hdigit := Char.isDigit_iff_toNat.mp h
  have hge : 48 ≤ c.toNat := hdigit.1
  have hle : c.toNat ≤ 57 := hdigit.2
  have hbelow (low : Char) (hlow : 57 < low.toNat) : ¬ c.val ≥ low.val := by
    intro hc
    have hlow' : low.toNat ≤ c.toNat := UInt32.le_iff_toNat_le.mp hc
    omega
  have halpha : c.isAlpha = false := by
    have hupper : c.isUpper = false := decide_eq_false fun hc => hbelow 'A' (by decide) hc.1
    have hlower : c.isLower = false :=
      Bool.and_eq_false_iff.mpr (.inl (decide_eq_false (hbelow 'a' (by decide))))
    exact Bool.or_eq_false_iff.mpr ⟨hupper, hlower⟩
  rw [halpha, Bool.false_or, Bool.or_eq_false_iff, beq_eq_false_iff_ne, beq_eq_false_iff_ne]
  refine ⟨?_, ?_⟩ <;> rintro rfl <;> exact absurd hge (by decide)

/-- A colon before an integer or the end of a window begins no restriction. -/
theorem restrictionAhead_optionalText (o : Option Int) {rest : List Char} (hr : EndsAccess rest) :
    restrictionAhead (':' :: ((optionalText o).toList ++ rest)) =
      .ok (false, ':' :: ((optionalText o).toList ++ rest)) := by
  have hnone : ∀ c ∈ ((optionalText o).toList ++ rest).head?,
      (c.isAlpha || c == '!' || c == '(') = false := by
    intro c hc
    cases o with
    | none =>
      have hall : accessEnds.all
          (fun c => (c.isAlpha || c == '!' || c == '(') = false) = true := by decide
      exact of_decide_eq_true (List.all_eq_true.mp hall c (hr c hc))
    | some i =>
      obtain ⟨d, ds, hds, -⟩ := (isWord_intText i).exists_cons
      have hmem : c ∈ (Decimal.intText i).toList := by
        have hc : ((Decimal.intText i).toList ++ rest).head? = some c := hc
        rw [hds] at hc ⊢
        cases hc
        exact List.mem_cons_self ..
      -- an integer begins with a digit or a minus, a restriction with neither
      rcases Number.of_mem_intText hmem with rfl | hd
      · decide
      · exact no_restriction_of_isDigit hd
  rw [restrictionAhead, run_bind_of_ok (run_get _)]
  generalize (optionalText o).toList ++ rest = cs at *
  cases cs with
  | nil => rfl
  | cons c cs =>
    show (pure (c.isAlpha || c == '!' || c == '(') : Parse Bool) _ = _
    rw [hnone c rfl]
    rfl

/-- The step of a depth window with the colon before it. -/
def depthStep : Option Int → List Char
  | none => []
  | some n => ':' :: (Decimal.intText n).toList

/-- The parts of a depth window after its start. -/
def depthTail (d : DepthRange) : List Char :=
  (if d.stop.isSome || d.step.isSome then ':' :: (optionalText d.stop).toList else []) ++
    depthStep d.step

theorem toList_depthText (d : DepthRange) : d.text.toList =
    if d == .unbounded then [] else ':' :: ((optionalText d.start).toList ++ depthTail d) := by
  rw [DepthRange.text]
  split
  · rfl
  · rw [depthTail]
    cases d.step <;> split <;> simp [depthStep]

theorem endsAccess_colon (rest : List Char) : EndsAccess (':' :: rest) := by
  rintro c ⟨⟩
  decide

theorem endsAccess_depthTail (d : DepthRange) {rest : List Char} (hr : EndsAccess rest) :
    EndsAccess (depthTail d ++ rest) := by
  rw [depthTail]
  split
  · exact endsAccess_colon _
  · cases d.step with
    | none => exact hr
    | some _ => exact endsAccess_colon _

/-- A part of a depth window, from the colon before it on. -/
def depthPart : Parse (Option Int) := do
  if (← peek) == some ':' && !(← restrictionAhead) then
    skip 1
    optionalInt
  else pure none

theorem depthPart_intText {n : Int} (hn : Word.fits n = true) {rest : List Char}
    (hr : EndsAccess rest) :
    depthPart (':' :: ((Decimal.intText n).toList ++ rest)) = .ok (some n, rest) := by
  have hahead : restrictionAhead (':' :: ((Decimal.intText n).toList ++ rest)) =
      .ok (false, ':' :: ((Decimal.intText n).toList ++ rest)) :=
    restrictionAhead_optionalText (some n) hr
  have hread := optionalInt_intText hn hr.no_digit
  rw [depthPart, run_bind_of_ok (run_peek _), run_bind_of_ok hahead]
  show (skip 1 >>= _) _ = _
  rw [run_bind_of_ok (run_skip 1 _), List.drop_one, List.tail_cons, hread]

theorem depthPart_of_endsSegment {rest : List Char} (hr : EndsSegment rest) :
    depthPart rest = .ok (none, rest) := by
  have hcolon : rest.head? ≠ some ':' := hr.head?_ne (by decide)
  rw [depthPart, run_bind_of_ok (run_peek _),
    run_bind_of_ok hr.restrictionAhead, beq_eq_false_iff_ne.mpr hcolon]
  rfl

/-- The step of a depth window is read back from the colon before it on. -/
theorem depthPart_step {step : Option Int} (h : ∀ i ∈ step, Word.fits i = true) {rest : List Char}
    (hr : EndsSegment rest) : depthPart (depthStep step ++ rest) = .ok (step, rest) := by
  cases step with
  | none => exact depthPart_of_endsSegment hr
  | some n => exact depthPart_intText (h n rfl) hr.endsAccess

/-- A depth window is read back behind its first colon. -/
theorem depthRange_depthText {d : DepthRange} (h : DepthFits d) {rest : List Char}
    (hr : EndsSegment rest) :
    depthRange ((optionalText d.start).toList ++ (depthTail d ++ rest)) = .ok (d, rest) := by
  obtain ⟨start, stop, step⟩ := d
  -- the second colon is only written if something stands behind it
  by_cases hmore : (stop.isSome || step.isSome) = true
  · have htail : depthTail ⟨start, stop, step⟩ ++ rest =
        ':' :: ((optionalText stop).toList ++ (depthStep step ++ rest)) := by
      rw [depthTail, if_pos hmore]
      simp
    have hend : EndsAccess (depthStep step ++ rest) := by
      cases step with
      | none => exact hr.endsAccess
      | some n => exact endsAccess_colon _
    rw [htail, depthRange, run_bind_of_ok (optionalInt_optionalText h.start (endsAccess_colon _)),
      run_bind_of_ok (run_peek _), run_bind_of_ok (restrictionAhead_optionalText stop hend)]
    show (skip 1 >>= fun _ => optionalInt >>= fun stop => depthPart >>= fun step =>
      pure (DepthRange.mk start stop step)) _ = _
    rw [run_bind_of_ok (run_skip 1 _), List.drop_one, List.tail_cons,
      run_bind_of_ok (optionalInt_optionalText h.stop hend), run_bind_of_ok (depthPart_step h.step hr)]
    rfl
  · have hcolon : rest.head? ≠ some ':' := hr.head?_ne (by decide)
    rw [Bool.not_eq_true, Bool.or_eq_false_iff, Option.isSome_eq_false_iff,
      Option.isSome_eq_false_iff, Option.isNone_iff_eq_none, Option.isNone_iff_eq_none] at hmore
    obtain ⟨rfl, rfl⟩ := hmore
    show depthRange ((optionalText start).toList ++ rest) = _
    rw [depthRange, run_bind_of_ok (optionalInt_optionalText h.start hr.endsAccess),
      run_bind_of_ok (run_peek _), run_bind_of_ok hr.restrictionAhead,
      beq_eq_false_iff_ne.mpr hcolon]
    rfl

/-- What a recursive segment goes down by is read back. -/
theorem recursiveKey_text (g : Grammar) {key : KeyPattern} (h : key.Readable) {rest : List Char}
    (hr : EndsWord rest) :
    g.recursiveKey ((key.text true).toList ++ rest) = .ok (some (key, []), rest) := by
  cases h with
  | @literal key h =>
    obtain ⟨c, cs, hcs, hreserved, hblank⟩ := token_eq_cons h true
    have hread := keyLiteral_token h true hr
    have hstart : (isWordChar c || c == '\\' || isQuote c || (c == '#' && (cs ++ rest).head?.any isQuote))
        = true := by
      rw [isWordChar, hreserved, hblank]
      cases isQuote c <;> simp
    show g.recursiveKey ((key.normalize true).toList ++ rest) = _
    rw [hcs, List.cons_append] at hread ⊢
    generalize hds : c :: (cs ++ rest) = ds at hread ⊢
    rw [Grammar.recursiveKey, run_bind_of_ok (run_get _)]
    -- none of the marks that the reader looks for begins a literal
    split
    · cases hds
      exact absurd hreserved (by decide)
    · cases hds
      exact absurd hreserved (by decide)
    · cases hds
      exact absurd hreserved (by decide)
    · cases hds
      rw [if_pos hstart, run_bind_of_ok hread]
      rfl
    · cases hds
  | wildcard => rfl
  | @regex re h =>
    have hread := regex_text h rest
    show g.recursiveKey (re.text.toList ++ rest) = _
    rw [toList_regexText] at hread ⊢
    show (regex >>= fun re => pure (some (KeyPattern.regex re, []))) _ = _
    rw [run_bind_of_ok hread]
    rfl

/-- A depth window is read back from its text. -/
theorem recursiveMarksWithin_depthText (key : KeyPattern) {d : DepthRange} (h : DepthFits d)
    {rest : List Char} (hr : EndsSegment rest) (n : Nat) :
    Grammar.recursiveMarksWithin key (n + 1) [] .unbounded (d.text.toList ++ rest) = .ok (([], d), rest) := by
  have hcolon : rest.head? ≠ some ':' := hr.head?_ne (by decide)
  have hstop (m : Nat) (d : DepthRange) :
      Grammar.recursiveMarksWithin key m [] d rest = .ok (([], d), rest) := by
    cases m with
    | zero => rfl
    | succ m =>
      rw [Grammar.recursiveMarksWithin, run_bind_of_ok hr.restrictionAhead,
        if_neg Bool.false_ne_true, run_bind_of_ok (eat_of_head?_ne hcolon)]
      rfl
  rw [toList_depthText]
  split
  · next hd =>
    rw [eq_of_beq hd]
    exact hstop (n + 1) .unbounded
  · have hahead := restrictionAhead_optionalText d.start (endsAccess_depthTail d hr.endsAccess)
    rw [List.cons_append, List.append_assoc, Grammar.recursiveMarksWithin, run_bind_of_ok hahead,
      if_neg Bool.false_ne_true, run_bind_of_ok (eat_cons_self ':' _), if_pos rfl,
      run_bind_of_ok (depthRange_depthText h hr), hstop]

/-- **A recursive segment is read back from its text.** -/
theorem keySegment_recursive (g : Grammar) {key : KeyPattern} (h : key.Readable) (first : Bool)
    {d : DepthRange} (hd : DepthFits d) {rest : List Char} (hr : EndsSegment rest) :
    g.keySegment .top ('*' :: ((key.text true).toList ++ ((sign "?" first).toList ++
      (d.text.toList ++ rest)))) = .ok (.recursive key [] d none first, rest) := by
  have hend : EndsAccess (d.text.toList ++ rest) := by
    rw [toList_depthText]
    split
    · exact hr.endsAccess
    · exact endsAccess_colon _
  have hword : EndsWord ((sign "?" first).toList ++ (d.text.toList ++ rest)) := by
    cases first with
    | false => exact hend.endsWord
    | true => exact endsWord_mark _
  have hrecursive : g.recursive ('*' :: ((key.text true).toList ++ ((sign "?" first).toList ++
      (d.text.toList ++ rest)))) = .ok (some (.recursive key [] d none first), rest) := by
    rw [Grammar.recursive, run_bind_of_ok (run_get _), run_bind_of_ok (run_skip 1 _), List.drop_one,
      List.tail_cons, run_bind_of_ok (recursiveKey_text g h hword)]
    show (eat '?' >>= _) _ = _
    rw [run_bind_of_ok (eat_sign rfl first (hend.head?_ne (by decide))), run_bind_of_ok (run_get _),
      run_bind_of_ok (recursiveMarksWithin_depthText key hd hr _)]
    show (g.filterSuffix >>= _) _ = _
    rw [run_bind_of_ok (filterSuffix_of_endsAccess g hr.endsAccess), Option.isSome_none,
      if_neg Bool.false_ne_true, run_bind_of_ok (run_pure _ _)]
    show (guardTest >>= _) _ = _
    rw [run_bind_of_ok hr.guardTest, Bool.or_false]
    rfl
  rw [Grammar.keySegment, run_bind_of_ok (run_peek _)]
  show (g.recursive >>= _) _ = _
  rw [run_bind_of_ok hrecursive]
  rfl

end Parse

end DottedPath

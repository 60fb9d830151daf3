import DottedPath.Evaluate.Location
import DottedPath.Proofs.Path.BracketText
import DottedPath.Proofs.Path.ChainText

/-!
# Paths, read back

A plain segment is an access without a filter, the place after the last element, a slice, or a
recursive segment without branches and filter; it may be restricted to kinds and marked as not
written.  The canonical text of plain segments is read as just these segments, whatever stands before
and after each of them.

## Main statements

- `Segment.Plain.read_first`, `Segment.Plain.read_next`: what the text of a segment is read as at the
  start of a path and inside of one.
- `PathExpression.parse_text`: a plain path is read back from its canonical text.
- `PathExpression.parse_pathText_keys`: so is the text of a location that goes through text keys.
-/

namespace DottedPath

/-! ### Plain segments -/

/-- A segment that may be restricted, and whose text is read back. -/
inductive Segment.Part : Segment → Prop where
  | key {key : KeyPattern} {first : Bool} (h : key.Readable)
    (hfirst : first = true → key.isPattern = true) : Part (.access .key key none first)
  | attr {key : KeyPattern} {first : Bool} (h : key.Readable)
    (hfirst : first = true → key.isPattern = true) : Part (.access .attr key none first)
  | slot {key : KeyPattern} {first : Bool} (h : key.Readable) (hslot : Parse.IsSlotKey key)
    (hfirst : first = true → key.isPattern = true) : Part (.access .slot key none first)
  | append (unique : Bool) : Part (.append unique)
  | slice {r : SliceRange} (h : Parse.SliceFits r) : Part (.slice r)

/-- A segment without a mark whose text is read back. -/
inductive Segment.Body : Segment → Prop where
  | part {s s' : Segment} {suffix : List Char} (h : s.Part) (hs : Parse.Suffix s s' suffix) : Body s'
  | recursive {key : KeyPattern} {d : DepthRange} {first : Bool} (h : key.Readable)
    (hd : Parse.DepthFits d) : Body (.recursive key [] d none first)

namespace Parse

/-! ### Keys -/

/-- What begins a key or a recursive segment, and nothing else. -/
def BeginsKey (cs : List Char) : Prop :=
  cs.head? ≠ none ∧ ∀ c, isReserved c = true → c ≠ '*' → c ≠ '/' → cs.head? ≠ some c

theorem BeginsKey.head?_ne {cs : List Char} (h : BeginsKey cs) {c : Char}
    (hc : isReserved c = true ∧ c ≠ '*' ∧ c ≠ '/') : cs.head? ≠ some c :=
  h.2 c hc.1 hc.2.1 hc.2.2

theorem beginsKey_accessChars {key : KeyPattern} (h : key.Readable) (asKey first : Bool)
    (rest : List Char) : BeginsKey (accessChars asKey key first ++ rest) := by
  obtain ⟨c, cs, hcs, -⟩ := accessChars_eq_cons h asKey first
  refine ⟨?_, fun d hd hstar hslash => head?_accessChars_ne h asKey first rest hd hstar hslash⟩
  rw [hcs]
  rintro ⟨⟩

theorem beginsKey_star (rest : List Char) : BeginsKey ('*' :: rest) := by
  refine ⟨by rintro ⟨⟩, fun c _ hstar _ => ?_⟩
  rintro ⟨⟩
  exact hstar rfl

/-- A mark at the start of a path applies to the segment behind it. -/
theorem firstKeySegment_marked (g : Grammar) {cs rest : List Char} {s : Segment}
    (h : g.markedFirst .top cs = .ok (s, rest)) :
    g.firstKeySegment .top ('~' :: cs) = .ok (asNop s, rest) := by
  rw [Grammar.firstKeySegment, run_bind_of_ok (run_peek _)]
  show (skip 1 >>= _) _ = _
  rw [run_bind_of_ok (run_skip 1 _), List.drop_one, List.tail_cons, run_bind_of_ok h]
  rfl

/-- At the start of a path a key is read where it stands. -/
theorem firstKeySegment_key (g : Grammar) {cs rest : List Char} {s : Segment} (hcs : BeginsKey cs)
    (h : g.keySegment .top cs = .ok (s, rest)) (nop : Bool) :
    g.firstKeySegment .top ((sign "~" nop).toList ++ cs) = .ok (nopIf nop s, rest) := by
  cases nop with
  | false => exact (firstKeySegment_of_head? g .top hcs.1 hcs.2).trans h
  | true =>
    have hmarked : g.markedFirst .top cs = g.keySegment .top cs := by
      rw [Grammar.markedFirst, run_bind_of_ok (run_peek _)]
      have hat := hcs.head?_ne (c := '@') (by decide)
      have hbracket := hcs.head?_ne (c := '[') (by decide)
      have hparen := hcs.head?_ne (c := '(') (by decide)
      generalize cs.head? = o at *
      split
      · exact absurd rfl hat
      · exact absurd rfl hbracket
      · exact absurd rfl hparen
      · rfl
    exact firstKeySegment_marked g (hmarked.trans h)

/-- Inside of a path a key is read behind its point. -/
theorem nextSegment_key (g : Grammar) {cs rest : List Char} {s : Segment} (hcs : BeginsKey cs)
    (h : g.keySegment .top cs = .ok (s, rest)) (nop : Bool) :
    g.nextSegment .top ('.' :: ((sign "~" nop).toList ++ cs)) = .ok (some (nopIf nop s), rest) := by
  have hmarks : takeWhile (· == '~') ((sign "~" nop).toList ++ cs) =
      .ok ((sign "~" nop).toList, cs) := by
    have hstop : takeWhile (· == '~') cs = .ok ([], cs) := by
      refine takeWhile_of_head? fun c hc => ?_
      rw [beq_eq_false_iff_ne]
      rintro rfl
      exact hcs.head?_ne (by decide) hc
    cases nop with
    | false => exact hstop
    | true =>
      rw [run_takeWhile] at hstop
      obtain ⟨htake, hdrop⟩ := Prod.mk.inj (Except.ok.inj hstop)
      show takeWhile (· == '~') ('~' :: cs) = .ok (['~'], cs)
      rw [run_takeWhile, List.takeWhile_cons_of_pos (by decide), List.dropWhile_cons_of_pos (by decide),
        htake, hdrop]
  have hdotted : g.dottedSegment .top ((sign "~" nop).toList ++ cs) = .ok (nopIf nop s, rest) := by
    rw [Grammar.dottedSegment, if_neg (by decide), run_bind_of_ok hmarks,
      run_bind_of_ok (run_peek _), if_neg (by simpa using hcs.head?_ne (c := '(') (by decide)),
      run_bind_of_ok h]
    cases nop <;> rfl
  have hends : endsAt .top ('.' :: ((sign "~" nop).toList ++ cs)) = false := rfl
  rw [Grammar.nextSegment, run_bind_of_ok (run_get _), hends, if_neg Bool.false_ne_true,
    run_bind_of_ok (run_peek _)]
  show (skip 1 >>= _) _ = _
  rw [run_bind_of_ok (run_skip 1 _), List.drop_one, List.tail_cons, run_bind_of_ok hdotted]
  rfl

/-! ### Attributes -/

theorem nopIf_false (s : Segment) : nopIf false s = s := rfl

theorem attrMarksFrom_of_head? {cs : List Char} (htilde : cs.head? ≠ some '~')
    (hat : cs.head? ≠ some '@') (marked afterAt : Bool) :
    attrMarksFrom marked afterAt cs = ((marked, afterAt), cs) := by
  unfold attrMarksFrom
  split
  · exact absurd rfl htilde
  · exact absurd rfl hat
  · rfl

/-- An attribute access is read behind its at sign. -/
theorem attrSegment_access (g : Grammar) {key : KeyPattern} (h : key.Readable) {first : Bool}
    (hfirst : first = true → key.isPattern = true) {s : Segment} {suffix rest : List Char}
    (hs : Suffix (.access .attr key none first) s suffix) (hr : EndsSegment rest) (nop : Bool) :
    g.attrSegment .top
      ('@' :: ((sign "~" nop).toList ++ (accessChars true key first ++ (suffix ++ rest)))) =
        .ok (nopIf nop s, rest) := by
  have hbegins := beginsKey_accessChars h true first (suffix ++ rest)
  have haccess := access_accessText g .attr h hfirst true (hs.endsAccess hr) .top
  have hstop := attrMarksFrom_of_head? (hbegins.head?_ne (c := '~') (by decide))
    (hbegins.head?_ne (c := '@') (by decide))
  have hmarks : attrMarksFrom false true
      ((sign "~" nop).toList ++ (accessChars true key first ++ (suffix ++ rest))) =
        ((nop, !nop), accessChars true key first ++ (suffix ++ rest)) := by
    cases nop with
    | false => exact hstop false true
    | true =>
      show attrMarksFrom false true ('~' :: (accessChars true key first ++ (suffix ++ rest))) = _
      rw [attrMarksFrom, hstop]
      rfl
  have hparen := hbegins.head?_ne (c := '(') (by decide)
  rw [Grammar.attrSegment, run_bind_of_ok (expect_cons_self '@' _), Grammar.attrBody,
    run_bind_of_ok (run_get _), hmarks]
  dsimp only
  rw [run_bind_of_ok (run_set _ _), run_bind_of_ok (run_peek _), beq_eq_false_iff_ne.mpr hparen,
    Bool.and_false, if_neg Bool.false_ne_true, run_bind_of_ok haccess, run_bind_of_ok (hs.read hr)]
  rfl

theorem firstKeySegment_attr (g : Grammar) {cs rest : List Char} {s : Segment}
    (h : g.attrSegment .top ('@' :: cs) = .ok (s, rest)) (nop : Bool) :
    g.firstKeySegment .top ((sign "~" nop).toList ++ '@' :: cs) = .ok (nopIf nop s, rest) := by
  cases nop with
  | false =>
    show g.firstKeySegment .top ('@' :: cs) = _
    rw [Grammar.firstKeySegment, run_bind_of_ok (run_peek _)]
    exact h
  | true =>
    refine firstKeySegment_marked g ?_
    rw [Grammar.markedFirst, run_bind_of_ok (run_peek _)]
    exact h

theorem nextSegment_attr (g : Grammar) {cs rest : List Char} {s : Segment}
    (h : g.attrSegment .top ('@' :: cs) = .ok (s, rest)) :
    g.nextSegment .top ('@' :: cs) = .ok (some s, rest) := by
  have hends : endsAt .top ('@' :: cs) = false := rfl
  rw [Grammar.nextSegment, run_bind_of_ok (run_get _), hends, if_neg Bool.false_ne_true,
    run_bind_of_ok (run_peek _)]
  show (g.attrSegment .top >>= _) _ = _
  rw [run_bind_of_ok h]
  rfl

/-! ### Brackets -/

/-- What may stand between brackets before the closing one. -/
def BeginsBody (cs : List Char) : Prop :=
  ∃ c ds, cs = c :: ds ∧ Text.isBlank c = false ∧ c ≠ '~'

/-- A segment in brackets is read where it stands. -/
theorem bracketSegment_body (g : Grammar) {cs rest : List Char} {s : Segment} (hcs : BeginsBody cs)
    (h : g.bracketBody .top cs = .ok (s, rest)) (nop : Bool) :
    g.bracketSegment .top ('[' :: ((sign "~" nop).toList ++ cs)) = .ok (nopIf nop s, rest) := by
  obtain ⟨c, ds, rfl, hblank, hmark⟩ := hcs
  have hskip : skipBlanks ((sign "~" nop).toList ++ c :: ds) =
      .ok ((), (sign "~" nop).toList ++ c :: ds) := by
    refine skipBlanks_of_head? ?_
    cases nop with
    | false =>
      rintro d ⟨⟩
      exact hblank
    | true =>
      rintro d ⟨⟩
      decide
  rw [Grammar.bracketSegment, run_bind_of_ok (expect_cons_self '[' _), run_bind_of_ok hskip,
    run_bind_of_ok (eat_sign rfl nop (by rintro ⟨⟩; exact hmark rfl)), run_bind_of_ok h]
  rfl

theorem firstKeySegment_bracket (g : Grammar) {cs rest : List Char} {s : Segment}
    (h : g.bracketSegment .top ('[' :: cs) = .ok (s, rest)) (nop : Bool) :
    g.firstKeySegment .top ((sign "~" nop).toList ++ '[' :: cs) = .ok (nopIf nop s, rest) := by
  cases nop with
  | false =>
    show g.firstKeySegment .top ('[' :: cs) = _
    rw [Grammar.firstKeySegment, run_bind_of_ok (run_peek _)]
    exact h
  | true =>
    refine firstKeySegment_marked g ?_
    rw [Grammar.markedFirst, run_bind_of_ok (run_peek _)]
    exact h

theorem nextSegment_bracket (g : Grammar) {cs rest : List Char} {s : Segment}
    (h : g.bracketSegment .top ('[' :: cs) = .ok (s, rest)) (nop : Bool) :
    g.nextSegment .top ((sign "~" nop).toList ++ '[' :: cs) = .ok (some (nopIf nop s), rest) := by
  cases nop with
  | false =>
    have hends : endsAt .top ('[' :: cs) = false := rfl
    show g.nextSegment .top ('[' :: cs) = _
    rw [Grammar.nextSegment, run_bind_of_ok (run_get _), hends, if_neg Bool.false_ne_true,
      run_bind_of_ok (run_peek _)]
    show (g.bracketSegment .top >>= _) _ = _
    rw [run_bind_of_ok h]
    rfl
  | true =>
    have hends : endsAt .top ('~' :: '[' :: cs) = false := rfl
    have hmarked : g.markedNext .top ('[' :: cs) = .ok (s, rest) := by
      rw [Grammar.markedNext, run_bind_of_ok (run_peek _)]
      exact h
    show g.nextSegment .top ('~' :: '[' :: cs) = _
    rw [Grammar.nextSegment, run_bind_of_ok (run_get _), hends, if_neg Bool.false_ne_true,
      run_bind_of_ok (run_peek _)]
    show (skip 1 >>= _) _ = _
    rw [run_bind_of_ok (run_skip 1 _), List.drop_one, List.tail_cons, run_bind_of_ok hmarked]
    rfl

/-! ### Texts of segments -/

theorem Suffix.toList_textIn {s s' : Segment} {suffix : List Char} (h : Suffix s s' suffix)
    (top nop : Bool) :
    (Segment.textIn top nop s').toList = (Segment.textIn top nop s).toList ++ suffix := by
  cases h with
  | none => rw [List.append_nil]
  | restriction h => rw [Segment.textIn, String.toList_append]

theorem toList_textIn_key (top nop : Bool) (key : KeyPattern) (first : Bool) :
    (Segment.textIn top nop (.access .key key none first)).toList =
      (sign "." (!top)).toList ++ ((sign "~" nop).toList ++ accessChars true key first) := by
  rw [Segment.textIn, Filter.textOption, String.toList_append, String.toList_append,
    List.append_assoc, accessChars]

theorem toList_textIn_attr (top nop : Bool) (key : KeyPattern) (first : Bool) :
    (Segment.textIn top nop (.access .attr key none first)).toList =
      (sign "~" (nop && top)).toList ++
        '@' :: ((sign "~" (nop && !top)).toList ++ accessChars true key first) := by
  rw [Segment.textIn, Filter.textOption]
  simp [accessChars]

theorem toList_bracketed (nop : Bool) (body : String) :
    (bracketed nop body).toList = '[' :: ((sign "~" nop).toList ++ (body.toList ++ [']'])) := by
  rw [bracketed]
  simp

theorem toList_textIn_recursive (top nop : Bool) (key : KeyPattern) (d : DepthRange) (first : Bool) :
    (Segment.textIn top nop (.recursive key [] d none first)).toList =
      (sign "." (!top)).toList ++ ((sign "~" nop).toList ++
        '*' :: ((key.text true).toList ++ ((sign "?" first).toList ++ d.text.toList))) := by
  cases key <;> simp [Segment.textIn, Filter.textOption, KeyPattern.text]

/-- The readings of a text at the start of a path and inside of one. -/
structure ReadsBack (g : Grammar) (b : Segment) (nop : Bool) (rest : List Char) : Prop where
  first : g.firstKeySegment .top ((b.textIn true nop).toList ++ rest) = .ok (nopIf nop b, rest)
  next : g.nextSegment .top ((b.textIn false nop).toList ++ rest) = .ok (some (nopIf nop b), rest)

/-- What stands between brackets is read back with the brackets. -/
theorem readsBack_bracketed (g : Grammar) (body suffix : List Char) {s : Segment} {rest : List Char}
    {nop : Bool}
    (htext : ∀ top, (s.textIn top nop).toList =
      '[' :: ((sign "~" nop).toList ++ (body ++ ']' :: suffix)))
    (hbody : BeginsBody (body ++ ']' :: (suffix ++ rest)))
    (h : g.bracketBody .top (body ++ ']' :: (suffix ++ rest)) = .ok (s, rest)) :
    ReadsBack g s nop rest := by
  have hsegment := bracketSegment_body g hbody h nop
  have hcs : '[' :: ((sign "~" nop).toList ++ (body ++ ']' :: suffix)) ++ rest =
      '[' :: ((sign "~" nop).toList ++ (body ++ ']' :: (suffix ++ rest))) := by simp
  refine ⟨?_, ?_⟩
  · rw [htext, hcs]
    exact firstKeySegment_bracket g hsegment false
  · rw [htext, hcs]
    exact nextSegment_bracket g hsegment false

end Parse

open Parse

/-- A part with what follows it is read back. -/
theorem Segment.Part.readsBack (n : Nat) {s s' : Segment} (h : s.Part) {suffix rest : List Char}
    (hs : Suffix s s' suffix) (hr : EndsSegment rest) (nop : Bool) :
    ReadsBack (grammar n) s' nop rest := by
  cases h with
  | @key key first h hfirst =>
    have hkey := keySegment_access (grammar n) h hfirst hs hr
    have hbegins := beginsKey_accessChars h true first (suffix ++ rest)
    refine ⟨?_, ?_⟩
    · have hread := firstKeySegment_key (grammar n) hbegins hkey nop
      rw [hs.toList_textIn, toList_textIn_key]
      simpa [sign] using hread
    · have hread := nextSegment_key (grammar n) hbegins hkey nop
      rw [hs.toList_textIn, toList_textIn_key]
      simpa [sign] using hread
  | @attr key first h hfirst =>
    refine ⟨?_, ?_⟩
    · have hread := firstKeySegment_attr (grammar n)
        (attrSegment_access (grammar n) h hfirst hs hr false) nop
      rw [hs.toList_textIn, toList_textIn_attr]
      simpa [sign, nopIf_false] using hread
    · have hread := nextSegment_attr (grammar n) (attrSegment_access (grammar n) h hfirst hs hr nop)
      rw [hs.toList_textIn, toList_textIn_attr]
      simpa [sign, nopIf_false] using hread
  | @slot key first h hslot hfirst =>
    refine readsBack_bracketed (grammar n) (accessChars false key first) suffix (fun top => ?_) ?_
      (bracketBody_slot n h hslot hfirst hs hr)
    · rw [hs.toList_textIn, Segment.textIn, Filter.textOption, toList_bracketed]
      simp [accessChars]
    · obtain ⟨c, cs, hcs, hblank, hreserved⟩ := accessChars_eq_cons h false first
      refine ⟨c, cs ++ ']' :: (suffix ++ rest), by rw [hcs]; rfl, hblank, ?_⟩
      rintro rfl
      exact absurd (hreserved (by decide)) (by decide)
  | append unique =>
    refine readsBack_bracketed (grammar n) (if unique then "+?" else "+").toList suffix
      (fun top => ?_) ?_ (bracketBody_append (grammar n) unique hs hr)
    · rw [hs.toList_textIn, Segment.textIn, toList_bracketed]
      simp
    · cases unique
      · exact ⟨'+', _, rfl, by decide, by decide⟩
      · exact ⟨'+', _, rfl, by decide, by decide⟩
  | @slice r h =>
    -- a whole slice is written as empty brackets, another one with its bounds
    by_cases hfull : r = .full
    · subst hfull
      have hbody : BeginsBody (']' :: (suffix ++ rest)) := ⟨']', _, rfl, by decide, by decide⟩
      have hsegment := bracketSegment_body (grammar n) hbody (bracketBody_full (grammar n) hs hr) false
      refine ⟨?_, ?_⟩
      · have hread := firstKeySegment_bracket (grammar n) hsegment nop
        rw [hs.toList_textIn, Segment.textIn]
        simpa [sign, nopIf_false] using hread
      · have hread := nextSegment_bracket (grammar n) hsegment nop
        rw [hs.toList_textIn, Segment.textIn]
        simpa [sign, nopIf_false] using hread
    · refine readsBack_bracketed (grammar n) r.text.toList suffix (fun top => ?_) ?_
        (bracketBody_slice (grammar n) h hs hr)
      · rw [hs.toList_textIn, Segment.textIn, if_neg (by simpa using hfull), toList_bracketed]
        simp
      · obtain ⟨c, cs, hcs, hblank, -, hmark, -⟩ := sliceText_eq_cons r (']' :: (suffix ++ rest))
        exact ⟨c, cs, hcs, hblank, hmark⟩

/-- A segment without a mark is read back, marked or not. -/
theorem Segment.Body.readsBack (n : Nat) {s : Segment} (h : s.Body) {rest : List Char}
    (hr : EndsSegment rest) (nop : Bool) : ReadsBack (grammar n) s nop rest := by
  cases h with
  | part h hs => exact h.readsBack n hs hr nop
  | @recursive key d first h hd =>
    have hkey := keySegment_recursive (grammar n) h first hd hr
    refine ⟨?_, ?_⟩
    · have hread := firstKeySegment_key (grammar n) (beginsKey_star _) hkey nop
      rw [toList_textIn_recursive]
      simpa [sign] using hread
    · have hread := nextSegment_key (grammar n) (beginsKey_star _) hkey nop
      rw [toList_textIn_recursive]
      simpa [sign] using hread

/-- What the text of a segment begins with: inside of a path a character that ends the segment
before, and no bar in any case. -/
theorem Segment.Body.exists_cons {s : Segment} (h : s.Body) (top nop : Bool) :
    ∃ c cs, (s.textIn top nop).toList = c :: cs ∧ (top = false → c ∈ segmentStarts) ∧ c ≠ '|' := by
  have hkeyed {cs : List Char} (hcs : BeginsKey cs) : ∃ d ds,
      (sign "." (!top)).toList ++ ((sign "~" nop).toList ++ cs) = d :: ds ∧
        (top = false → d ∈ segmentStarts) ∧ d ≠ '|' := by
    cases top with
    | false => exact ⟨'.', _, rfl, fun _ => by decide, by decide⟩
    | true =>
      cases nop with
      | true => exact ⟨'~', _, rfl, nofun, by decide⟩
      | false =>
        obtain ⟨d, ds, rfl⟩ : ∃ d ds, cs = d :: ds := List.exists_cons_of_ne_nil fun hnil =>
          hcs.1 (by rw [hnil]; rfl)
        exact ⟨d, ds, rfl, nofun, fun hd => hcs.head?_ne (c := '|') (by decide) (by rw [hd]; rfl)⟩
  cases h with
  | @recursive key d first h hd =>
    rw [toList_textIn_recursive]
    exact hkeyed (beginsKey_star _)
  | @part s _ suffix h hs =>
    rw [hs.toList_textIn]
    cases h with
    | @key key first h hfirst =>
      rw [toList_textIn_key]
      have hbegins := beginsKey_accessChars h true first suffix
      simpa using hkeyed hbegins
    | @attr key first h hfirst =>
      rw [toList_textIn_attr]
      cases top <;> cases nop <;> exact ⟨_, _, rfl, by decide, by decide⟩
    | @slot key first h hslot hfirst =>
      rw [Segment.textIn, toList_bracketed]
      exact ⟨'[', _, rfl, fun _ => by decide, by decide⟩
    | append unique =>
      rw [Segment.textIn, toList_bracketed]
      exact ⟨'[', _, rfl, fun _ => by decide, by decide⟩
    | @slice r h =>
      rw [Segment.textIn]
      split
      · cases nop <;> exact ⟨_, _, rfl, fun _ => by decide, by decide⟩
      · rw [toList_bracketed]
        exact ⟨'[', _, rfl, fun _ => by decide, by decide⟩

/-- A segment whose text is read back, wherever it stands in a path. -/
inductive Segment.Plain : Segment → Prop where
  | body {s : Segment} (h : s.Body) : Plain s
  | nop {s : Segment} (h : s.Body) : Plain (.nop s)

namespace Segment

/-- A segment without a mark is marked as such. -/
theorem Body.asNop_eq {s : Segment} (h : s.Body) : asNop s = .nop s := by
  cases h with
  | recursive h hd => rfl
  | part h hs =>
    cases hs with
    | restriction hr => rfl
    | none => cases h <;> rfl

namespace Plain

variable {s : Segment} {rest : List Char}

/-- **At the start of a path a plain segment is read back.** -/
theorem read_first (n : Nat) (h : s.Plain) (hr : EndsSegment rest) :
    (grammar n).firstKeySegment .top ((s.textIn true false).toList ++ rest) = .ok (s, rest) := by
  cases h with
  | body h => exact (h.readsBack n hr false).first
  | nop h =>
    have hread := (h.readsBack n hr true).first
    rw [nopIf, if_pos rfl, h.asNop_eq] at hread
    rw [Segment.textIn]
    exact hread

/-- **Inside of a path a plain segment is read back.** -/
theorem read_next (n : Nat) (h : s.Plain) (hr : EndsSegment rest) :
    (grammar n).nextSegment .top ((s.textIn false false).toList ++ rest) = .ok (some s, rest) := by
  cases h with
  | body h => exact (h.readsBack n hr false).next
  | nop h =>
    have hread := (h.readsBack n hr true).next
    rw [nopIf, if_pos rfl, h.asNop_eq] at hread
    rw [Segment.textIn]
    exact hread

theorem exists_cons (h : s.Plain) (top : Bool) : ∃ c cs, (s.textIn top false).toList = c :: cs ∧
    (top = false → c ∈ segmentStarts) ∧ c ≠ '|' := by
  cases h with
  | body h => exact h.exists_cons top false
  | nop h =>
    rw [Segment.textIn]
    exact h.exists_cons top true

theorem ne_invert (h : s.Plain) : s ≠ .invert := by
  rintro rfl
  cases h with
  | body h =>
    cases h with
    | part h hs =>
      cases hs
      cases h

end Plain

end Segment

/-! ### Paths -/

theorem toList_textsIn_cons {s : Segment} (h : s.Plain) (top : Bool) (segs : List Segment) :
    (Segment.textsIn top (s :: segs)).toList =
      (s.textIn top false).toList ++ (Segment.textsIn false segs).toList := by
  rw [Segment.textsIn, Bool.and_false, String.toList_append]
  exact h.ne_invert

theorem endsSegment_textsIn {segs : List Segment} (h : ∀ s ∈ segs, s.Plain) {rest : List Char}
    (hr : EndsSegment rest) : EndsSegment ((Segment.textsIn false segs).toList ++ rest) := by
  cases segs with
  | nil => exact hr
  | cons s segs =>
    have hs := h s (List.mem_cons_self ..)
    obtain ⟨c, cs, hcs, hc, -⟩ := hs.exists_cons false
    rw [toList_textsIn_cons hs, hcs]
    exact endsSegment_cons (hc rfl) _

/-- Inside of a path the segments are read one after the other, up to the end of the path. -/
theorem reads_plain (n : Nat) {segs : List Segment} (h : ∀ s ∈ segs, s.Plain) {rest : List Char}
    (hr : EndsSegment rest) (hend : endsAt .top rest = true) :
    Reads ((grammar n).nextSegment .top) ((Segment.textsIn false segs).toList ++ rest) segs rest := by
  induction segs with
  | nil =>
    refine .done ?_
    show (grammar n).nextSegment .top rest = _
    rw [Grammar.nextSegment, run_bind_of_ok (run_get _), if_pos hend]
    rfl
  | cons s segs ih =>
    obtain ⟨hs, hmore⟩ := List.forall_mem_cons.mp h
    rw [toList_textsIn_cons hs, List.append_assoc]
    exact .step (hs.read_next n (endsSegment_textsIn hmore hr)) (ih hmore)

theorem length_le_length_textsIn {segs : List Segment} (h : ∀ s ∈ segs, s.Plain) :
    segs.length ≤ (Segment.textsIn false segs).toList.length := by
  induction segs with
  | nil => exact Nat.zero_le _
  | cons s segs ih =>
    have hmore := ih fun s hs => h s (List.mem_cons_of_mem _ hs)
    have hs := h s (List.mem_cons_self ..)
    obtain ⟨c, cs, hcs, -⟩ := hs.exists_cons false
    rw [toList_textsIn_cons hs, hcs, List.length_append, List.length_cons, List.length_cons]
    omega

/-- A path of plain segments is read back, up to where it ends. -/
theorem topSegments_pathText (n : Nat) {segs : List Segment} (hne : segs ≠ [])
    (h : ∀ s ∈ segs, s.Plain) {rest : List Char} (hr : EndsSegment rest)
    (hend : endsAt .top rest = true) :
    topSegments (grammar n) ((pathText segs).toList ++ rest) = .ok (segs, rest) := by
  obtain ⟨s, segs, rfl⟩ := List.exists_cons_of_ne_nil hne
  obtain ⟨hs, hmore⟩ := List.forall_mem_cons.mp h
  have hlength := length_le_length_textsIn hmore
  have hpath : (grammar n).pathFrom .top .key ((pathText (s :: segs)).toList ++ rest) =
      .ok (s :: segs, rest) := by
    rw [pathText, toList_textsIn_cons hs, List.append_assoc, Grammar.pathFrom]
    show ((grammar n).firstKeySegment .top >>= _) _ = _
    rw [run_bind_of_ok (hs.read_first n (endsSegment_textsIn hmore hr)),
      run_bind_of_ok (many_of_reads (reads_plain n hmore hr hend) (by
        rw [List.length_append]
        omega))]
    rfl
  have htop : topPath (grammar n) ((pathText (s :: segs)).toList ++ rest) = .ok (s :: segs, rest) := by
    rw [topPath, run_bind_of_ok hpath, run_bind_of_ok (run_get _), if_pos hend]
    rfl
  rw [topSegments, htop]

theorem exists_cons_pathText {segs : List Segment} (hne : segs ≠ []) (h : ∀ s ∈ segs, s.Plain) :
    ∃ c cs, (pathText segs).toList = c :: cs ∧ c ≠ '|' := by
  obtain ⟨s, segs, rfl⟩ := List.exists_cons_of_ne_nil hne
  have hs := h s (List.mem_cons_self ..)
  obtain ⟨c, cs, hcs, -, hbar⟩ := hs.exists_cons true
  refine ⟨c, cs ++ (Segment.textsIn false segs).toList, ?_, hbar⟩
  rw [pathText, toList_textsIn_cons hs, hcs]
  rfl

/-- An expression whose canonical text is read back: the value itself, or plain segments, behind an
invert marker or not, and readable transforms.  Without the marker the text must not begin with a
minus sign. -/
inductive PathExpression.Plain : PathExpression → Prop where
  | root {calls : List TransformCall} (hcalls : ∀ c ∈ calls, c.Readable) : Plain ⟨[.root], calls⟩
  | path {segs : List Segment} {calls : List TransformCall} (hne : segs ≠ [])
    (h : ∀ s ∈ segs, s.Plain) (hsign : (pathText segs).toList.head? ≠ some '-')
    (hcalls : ∀ c ∈ calls, c.Readable) : Plain ⟨segs, calls⟩
  | inverted {segs : List Segment} {calls : List TransformCall} (hne : segs ≠ [])
    (h : ∀ s ∈ segs, s.Plain) (hcalls : ∀ c ∈ calls, c.Readable) : Plain ⟨.invert :: segs, calls⟩

theorem endsAt_chainText (calls : List TransformCall) : endsAt .top (chainText calls).toList = true := by
  cases calls with
  | nil => rfl
  | cons c calls =>
    rw [toList_chainText_cons]
    rfl

/-- What is left to read behind the segments are the transforms. -/
theorem parseChars_of_chainText {cs : List Char} {segs : List Segment}
    {calls : List TransformCall} (hcalls : ∀ c ∈ calls, c.Readable) (hcs : cs ≠ [])
    (h : expressionSegments (grammar cs.length) cs = .ok (segs, (chainText calls).toList)) :
    PathExpression.parseChars cs = .ok ⟨segs, calls⟩ := by
  rw [PathExpression.parseChars, if_neg (by simpa using hcs), Parse.expression, run_bind_of_ok h,
    run_bind_of_ok (transforms_chainText hcalls)]
  rfl

theorem parseChars_of_expressionSegments {cs : List Char} {segs : List Segment} (hcs : cs ≠ [])
    (h : expressionSegments (grammar cs.length) cs = .ok (segs, [])) :
    PathExpression.parseChars cs = .ok ⟨segs, []⟩ :=
  parseChars_of_chainText (List.forall_mem_nil _) hcs h

/-- Before transforms alone the value itself is read. -/
theorem expressionSegments_chainText (g : Grammar) (c : TransformCall) (calls : List TransformCall) :
    expressionSegments g (chainText (c :: calls)).toList =
      .ok ([.root], (chainText (c :: calls)).toList) := by
  rw [toList_chainText_cons, expressionSegments, run_bind_of_ok (run_peek _)]
  rfl

/-- Plain segments are read back, if their text does not begin with a minus sign. -/
theorem expressionSegments_pathText (n : Nat) {segs : List Segment} (hne : segs ≠ [])
    (h : ∀ s ∈ segs, s.Plain) (hsign : (pathText segs).toList.head? ≠ some '-') {rest : List Char}
    (hr : EndsSegment rest) (hend : endsAt .top rest = true) :
    expressionSegments (grammar n) ((pathText segs).toList ++ rest) = .ok (segs, rest) := by
  have hread := topSegments_pathText n hne h hr hend
  obtain ⟨c, cs, hcs, hbar⟩ := exists_cons_pathText hne h
  rw [hcs, List.cons_append] at hread ⊢
  have hminus : (c :: (cs ++ rest)).head? ≠ some '-' := by
    rw [hcs] at hsign
    exact hsign
  rw [expressionSegments, run_bind_of_ok (run_peek _), if_neg (by simpa using hbar),
    run_bind_of_ok (eat_of_head?_ne hminus), if_neg Bool.false_ne_true, hread]

/-- Behind a minus sign plain segments are read back as inverted. -/
theorem expressionSegments_invert (n : Nat) {segs : List Segment} (hne : segs ≠ [])
    (h : ∀ s ∈ segs, s.Plain) {rest : List Char} (hr : EndsSegment rest)
    (hend : endsAt .top rest = true) :
    expressionSegments (grammar n) ('-' :: ((pathText segs).toList ++ rest)) =
      .ok (.invert :: segs, rest) := by
  rw [expressionSegments, run_bind_of_ok (run_peek _), if_neg (by simp),
    run_bind_of_ok (eat_cons_self '-' _), if_pos rfl,
    run_bind_of_ok (topSegments_pathText n hne h hr hend)]
  rfl

/-- **A plain path is read back from its canonical text.** -/
theorem PathExpression.parse_text {e : PathExpression} (h : e.Plain) :
    PathExpression.parse e.text = .ok e := by
  rw [PathExpression.parse, PathExpression.text, String.toList_append]
  cases h with
  | @root calls hcalls =>
    cases calls with
    | nil => rfl
    | cons c calls =>
      refine parseChars_of_chainText hcalls ?_ (expressionSegments_chainText _ c calls)
      rw [toList_chainText_cons]
      exact List.cons_ne_nil _ _
  | @path segs calls hne h hsign hcalls =>
    obtain ⟨c, cs, hcs, -⟩ := exists_cons_pathText hne h
    refine parseChars_of_chainText hcalls ?_ (expressionSegments_pathText _ hne h hsign
      (endsSegment_chainText hcalls) (endsAt_chainText calls))
    rw [hcs]
    exact List.cons_ne_nil _ _
  | @inverted segs calls hne h hcalls =>
    have hcons : (pathText (.invert :: segs)).toList = '-' :: (pathText segs).toList := by
      rw [pathText, Segment.textsIn, String.toList_append]
      rfl
    rw [hcons]
    exact parseChars_of_chainText hcalls (List.cons_ne_nil _ _)
      (expressionSegments_invert _ hne h (endsSegment_chainText hcalls) (endsAt_chainText calls))

/-- Plain segments are read back from their text, if it does not begin with a minus sign. -/
theorem PathExpression.parse_pathText {segs : List Segment} (hne : segs ≠ []) (h : ∀ s ∈ segs, s.Plain)
    (hsign : (pathText segs).toList.head? ≠ some '-') :
    PathExpression.parse (pathText segs) = .ok ⟨segs, []⟩ := by
  have htext : PathExpression.text ⟨segs, []⟩ = pathText segs := String.append_empty
  rw [← htext]
  exact parse_text (.path hne h hsign (List.forall_mem_nil _))

end DottedPath

/-!
### Dotted paths

A location that goes through text keys only is written as their tokens with points between them.  If
the keys are plain, that text is read as a path of just these keys.
-/

namespace DottedPath

/-- The segment that selects a text key. -/
def keySegment (key : String) : Segment :=
  .literal .key (.str key)

/-- The location that goes through text keys. -/
def keyLocation (keys : List String) : Location :=
  keys.map fun key => .key (.str key)

/-- The segment of a plain key is read back wherever it stands in a path. -/
theorem PlainKey.plain_keySegment {key : String} (h : PlainKey key) : (keySegment key).Plain :=
  .body (.part (.key (.literal (.text h.readable)) (by rintro ⟨⟩)) .none)

/-- The token of a plain key does not begin with a minus sign: nor does the key, and a quote is
none. -/
theorem PlainKey.keyToken_no_minus {key : String} (h : PlainKey key) :
    (Parse.keyToken key).head? ≠ some '-' := by
  obtain ⟨c, cs, hcs, -, -, hc⟩ := h.readable.exists_cons
  rw [hcs]
  rintro ⟨⟩
  rcases hc with hc | ⟨hc, -⟩
  · exact absurd hc (by decide)
  · exact h.no_minus hc

theorem head?_pathText_keys {key : String} (h : PlainKey key) (keys : List String) :
    (pathText ((key :: keys).map keySegment)).toList.head? = (Parse.keyToken key).head? := by
  obtain ⟨c, cs, hcs, -⟩ := h.readable.exists_cons
  have hfirst : ((keySegment key).textIn true false).toList = Parse.keyToken key := by
    rw [keySegment, Segment.literal, Segment.textIn, Filter.textOption, accessText, KeyPattern.text,
      KeyPattern.isPattern]
    simp [sign, Parse.keyToken, Literal.normalize]
  rw [List.map_cons, pathText, toList_textsIn_cons h.plain_keySegment, hfirst, hcs]
  rfl

/-- **A path of plain keys is read back from its text.** -/
theorem PathExpression.parse_pathText_keys {keys : List String} (hne : keys ≠ [])
    (h : ∀ key ∈ keys, PlainKey key) :
    PathExpression.parse (pathText (keys.map keySegment)) = .ok ⟨keys.map keySegment, []⟩ := by
  refine PathExpression.parse_pathText (by simpa using hne) (fun s hs => ?_) ?_
  · obtain ⟨key, hkey, rfl⟩ := List.mem_map.mp hs
    exact (h key hkey).plain_keySegment
  · obtain ⟨key, keys, rfl⟩ := List.exists_cons_of_ne_nil hne
    have hkey := h key (List.mem_cons_self ..)
    rw [head?_pathText_keys hkey]
    exact hkey.keyToken_no_minus

end DottedPath

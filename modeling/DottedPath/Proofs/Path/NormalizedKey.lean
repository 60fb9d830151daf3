import DottedPath.Proofs.Path.PathText
import DottedPath.Proofs.Path.NumberToken

/-!
# Normalized keys, read back

Behind a point the normalized token of a key is read as one key.  It is the key again for integers
and truth values, and for the texts that `LegibleText` describes; for all others it is not.  The
texts that are not read back are those that are not quoted though they hold a quote, a backslash, or
a blank other than a space, a tab or a line end, and the number tokens with an exponent or a marked
base.

## Main statements

- `readsBack_int`, `readsBack_bool`: integers and truth values are read back.
- `readsBack_str_iff`: which texts are read back.
-/

namespace DottedPath

namespace Parse

/-! ### How much a text takes -/

/-- A quoted text is shorter than what it is read from. -/
theorem length_quotedFrom {quote : Char} {taken cs text rest : List Char}
    (h : quotedFrom quote taken cs = some (text, rest)) :
    text.length + rest.length < taken.length + cs.length := by
  induction taken, cs using quotedFrom.induct quote with
  | case1 taken => cases h
  | case2 taken => cases h
  | case3 taken c cs d ih =>
    rw [quotedFrom] at h
    have hlt := ih h
    simp only [List.length_cons] at hlt ⊢
    omega
  | case4 taken c cs hc₁ hc₂ hquote =>
    rw [quotedFrom, if_pos hquote] at h
    · cases h
      simp
    · exact hc₁
    · exact hc₂
  | case5 taken c cs hc₁ hc₂ hquote ih =>
    rw [quotedFrom, if_neg hquote] at h
    · have hlt := ih h
      simp only [List.length_cons] at hlt ⊢
      omega
    · exact hc₁
    · exact hc₂

theorem length_quotedText {cs rest : List Char} {text : String}
    (h : quotedText cs = .ok (text, rest)) : text.toList.length < cs.length := by
  rw [quotedText, run_bind_of_ok (run_get _)] at h
  cases cs with
  | nil => cases h
  | cons q cs =>
    dsimp only at h
    split at h
    · cases hq : quotedFrom q [] cs with
      | none =>
        rw [hq] at h
        cases h
      | some p =>
        rw [hq] at h
        have hlt := length_quotedFrom hq
        cases h
        rw [String.toList_ofList, List.length_cons]
        simp only [List.length_nil] at hlt
        omega
    · cases h

theorem ne_backslash {c : Char} {cs : List Char} (hlast : c = '\\' → cs = [] → False)
    (hmore : ∀ d ds, c = '\\' → cs = d :: ds → False) : c ≠ '\\' := by
  rintro rfl
  cases cs with
  | nil => exact hlast rfl rfl
  | cons d ds => exact hmore d ds rfl rfl

/-- A word takes its characters, and more for each that is escaped.  If it takes no more, none is
escaped. -/
theorem length_wordFrom {numeric : Bool} {taken cs w rest : List Char} {escaped e : Bool}
    (h : wordFrom numeric taken escaped cs = .ok ((w, e), rest)) :
    w.length + rest.length ≤ taken.length + cs.length ∧
      (w.length = taken.length + cs.length →
        e = escaped ∧ ∀ c ∈ cs, (isWordChar c = true ∨ c = '+') ∧ c ≠ '\\') := by
  induction taken, escaped, cs using wordFrom.induct numeric with
  | case1 taken escaped =>
    cases h
    exact ⟨by simp, fun _ => ⟨rfl, nofun⟩⟩
  | case2 taken escaped => cases h
  -- an escape takes two characters for one, so the count cannot be reached any more
  | case3 taken escaped c cs ih =>
    rw [wordFrom] at h
    have hle := (ih h).1
    simp only [List.length_cons] at hle ⊢
    exact ⟨by omega, fun heq => by omega⟩
  | case4 taken escaped c cs hc₁ hc₂ hword ih =>
    rw [wordFrom, if_pos hword] at h
    · obtain ⟨hle, heq⟩ := ih h
      simp only [List.length_cons] at hle heq ⊢
      refine ⟨by omega, fun hlength => ?_⟩
      obtain ⟨he, hall⟩ := heq (by omega)
      exact ⟨he, List.forall_mem_cons.mpr ⟨⟨.inl hword, ne_backslash hc₁ hc₂⟩, hall⟩⟩
    · exact hc₁
    · exact hc₂
  | case5 taken escaped c cs hc₁ hc₂ hword hplus ih =>
    rw [wordFrom, if_neg hword, if_pos hplus] at h
    · obtain ⟨hle, heq⟩ := ih h
      simp only [List.length_cons] at hle heq ⊢
      refine ⟨by omega, fun hlength => ?_⟩
      obtain ⟨he, hall⟩ := heq (by omega)
      simp only [Bool.and_eq_true, beq_iff_eq] at hplus
      exact ⟨he, List.forall_mem_cons.mpr ⟨⟨.inr hplus.1.1.2, ne_backslash hc₁ hc₂⟩, hall⟩⟩
    · exact hc₁
    · exact hc₂
  | case6 taken escaped c cs hc₁ hc₂ hword hplus =>
    rw [wordFrom, if_neg hword, if_neg hplus] at h
    · cases h
      simp only [List.length_reverse, List.length_cons]
      exact ⟨by omega, fun hlength => by omega⟩
    · exact hc₁
    · exact hc₂

/-! ### Literals that are texts -/

theorem run_bytesAhead (cs : List Char) :
    bytesAhead cs = .ok (cs.head? == some 'b' && cs[1]?.any isQuote, cs) := rfl

theorem run_numberAhead (cs : List Char) :
    numberAhead cs = .ok (cs.head? == some '#' && cs[1]?.any isQuote, cs) := rfl

theorem wordLiteral_eq_str {w : List Char} {escaped : Bool} {text : String}
    (h : wordLiteral w escaped = .str text) : w = text.toList := by
  unfold wordLiteral at h
  split at h
  · next l hread =>
    split at hread
    · exact absurd (h ▸ hread) (Number.read?_ne_str w text)
    · cases hread
  · cases h
    exact String.toList_ofList.symm

/-- **A text that is read as itself is a word**, in which an exponent may have its sign. -/
theorem chars_of_keyLiteral {key : String} {rest : List Char}
    (h : keyLiteral key.toList = .ok (.str key, rest)) :
    wordLiteral key.toList false = .str key ∧
      ∀ c ∈ key.toList, (isWordChar c = true ∨ c = '+') ∧ c ≠ '\\' := by
  rw [keyLiteral, run_bind_of_ok (run_quoteAt _ _)] at h
  -- a quoted text is shorter than what is read, bytes and numbers are no text: it is a word
  split at h
  · obtain ⟨text, mid, hquoted, hpure⟩ := bind_eq_ok h
    cases hpure
    exact absurd (length_quotedText hquoted) (Nat.lt_irrefl _)
  rw [run_bind_of_ok (run_bytesAhead _)] at h
  split at h
  · obtain ⟨bytes, mid, -, hpure⟩ := bind_eq_ok h
    cases hpure
  rw [run_bind_of_ok (run_numberAhead _)] at h
  split at h
  · rw [run_bind_of_ok (run_skip 1 _), run_bind_of_ok (run_get _)] at h
    obtain ⟨raw, mid, -, hnumber⟩ := bind_eq_ok h
    cases hread : Number.read? raw.toList with
    | none =>
      rw [hread] at hnumber
      cases hnumber
    | some l =>
      rw [hread] at hnumber
      cases hnumber
      exact absurd hread (Number.read?_ne_str _ _)
  · obtain ⟨⟨w, e⟩, mid, hword, hpure⟩ := bind_eq_ok h
    have hliteral : wordLiteral w e = .str key := by
      injection hpure with hpure
      exact congrArg Prod.fst hpure
    have hw := wordLiteral_eq_str hliteral
    subst hw
    rw [word, run_bind_of_ok (run_get _)] at hword
    obtain ⟨⟨w', e'⟩, mid', hfrom, hpure'⟩ := bind_eq_ok hword
    dsimp only at hpure'
    split at hpure'
    · cases hpure'
    · cases hpure'
      obtain ⟨rfl, hchars⟩ := (length_wordFrom hfrom).2 (by simp)
      exact ⟨hliteral, hchars⟩

/-! ### A key behind a point -/

theorem beginsKey_of_cons {c : Char} {cs : List Char} (hc : isReserved c = false) :
    BeginsKey (c :: cs) := by
  refine ⟨by rintro ⟨⟩, fun d hd _ _ => ?_⟩
  rintro ⟨⟩
  rw [hc] at hd
  cases hd

theorem head?_ne_of_cons {c d : Char} {cs : List Char} (hc : isReserved c = false)
    (hd : isReserved d = true) : (c :: cs).head? ≠ some d := by
  rintro ⟨⟩
  rw [hc] at hd
  cases hd

/-- A literal up to the end of the text is a key. -/
theorem keySegment_of_keyLiteral (g : Grammar) {c : Char} {cs : List Char} {l : Literal}
    (hc : isReserved c = false) (h : keyLiteral (c :: cs) = .ok (l, [])) :
    g.keySegment .top (c :: cs) = .ok (.literal .key l, []) := by
  have hpattern : keyPattern (c :: cs) = .ok ((.literal l, false), []) := by
    rw [keyPattern_of_head? (head?_ne_of_cons hc (by decide)) (head?_ne_of_cons hc (by decide)),
      run_bind_of_ok h]
    rfl
  have haccess : g.access .top .key (c :: cs) = .ok (.literal .key l, []) := by
    rw [Grammar.access, run_bind_of_ok hpattern]
    rfl
  have hstar : ((c :: cs).head? == some '*') = false :=
    beq_eq_false_iff_ne.mpr (head?_ne_of_cons hc (by decide))
  rw [Grammar.keySegment, run_bind_of_ok (run_peek _), hstar]
  show (g.access .top .key >>= suffixes .top) _ = _
  rw [run_bind_of_ok haccess, suffixes_of_endsSegment _ endsSegment_nil]

/-- A guard that is read behind a segment stays with it. -/
theorem eq_of_guardTest {s : Segment} {accessor : Accessor} {key : KeyPattern} {first : Bool}
    {cs rest : List Char}
    (h : (do match ← guardTest with
      | some test => pure (.guard s test)
      | none => pure s : Parse Segment) cs = .ok (.access accessor key none first, rest)) :
    s = .access accessor key none first := by
  obtain ⟨test, mid, -, h⟩ := bind_eq_ok h
  cases test <;> cases h
  rfl

/-- What follows a segment does not make an access of it. -/
theorem eq_of_suffixes {s : Segment} {accessor : Accessor} {key : KeyPattern} {first : Bool}
    {cs rest : List Char} (h : suffixes .top s cs = .ok (.access accessor key none first, rest)) :
    s = .access accessor key none first := by
  rw [suffixes, if_neg (by decide)] at h
  obtain ⟨ahead, mid, -, h⟩ := bind_eq_ok h
  cases ahead with
  | false => exact eq_of_guardTest h
  | true =>
    rw [if_pos rfl] at h
    obtain ⟨-, mid', -, h⟩ := bind_eq_ok h
    obtain ⟨kinds, mid'', -, h⟩ := bind_eq_ok h
    cases eq_of_guardTest h

/-- A key that is read begins with its literal. -/
theorem exists_keyLiteral_of_keySegment (g : Grammar) {c : Char} {cs rest : List Char} {l : Literal}
    (hc : isReserved c = false) (h : g.keySegment .top (c :: cs) = .ok (.literal .key l, rest)) :
    ∃ mid, keyLiteral (c :: cs) = .ok (l, mid) := by
  have hstar : ((c :: cs).head? == some '*') = false :=
    beq_eq_false_iff_ne.mpr (head?_ne_of_cons hc (by decide))
  rw [Grammar.keySegment, run_bind_of_ok (run_peek _), hstar] at h
  obtain ⟨s, mid, haccess, hsuffixes⟩ :=
    bind_eq_ok (x := g.access .top .key) (f := suffixes .top) h
  cases eq_of_suffixes hsuffixes
  obtain ⟨⟨key, first⟩, mid', hpattern, haccess⟩ := bind_eq_ok haccess
  rw [keyPattern_of_head? (head?_ne_of_cons hc (by decide)) (head?_ne_of_cons hc (by decide))]
    at hpattern
  obtain ⟨l', mid'', hliteral, hpure⟩ := bind_eq_ok hpattern
  cases hpure
  dsimp only at haccess
  rw [if_neg (by decide)] at haccess
  obtain ⟨filter, mid, -, haccess⟩ := bind_eq_ok haccess
  cases filter with
  | none =>
    cases haccess
    exact ⟨_, hliteral⟩
  | some f =>
    obtain ⟨marked, mid', -, haccess⟩ := bind_eq_ok haccess
    cases haccess

/-- A text that begins with the key `x` and a point. -/
def behindX (cs : List Char) : List Char :=
  'x' :: '.' :: cs

theorem firstKeySegment_behindX (n : Nat) (cs : List Char) :
    (grammar n).firstKeySegment .top (behindX cs) = .ok (keySegment "x", '.' :: cs) := by
  have hplain : (keySegment "x").Plain := PlainKey.plain_keySegment (by decide)
  exact hplain.read_first n (endsSegment_cons (by decide) cs)

/-- **A literal behind a point, up to the end of the text, is the second key of the path.** -/
theorem parseChars_behindX {c : Char} {cs : List Char} {l : Literal} (hc : isReserved c = false)
    (h : keyLiteral (c :: cs) = .ok (l, [])) :
    PathExpression.parseChars (behindX (c :: cs)) =
      .ok ⟨[keySegment "x", .literal .key l], []⟩ := by
  have hreads (n : Nat) : Reads ((grammar n).nextSegment .top) ('.' :: c :: cs)
      [.literal .key l] [] :=
    .step (nextSegment_key (grammar n) (beginsKey_of_cons hc)
      (keySegment_of_keyLiteral (grammar n) hc h) false) (.done rfl)
  have hpath (n : Nat) : (grammar n).pathFrom .top .key (behindX (c :: cs)) =
      .ok ([keySegment "x", .literal .key l], []) := by
    rw [Grammar.pathFrom]
    show ((grammar n).firstKeySegment .top >>= _) _ = _
    rw [run_bind_of_ok (firstKeySegment_behindX n _),
      run_bind_of_ok (many_of_reads (hreads n) (by simp))]
    rfl
  have htop (n : Nat) : topSegments (grammar n) (behindX (c :: cs)) =
      .ok ([keySegment "x", .literal .key l], []) := by
    rw [topSegments, topPath, run_bind_of_ok (hpath n)]
    rfl
  refine parseChars_of_expressionSegments (List.cons_ne_nil _ _) ?_
  rw [expressionSegments, run_bind_of_ok (run_peek _), if_neg (by simp [behindX]),
    run_bind_of_ok (eat_of_head?_ne (by rintro ⟨⟩)), if_neg Bool.false_ne_true, htop]

/-- Behind a point a key is read. -/
theorem nextSegment_point (g : Grammar) {c : Char} {cs : List Char} (hc : isReserved c = false) :
    g.nextSegment .top ('.' :: c :: cs) =
      (do pure (some (← g.keySegment .top)) : Parse (Option Segment)) (c :: cs) := by
  have hmarks : takeWhile (· == '~') (c :: cs) = .ok ([], c :: cs) := by
    refine takeWhile_of_head? ?_
    rintro d ⟨⟩
    rw [beq_eq_false_iff_ne]
    rintro rfl
    exact absurd hc (by decide)
  have hopen : ¬((c :: cs).head? == some '(') = true := by
    have hne : (c :: cs).head? ≠ some '(' := head?_ne_of_cons hc (by decide)
    simpa using hne
  have hdotted : g.dottedSegment .top (c :: cs) = g.keySegment .top (c :: cs) := by
    rw [Grammar.dottedSegment, if_neg (by decide), run_bind_of_ok hmarks,
      run_bind_of_ok (run_peek _), if_neg hopen]
    show (g.keySegment .top >>= pure) _ = _
    rw [bind_pure]
  have hends : endsAt .top ('.' :: c :: cs) = false := rfl
  rw [Grammar.nextSegment, run_bind_of_ok (run_get _), hends, if_neg Bool.false_ne_true,
    run_bind_of_ok (run_peek _)]
  show (skip 1 >>= _) _ = _
  rw [run_bind_of_ok (run_skip 1 _), List.drop_one, List.tail_cons]
  show (g.dottedSegment .top (c :: cs) >>= _) = (g.keySegment .top (c :: cs) >>= _)
  rw [hdotted]

/-- A repetition that answers one thing has read it first. -/
theorem exists_item_of_many {α : Type} {item : Parse (Option α)} {cs rest : List Char} {x : α}
    (h : many item cs = .ok ([x], rest)) : ∃ mid, item cs = .ok (some x, mid) := by
  rw [many, run_bind_of_ok (run_get _), manyWithin] at h
  obtain ⟨answer, mid, hitem, h⟩ := bind_eq_ok h
  cases answer with
  | none => cases h
  | some y =>
    obtain ⟨ys, mid', -, h⟩ := bind_eq_ok h
    cases h
    exact ⟨mid, hitem⟩

/-- What an expression consists of was read as its segments. -/
theorem exists_topSegments_of_parseChars {c : Char} {cs : List Char} {e : PathExpression}
    (hbar : c ≠ '|') (hminus : c ≠ '-') (h : PathExpression.parseChars (c :: cs) = .ok e) :
    ∃ mid, topSegments (grammar (c :: cs).length) (c :: cs) = .ok (e.segments, mid) := by
  rw [PathExpression.parseChars, if_neg (by simp)] at h
  cases hexpression : expression (grammar (c :: cs).length) (c :: cs) with
  | error failure =>
    rw [hexpression] at h
    cases h
  | ok p =>
    obtain ⟨e', rest⟩ := p
    rw [hexpression] at h
    cases h
    obtain ⟨segs, mid, hsegments, hrest⟩ := bind_eq_ok hexpression
    obtain ⟨chain, mid', -, hrest⟩ := bind_eq_ok hrest
    obtain ⟨left, mid'', -, hrest⟩ := bind_eq_ok hrest
    split at hrest
    · cases hrest
      rw [expressionSegments, run_bind_of_ok (run_peek _), if_neg (by simpa using hbar),
        run_bind_of_ok (eat_of_head?_ne (by simpa using hminus)), if_neg Bool.false_ne_true]
        at hsegments
      exact ⟨mid, hsegments⟩
    · cases hrest

/-- **The second key of a path begins with its literal.** -/
theorem exists_keyLiteral_of_parseChars {c : Char} {cs : List Char} {l : Literal}
    (hc : isReserved c = false) (h : PathExpression.parseChars (behindX (c :: cs)) =
      .ok ⟨[keySegment "x", .literal .key l], []⟩) :
    ∃ mid, keyLiteral (c :: cs) = .ok (l, mid) := by
  obtain ⟨mid, htop⟩ := exists_topSegments_of_parseChars (by decide) (by decide) h
  rw [topSegments] at htop
  split at htop
  · next answer hpath =>
    cases htop
    obtain ⟨path, mid', hpath, hends⟩ := bind_eq_ok hpath
    obtain ⟨left, mid'', -, hends⟩ := bind_eq_ok hends
    split at hends
    · cases hends
      change ((grammar _).firstKeySegment .top >>= _) (behindX (c :: cs)) = _ at hpath
      rw [run_bind_of_ok (firstKeySegment_behindX _ _)] at hpath
      obtain ⟨segs, mid, hmany, hpure⟩ := bind_eq_ok hpath
      cases hpure
      obtain ⟨mid, hnext⟩ := exists_item_of_many hmany
      rw [nextSegment_point _ hc] at hnext
      obtain ⟨s, mid', hkey, hpure⟩ := bind_eq_ok hnext
      cases hpure
      exact exists_keyLiteral_of_keySegment _ hc hkey
    · cases hends
  · -- A group alone is one segment.
    split at htop <;> cases htop

end Parse

/-! ### Keys -/

/-- The key is read back from its normalized token: behind a point that is one key of a path, and
equal to it. -/
def ReadsBack (k : Scalar) : Prop :=
  ∃ x : Scalar, PathExpression.parse ("x." ++ k.normalize true) =
    .ok ⟨[keySegment "x", .literal .key (.scalar x)], []⟩ ∧ x.equals k = true

open Parse

/-- What is read to the end as a literal is read back. -/
theorem readsBack_of_keyLiteral {k x : Scalar} {c : Char} {cs : List Char}
    (htoken : (k.normalize true).toList = c :: cs) (hc : isReserved c = false)
    (h : keyLiteral (c :: cs) = .ok (.scalar x, [])) (heq : x.equals k = true) : ReadsBack k := by
  refine ⟨x, ?_, heq⟩
  have htext : ("x." ++ k.normalize true).toList = behindX (c :: cs) := by
    rw [String.toList_append, htoken]
    rfl
  rw [PathExpression.parse, htext]
  exact parseChars_behindX hc h

theorem readsBack_intText {k : Scalar} {i : Int} (htoken : k.normalize true = Decimal.intText i)
    (hi : Word.fits i = true) (heq : (Scalar.int i).equals k = true) : ReadsBack k := by
  obtain ⟨c, cs, hcs, hreserved, -⟩ := (isWord_intText i).exists_cons
  have hread := keyLiteral_intText hi endsWord_nil
  rw [List.append_nil, hcs] at hread
  exact readsBack_of_keyLiteral (by rw [htoken, hcs]) hreserved hread heq

/-- **An integer is read back.** -/
theorem readsBack_int {i : Int} (hi : Word.fits i = true) : ReadsBack (.int i) :=
  readsBack_intText rfl hi (by simp [Scalar.equals, Scalar.toInt?])

/-- **A truth value is read back** as the integer that it is equal to. -/
theorem readsBack_bool (b : Bool) : ReadsBack (.bool b) := by
  cases b with
  | false => exact readsBack_intText (i := 0) rfl (by decide) (by decide)
  | true => exact readsBack_intText (i := 1) rfl (by decide) (by decide)

/-- A text whose normalized token is read back: it is quoted, or it is a word and no number, unless
as a number it is out of range. -/
def LegibleText (key : String) : Prop :=
  looksLikeInteger key.toList = true ∨ needsQuotes key.toList = true ∨
    IsWord key.toList ∧ (Number.isToken key.toList = true → Number.read? key.toList = none)

instance (cs : List Char) : Decidable (IsWord cs) :=
  decidable_of_iff (cs ≠ [] ∧ (cs.all fun c => isWordChar c && c != '\\') = true)
    ⟨fun h => ⟨h.1, by simpa using h.2⟩, fun h => ⟨h.1, by simpa using h.2⟩⟩

instance : DecidablePred LegibleText := fun key =>
  inferInstanceAs (Decidable (_ ∨ _ ∨ IsWord key.toList ∧ (_ → _)))

theorem isToken_of_needsQuotes {cs : List Char} (h : needsQuotes cs = false)
    (hbegin : beginsNumeric cs = true) : Number.isToken cs = true := by
  have hne : ¬cs.isEmpty = true := by
    intro hempty
    rw [List.isEmpty_iff.mp hempty] at hbegin
    cases hbegin
  simpa [needsQuotes, hne, hbegin] using h

/-- What is not quoted and does not begin like a number has no character with a meaning of its
own. -/
theorem not_reserved_of_needsQuotes {cs : List Char} (h : needsQuotes cs = false)
    (hbegin : beginsNumeric cs = false) : ∀ c ∈ cs, isReserved c = false := by
  intro c hc
  have hne : ¬cs.isEmpty = true := by
    intro hempty
    rw [List.isEmpty_iff.mp hempty] at hc
    cases hc
  rw [needsQuotes, if_neg hne, if_neg (by rw [hbegin]; decide), List.any_eq_false] at h
  have hmarks := h c hc
  simp only [Bool.or_eq_true, not_or, Bool.not_eq_true] at hmarks
  exact hmarks.1.1.1.1

/-- What is not quoted begins with no character that has a meaning of its own. -/
theorem exists_cons_of_needsQuotes {cs : List Char} (h : needsQuotes cs = false) :
    ∃ c ds, cs = c :: ds ∧ isReserved c = false := by
  cases hbegin : beginsNumeric cs with
  | true =>
    unfold beginsNumeric at hbegin
    split at hbegin
    · exact ⟨_, _, rfl, by decide⟩
    · next c ds _ =>
      have hword := (isWordChar_of_isDigit hbegin).1
      simp only [isWordChar, Bool.and_eq_true, Bool.not_eq_true'] at hword
      exact ⟨c, ds, rfl, hword.1.1⟩
    · cases hbegin
  | false =>
    obtain ⟨c, ds, rfl⟩ : ∃ c ds, cs = c :: ds := by
      refine List.exists_cons_of_ne_nil ?_
      rintro rfl
      cases h
    exact ⟨c, ds, rfl, not_reserved_of_needsQuotes h hbegin c (List.mem_cons_self ..)⟩

/-- A number in a marked base has no plus sign. -/
theorem no_plus_of_markedBase? {cs : List Char} {base : Nat} (h : Number.markedBase? cs = some base)
    (hdigits : Number.isDigits base (cs.drop 2) = true) : '+' ∉ cs := by
  have hrest : '+' ∉ cs.drop 2 := by
    intro hmem
    simp only [Number.isDigits, Bool.and_eq_true, List.all_eq_true] at hdigits
    have hvalue : Decimal.digitValue? base '+' = none := rfl
    have hdigit := hdigits.2 '+' hmem
    rw [hvalue] at hdigit
    cases hdigit
  unfold Number.markedBase? at h
  split at h <;> cases h <;> simpa using hrest

/-- What is not quoted has a plus sign only in an exponent. -/
theorem isExponential_of_plus {cs : List Char} (h : needsQuotes cs = false) (hplus : '+' ∈ cs) :
    Number.isExponential (Number.unsigned cs) = true := by
  have hbegin : beginsNumeric cs = true := by
    by_contra hno
    have hreserved := not_reserved_of_needsQuotes h (Bool.not_eq_true _ ▸ hno) '+' hplus
    exact absurd hreserved (by decide)
  have hmem : '+' ∈ Number.unsigned cs := by
    rcases Number.eq_unsigned_or cs with hcs | hcs
    · rwa [← hcs]
    · rw [hcs] at hplus
      simpa using hplus
  have htoken := isToken_of_needsQuotes h hbegin
  rw [Number.isToken, Bool.or_eq_true, Bool.or_eq_true] at htoken
  rcases htoken with (hgrouped | hexponential) | hmarked
  · simp only [Number.isGrouped, Bool.and_eq_true, List.all_eq_true] at hgrouped
    exact absurd (hgrouped.1.2 '+' hmem) (by decide)
  · exact hexponential
  · split at hmarked
    · next base hbase => exact absurd hmem (no_plus_of_markedBase? hbase hmarked)
    · cases hmarked

theorem eq_str_of_equals {x : Scalar} {key : String} (h : x.equals (.str key) = true) :
    x = .str key := by
  cases x <;> simp_all [Scalar.equals, Scalar.toInt?, Scalar.toFloat?]

theorem normalize_of_quoted {key : String}
    (h : looksLikeInteger key.toList = true ∨ needsQuotes key.toList = true) :
    (Scalar.str key).normalize true = Text.quoted key := by
  rw [Scalar.normalize]
  split
  · rfl
  · next hinteger => rw [Scalar.quote, if_pos (h.resolve_left hinteger)]

theorem normalize_of_bare {key : String} (hinteger : looksLikeInteger key.toList = false)
    (hquotes : needsQuotes key.toList = false) : (Scalar.str key).normalize true = key := by
  rw [Scalar.normalize, hinteger, if_neg Bool.false_ne_true, Scalar.quote, hquotes,
    if_neg Bool.false_ne_true]

/-- A quoted text is read back, whatever it holds. -/
theorem readsBack_of_quoted {key : String}
    (h : looksLikeInteger key.toList = true ∨ needsQuotes key.toList = true) :
    ReadsBack (.str key) := by
  have htoken := normalize_of_quoted h
  have hreadable : Readable key := .inl (by rw [keyToken, htoken])
  have hread := keyLiteral_keyToken hreadable endsWord_nil
  rw [List.append_nil, keyToken, htoken, toList_quoted] at hread
  exact readsBack_of_keyLiteral (by rw [htoken, toList_quoted]) (by decide) hread
    (by simp [Scalar.equals])

/-- A word that is no number in range is read back. -/
theorem readsBack_of_isWord {key : String} (hinteger : looksLikeInteger key.toList = false)
    (hquotes : needsQuotes key.toList = false) (hword : IsWord key.toList)
    (htoken : Number.isToken key.toList = true → Number.read? key.toList = none) :
    ReadsBack (.str key) := by
  obtain ⟨c, cs, hcs, hreserved, -⟩ := hword.exists_cons
  have hliteral : wordLiteral key.toList false = .str key := by
    rw [wordLiteral]
    split
    · next l hread =>
      split at hread
      · next hnumber =>
        rw [htoken (by simpa using hnumber)] at hread
        cases hread
      · cases hread
    · rw [String.ofList_toList]
  have hread := keyLiteral_of_isWord hword endsWord_nil
  rw [List.append_nil, hliteral, hcs] at hread
  exact readsBack_of_keyLiteral (by rw [normalize_of_bare hinteger hquotes, hcs]) hreserved hread
    (by simp [Scalar.equals])

/-- **A text is read back if and only if it is legible.** -/
theorem readsBack_str_iff (key : String) : ReadsBack (.str key) ↔ LegibleText key := by
  by_cases hquoted : looksLikeInteger key.toList = true ∨ needsQuotes key.toList = true
  · exact iff_of_true (readsBack_of_quoted hquoted)
      (hquoted.elim .inl fun h => .inr (.inl h))
  rw [not_or, Bool.not_eq_true, Bool.not_eq_true] at hquoted
  obtain ⟨hinteger, hquotes⟩ := hquoted
  refine ⟨fun ⟨x, hparse, heq⟩ => ?_, fun hlegible => ?_⟩
  · cases eq_str_of_equals heq
    obtain ⟨c, cs, hcs, hreserved⟩ := exists_cons_of_needsQuotes hquotes
    have htext : ("x." ++ (Scalar.str key).normalize true).toList = behindX (c :: cs) := by
      rw [normalize_of_bare hinteger hquotes, String.toList_append, hcs]
      rfl
    rw [PathExpression.parse, htext] at hparse
    obtain ⟨mid, hread⟩ := exists_keyLiteral_of_parseChars hreserved hparse
    rw [← hcs] at hread
    obtain ⟨hliteral, hchars⟩ := chars_of_keyLiteral hread
    have hnumber : Number.isToken key.toList = true → Number.read? key.toList = none := by
      intro htoken
      cases hread : Number.read? key.toList with
      | none => rfl
      | some l =>
        rw [wordLiteral, htoken, if_pos (by decide), hread] at hliteral
        cases (show l = .str key from hliteral)
        exact absurd hread (Number.read?_ne_str _ _)
    refine .inr (.inr ⟨⟨by rw [hcs]; simp, fun c hc => ⟨?_, (hchars c hc).2⟩⟩, hnumber⟩)
    refine (hchars c hc).1.resolve_right ?_
    rintro rfl
    -- A plus sign stands in an exponent only, and such a number is read as one.
    have hexponential := isExponential_of_plus hquotes hc
    obtain ⟨l, hl⟩ := Number.exists_read?_of_isExponential hexponential
    rw [hnumber (by rw [Number.isToken, hexponential, Bool.or_true, Bool.true_or])] at hl
    cases hl
  · obtain ⟨hword, hnumber⟩ := (hlegible.resolve_left (by simp [hinteger])).resolve_left
      (by simp [hquotes])
    exact readsBack_of_isWord hinteger hquotes hword hnumber

/-- A quote inside ends the word, a backslash is taken as an escape, and a number in another base is
read as one; if it is out of range it is still a text. -/
example : ¬LegibleText "a'b" ∧ ¬LegibleText "a\\b" ∧ ¬LegibleText "0x1F" ∧
    LegibleText "0x1FFFFFFFFFFFFFFFF" := by decide

end DottedPath

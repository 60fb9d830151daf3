import DottedPath.Path.Parse.Expression
import DottedPath.Path.Print
import DottedPath.Proofs.Path.IntegerToken

/-!
# What accesses select, read back

The text of an access without a filter is the text of what it selects, and a first-match mark after a
pattern.  `keyPattern_accessText`: it is read back if its literal or its expression is
(`KeyPattern.Readable`) and what follows ends the access (`EndsAccess`).  Expressions that come from a
path always are (`TextRegex.readable_of_regex`).
-/

namespace DottedPath

/-! ### Regular expressions -/

/-- In the source a backslash always stands before a character that it escapes, and never before a
slash. -/
def IsEscaped : List Char → Prop
  | [] => True
  | '\\' :: [] => False
  | '\\' :: c :: cs => c ≠ '/' ∧ IsEscaped cs
  | _ :: cs => IsEscaped cs

/-- An expression whose text is read back. -/
structure TextRegex.Readable (re : TextRegex) : Prop where
  escaped : IsEscaped re.source.toList
  compiled : TextRegex.compile? re.source re.source = some re

namespace Parse

/-- The source of an expression between slashes. -/
def escapeSlash (c : Char) : List Char :=
  if c == '/' then ['\\', '/'] else [c]

theorem escapeSlash_of_ne {c : Char} (h : c ≠ '/') : escapeSlash c = [c] := by
  rw [escapeSlash, if_neg (by simpa using h)]

/-- The source is read up to the slash that closes it. -/
theorem regexFrom_escapeSlash (rest : List Char) : ∀ (cs taken : List Char), IsEscaped cs →
    regexFrom taken (cs.flatMap escapeSlash ++ '/' :: rest) = some (taken.reverse ++ cs, rest) := by
  intro cs
  induction cs using IsEscaped.induct with
  | case1 =>
    intro taken _
    rw [List.flatMap_nil, List.nil_append, List.append_nil, regexFrom, if_pos (by decide)]
    · rintro _ ⟨⟩
    · rintro _ _ ⟨⟩
    · rintro ⟨⟩
  | case2 =>
    intro taken h
    cases h
  | case3 c cs ih =>
    rintro taken ⟨hc, h⟩
    rw [List.flatMap_cons, List.flatMap_cons, escapeSlash_of_ne (by decide), escapeSlash_of_ne hc]
    show regexFrom taken ('\\' :: c :: (cs.flatMap escapeSlash ++ '/' :: rest)) = _
    rw [regexFrom, ih _ h]
    · simp
    · exact hc
  | case4 c cs hlast hnext ih =>
    intro taken h
    have hc : c ≠ '\\' := by
      rintro rfl
      cases cs with
      | nil => exact hlast rfl rfl
      | cons d ds => exact hnext d ds rfl rfl
    rw [IsEscaped] at h
    · rw [List.flatMap_cons, List.append_assoc]
      -- a slash is the only character that is written with a backslash of its own
      by_cases hs : c = '/'
      · subst hs
        show regexFrom taken ('\\' :: '/' :: (cs.flatMap escapeSlash ++ '/' :: rest)) = _
        rw [regexFrom, ih _ h]
        simp
      · rw [escapeSlash_of_ne hs]
        show regexFrom taken (c :: (cs.flatMap escapeSlash ++ '/' :: rest)) = _
        rw [regexFrom, if_neg (by simpa using hs), ih _ h]
        · simp
        · rintro _ rfl
          exact absurd rfl hc
        · rintro _ _ rfl
          exact absurd rfl hc
        · rintro rfl
          exact absurd rfl hc
    · exact hlast
    · exact hnext

theorem toList_regexText (re : TextRegex) :
    re.text.toList = '/' :: (re.source.toList.flatMap escapeSlash ++ ['/']) := by
  rw [TextRegex.text, String.toList_ofList]
  rfl

/-- An expression is read back from its text. -/
theorem regex_text {re : TextRegex} (h : re.Readable) (rest : List Char) :
    regex (re.text.toList ++ rest) = .ok (re, rest) := by
  have hread := regexFrom_escapeSlash rest re.source.toList [] h.escaped
  rw [toList_regexText, List.cons_append, List.append_assoc, List.singleton_append, regex,
    run_bind_of_ok (run_get _), run_bind_of_ok (expect_cons_self _ _), run_bind_of_ok (run_get _),
    hread]
  simp only [List.reverse_nil, List.nil_append, String.ofList_toList]
  rw [run_bind_of_ok (run_set _ _), h.compiled]
  rfl

/-- What is read up to a closing slash is escaped. -/
theorem isEscaped_of_regexFrom {cs source rest : List Char} {taken : List Char}
    (h : regexFrom taken cs = some (source, rest)) :
    ∃ body, source = taken.reverse ++ body ∧ IsEscaped body := by
  induction taken, cs using regexFrom.induct with
  | case1 taken => cases h
  | case2 taken cs ih =>
    obtain ⟨body, rfl, hbody⟩ := ih h
    exact ⟨'/' :: body, by simp, hbody⟩
  | case3 taken c cs hc ih =>
    rw [regexFrom] at h
    · obtain ⟨body, rfl, hbody⟩ := ih h
      exact ⟨'\\' :: c :: body, by simp, hc, hbody⟩
    · exact hc
  | case4 taken => cases h
  | case5 taken c cs hslash hnext hlast hc =>
    rw [regexFrom, if_pos hc] at h
    · cases h
      exact ⟨[], by simp, trivial⟩
    · exact hslash
    · exact hnext
    · exact hlast
  | case6 taken c cs hslash hnext hlast hc ih =>
    rw [regexFrom, if_neg hc] at h
    · obtain ⟨body, rfl, hbody⟩ := ih h
      refine ⟨c :: body, by simp, ?_⟩
      -- an escape or a backslash at the end would have been read by one of the cases before
      have hne : c ≠ '\\' := by
        rintro rfl
        cases cs with
        | nil => exact hlast rfl rfl
        | cons d ds => exact hnext d ds rfl rfl
      rw [IsEscaped]
      · exact hbody
      · exact fun hc _ => hne hc
      · exact fun _ _ hc _ => hne hc
    · exact hslash
    · exact hnext
    · exact hlast

/-- An expression that is read from a path is readable. -/
theorem readable_of_regex {cs rest : List Char} {re : TextRegex} (h : regex cs = .ok (re, rest)) :
    re.Readable := by
  obtain ⟨_, _, hget, h⟩ := bind_eq_ok h
  obtain ⟨_, mid, hslash, h⟩ := bind_eq_ok h
  obtain ⟨_, _, hget, h⟩ := bind_eq_ok h
  cases hget
  cases hsource : regexFrom [] mid with
  | none =>
    rw [hsource] at h
    cases h
  | some p =>
    obtain ⟨body, hbody, hescaped⟩ := isEscaped_of_regexFrom hsource
    rw [hsource] at h
    obtain ⟨_, _, hset, h⟩ := bind_eq_ok h
    cases hcompiled : TextRegex.compile? (String.ofList p.1) (String.ofList p.1) with
    | none =>
      simp only [hcompiled] at h
      cases h
    | some re' =>
      simp only [hcompiled] at h
      cases h
      have hsame : re.source = String.ofList p.1 := by
        obtain ⟨pattern, -, rfl⟩ := Option.map_eq_some_iff.mp hcompiled
        rfl
      refine ⟨?_, by rw [hsame, hcompiled]⟩
      rw [hsame, String.toList_ofList, hbody]
      exact hescaped

end Parse

/-! ### Key patterns -/

/-- A literal whose token is read back. -/
inductive Literal.Readable : Literal → Prop where
  | text {key : String} (h : Parse.Readable key) : Readable (.str key)
  | int {i : Int} (h : Word.fits i = true) : Readable (.int i)

/-- What an access selects is read back from its text. -/
inductive KeyPattern.Readable : KeyPattern → Prop where
  | literal {key : Literal} (h : key.Readable) : Readable (.literal key)
  | wildcard : Readable .wildcard
  | regex {re : TextRegex} (h : re.Readable) : Readable (.regex re)

namespace Parse

theorem toList_normalize_str (asKey : Bool) (key : String) :
    ((Literal.str key).normalize asKey).toList = keyToken key := by
  cases asKey <;> rfl

theorem normalize_int (asKey : Bool) (i : Int) :
    (Literal.int i).normalize asKey = Decimal.intText i := rfl

/-- A token of a literal begins with no blank and no character with a meaning of its own. -/
theorem token_eq_cons {key : Literal} (h : key.Readable) (asKey : Bool) :
    ∃ c cs, (key.normalize asKey).toList = c :: cs ∧ isReserved c = false ∧
      Text.isBlank c = false := by
  cases h with
  | text h =>
    obtain ⟨c, cs, hcs, hreserved, hblank, -⟩ := h.exists_cons
    exact ⟨c, cs, (toList_normalize_str ..).trans hcs, hreserved, hblank⟩
  | @int i h =>
    obtain ⟨c, cs, hcs, hreserved, hblank, -⟩ := (isWord_intText i).exists_cons
    exact ⟨c, cs, hcs, hreserved, hblank⟩

/-- A literal is read back from its token. -/
theorem keyLiteral_token {key : Literal} (h : key.Readable) (asKey : Bool) {rest : List Char}
    (hr : EndsWord rest) : keyLiteral ((key.normalize asKey).toList ++ rest) = .ok (key, rest) := by
  cases h with
  | text h => rw [toList_normalize_str, keyLiteral_keyToken h hr]
  | int h => rw [normalize_int, keyLiteral_intText h hr]

/-- What an access without a filter ends before: the next segment, a transform, a restriction or a
bracket. -/
def accessEnds : List Char :=
  ['.', '[', '@', '~', '|', ':', ']']

/-- An access without a filter ends here. -/
def EndsAccess (rest : List Char) : Prop :=
  ∀ c ∈ rest.head?, c ∈ accessEnds

theorem EndsAccess.head?_ne {rest : List Char} (h : EndsAccess rest) {c : Char}
    (hc : c ∉ accessEnds) : rest.head? ≠ some c :=
  fun hr => hc (h c hr)

theorem EndsAccess.endsWord {rest : List Char} (h : EndsAccess rest) : EndsWord rest := by
  intro c hc
  have hall : accessEnds.all
      (fun c => isWordChar c = false ∧ c ≠ '\\' ∧ isQuote c = false ∧ c ≠ '+') = true := by decide
  exact of_decide_eq_true (List.all_eq_true.mp hall c (h c hc))

theorem endsWord_mark (rest : List Char) : EndsWord ('?' :: rest) := by
  rintro c ⟨⟩
  decide

/-- The text of an access without a filter. -/
def accessChars (asKey : Bool) (key : KeyPattern) (first : Bool) : List Char :=
  (accessText asKey key none first).toList

theorem accessChars_literal (asKey : Bool) (key : Literal) (first : Bool) :
    accessChars asKey (.literal key) first = (key.normalize asKey).toList := by
  rw [accessChars, accessText, KeyPattern.isPattern, Bool.and_false, KeyPattern.text]
  simp [sign]

theorem accessChars_wildcard (asKey first : Bool) :
    accessChars asKey .wildcard first = '*' :: (sign "?" first).toList := by
  rw [accessChars, accessText, KeyPattern.isPattern, Bool.and_true, KeyPattern.text]
  · simp
  · rintro _ ⟨⟩

theorem accessChars_regex (asKey : Bool) (re : TextRegex) (first : Bool) :
    accessChars asKey (.regex re) first = re.text.toList ++ (sign "?" first).toList := by
  rw [accessChars, accessText, KeyPattern.isPattern, Bool.and_true, KeyPattern.text]
  · simp
  · rintro _ ⟨⟩

/-- What the text of an access begins with: not a blank, and of the characters with a meaning of
their own only an asterisk or a slash. -/
theorem accessChars_eq_cons {key : KeyPattern} (h : key.Readable) (asKey first : Bool) :
    ∃ c cs, accessChars asKey key first = c :: cs ∧ Text.isBlank c = false ∧
      (isReserved c = true → c = '*' ∨ c = '/') := by
  cases h with
  | literal h =>
    obtain ⟨c, cs, hcs, hreserved, hblank⟩ := token_eq_cons h asKey
    exact ⟨c, cs, (accessChars_literal ..).trans hcs, hblank, fun hr => by
      rw [hreserved] at hr
      cases hr⟩
  | wildcard => exact ⟨'*', _, accessChars_wildcard .., by decide, fun _ => .inl rfl⟩
  | @regex re h =>
    refine ⟨'/', re.source.toList.flatMap escapeSlash ++ ['/'] ++ (sign "?" first).toList,
      (accessChars_regex ..).trans ?_, by decide, fun _ => .inr rfl⟩
    rw [toList_regexText]
    rfl

/-- No other character with a meaning of its own begins the text of an access. -/
theorem head?_accessChars_ne {key : KeyPattern} (h : key.Readable) (asKey first : Bool)
    (rest : List Char) {c : Char} (hc : isReserved c = true) (hstar : c ≠ '*') (hslash : c ≠ '/') :
    (accessChars asKey key first ++ rest).head? ≠ some c := by
  obtain ⟨d, ds, hds, -, hd⟩ := accessChars_eq_cons h asKey first
  rw [hds]
  rintro ⟨⟩
  rcases hd hc with rfl | rfl
  · exact hstar rfl
  · exact hslash rfl

/-- Only a wildcard begins with an asterisk. -/
theorem head?_accessChars_ne_star {key : KeyPattern} (h : key.Readable) (hkey : key ≠ .wildcard)
    (asKey first : Bool) (rest : List Char) :
    (accessChars asKey key first ++ rest).head? ≠ some '*' := by
  cases h with
  | literal h =>
    obtain ⟨c, cs, hcs, hreserved, -⟩ := token_eq_cons h asKey
    rw [accessChars_literal, hcs]
    rintro ⟨⟩
    exact absurd hreserved (by decide)
  | wildcard => exact absurd rfl hkey
  | regex h =>
    rw [accessChars_regex, toList_regexText]
    rintro ⟨⟩

theorem skipBlanks_accessChars {key : KeyPattern} (h : key.Readable) (asKey first : Bool)
    (rest : List Char) :
    skipBlanks (accessChars asKey key first ++ rest) = .ok ((), accessChars asKey key first ++ rest) := by
  obtain ⟨c, cs, hcs, hblank, -⟩ := accessChars_eq_cons h asKey first
  refine skipBlanks_of_head? ?_
  rw [hcs]
  rintro d ⟨⟩
  exact hblank

/-- What begins neither a wildcard nor an expression selects by a literal. -/
theorem keyPattern_of_head? {cs : List Char} (hstar : cs.head? ≠ some '*')
    (hslash : cs.head? ≠ some '/') :
    keyPattern cs = (do pure (KeyPattern.literal (← keyLiteral), false) : Parse _) cs := by
  rw [keyPattern, run_bind_of_ok (run_peek _)]
  generalize cs.head? = o at *
  split
  · exact absurd rfl hstar
  · exact absurd rfl hslash
  · rfl

/-- A mark is read if it is written. -/
theorem eat_sign {mark : String} {c : Char} (hmark : mark.toList = [c]) (written : Bool)
    {rest : List Char} (hr : rest.head? ≠ some c) :
    eat c ((sign mark written).toList ++ rest) = .ok (written, rest) := by
  cases written with
  | false => exact eat_of_head?_ne hr
  | true =>
    show eat c (mark.toList ++ rest) = .ok (true, rest)
    rw [hmark]
    exact eat_cons_self c rest

/-- **What an access selects is read back from its text**, with the mark after it. -/
theorem keyPattern_accessText {key : KeyPattern} (h : key.Readable) {first : Bool}
    (hfirst : first = true → key.isPattern = true) (asKey : Bool) {rest : List Char}
    (hr : EndsAccess rest) :
    keyPattern (accessChars asKey key first ++ rest) = .ok ((key, first), rest) := by
  have hmark : rest.head? ≠ some '?' := hr.head?_ne (by decide)
  cases h with
  | @literal key h =>
    have hfalse : first = false := by
      cases first with
      | false => rfl
      | true => exact nomatch hfirst rfl
    obtain ⟨c, cs, hcs, hreserved, -⟩ := token_eq_cons h asKey
    have hhead (d : Char) (hd : isReserved d = true) :
        ((key.normalize asKey).toList ++ rest).head? ≠ some d := by
      rw [hcs]
      rintro ⟨⟩
      rw [hreserved] at hd
      cases hd
    rw [accessChars_literal, keyPattern_of_head? (hhead '*' (by decide)) (hhead '/' (by decide)),
      run_bind_of_ok (keyLiteral_token h asKey hr.endsWord), hfalse]
    rfl
  | wildcard =>
    rw [accessChars_wildcard, List.cons_append, keyPattern, run_bind_of_ok (run_peek _)]
    simp only [List.head?_cons]
    rw [run_bind_of_ok (run_skip 1 _), List.drop_one, List.tail_cons,
      run_bind_of_ok (eat_sign rfl first hmark)]
    rfl
  | @regex re h =>
    have hregex := regex_text h ((sign "?" first).toList ++ rest)
    have hhead : (re.text.toList ++ ((sign "?" first).toList ++ rest)).head? = some '/' := by
      rw [toList_regexText]
      rfl
    rw [accessChars_regex, List.append_assoc, keyPattern, run_bind_of_ok (run_peek _), hhead]
    show (regex >>= _) _ = _
    rw [run_bind_of_ok hregex, run_bind_of_ok (eat_sign rfl first hmark)]
    rfl

/-! ### Accesses -/

/-- No filter follows an access that ends. -/
theorem filterSuffix_of_endsAccess (g : Grammar) {rest : List Char} (hr : EndsAccess rest) :
    g.filterSuffix rest = .ok (none, rest) := by
  have hand : rest.head? ≠ some '&' := hr.head?_ne (by decide)
  rw [Grammar.filterSuffix, run_bind_of_ok (run_peek _), if_neg (by simpa using hand)]
  rfl

/-- An access is read back from its text. -/
theorem access_accessText (g : Grammar) (accessor : Accessor) {key : KeyPattern} (h : key.Readable)
    {first : Bool} (hfirst : first = true → key.isPattern = true) (asKey : Bool) {rest : List Char}
    (hr : EndsAccess rest) (place : Place) :
    g.access place accessor (accessChars asKey key first ++ rest) =
      .ok (.access accessor key none first, rest) := by
  rw [Grammar.access, run_bind_of_ok (keyPattern_accessText h hfirst asKey hr)]
  dsimp only
  split
  · rfl
  · rw [run_bind_of_ok (filterSuffix_of_endsAccess g hr)]
    rfl

end Parse

end DottedPath

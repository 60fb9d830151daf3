import DottedPath.Proofs.Path.AccessText

/-!
# What follows a segment, read back

A segment of a path ends where the next one begins or the path does (`EndsSegment`).  Between them a
restriction to kinds may stand: `Suffix.read` says that it is read back, and that no guard is read
behind it.
-/

namespace DottedPath

/-! ### What follows a segment -/

namespace Parse

/-- What a segment inside of a path begins with. -/
def segmentStarts : List Char :=
  ['.', '[', '@', '~']

/-- The next segment begins here, or the path ends, where transforms may follow that are not taken
for a guard. -/
structure EndsSegment (rest : List Char) : Prop where
  head : ∀ c ∈ rest.head?, c ∈ segmentStarts ++ ['|']
  guardTest : guardTest rest = .ok (none, rest)

theorem endsSegment_nil : EndsSegment [] :=
  ⟨nofun, rfl⟩

theorem endsSegment_cons {c : Char} (hc : c ∈ segmentStarts) (cs : List Char) :
    EndsSegment (c :: cs) := by
  refine ⟨fun d hd => ?_, ?_⟩
  · cases hd
    exact List.mem_append_left _ hc
  · simp only [segmentStarts, List.mem_cons, List.not_mem_nil, or_false] at hc
    rcases hc with rfl | rfl | rfl | rfl <;> rfl

namespace EndsSegment

variable {rest : List Char}

theorem endsAccess (h : EndsSegment rest) : EndsAccess rest := fun c hc =>
  List.mem_append_left [':', ']'] (h.head c hc)

theorem head?_ne (h : EndsSegment rest) {c : Char} (hc : c ∉ segmentStarts ++ ['|']) :
    rest.head? ≠ some c :=
  fun hr => hc (h.head c hr)

theorem restrictionAhead (h : EndsSegment rest) : restrictionAhead rest = .ok (false, rest) := by
  have hcolon : rest.head? ≠ some ':' := h.head?_ne (by decide)
  rw [Parse.restrictionAhead, run_bind_of_ok (run_get _)]
  split
  · exact absurd rfl hcolon
  · rfl

end EndsSegment

theorem suffixes_of_endsSegment (s : Segment) {rest : List Char} (hr : EndsSegment rest) :
    suffixes .top s rest = .ok (s, rest) := by
  rw [suffixes, if_neg (by decide), run_bind_of_ok hr.restrictionAhead,
    if_neg Bool.false_ne_true, run_bind_of_ok (run_pure s rest)]
  show (guardTest >>= _) rest = _
  rw [run_bind_of_ok hr.guardTest]
  rfl

/-! ### Restrictions -/

/-- A character of the name of a kind. -/
def isNameChar (c : Char) : Bool :=
  c.isAlphanum || c == '_'

theorem isNameChar_of_mem_name (k : Kind) : ∀ c ∈ k.name.toList, isNameChar c = true := by
  rw [← List.all_eq_true]
  cases k <;> decide

/-- A name of a kind begins with a letter. -/
theorem name_eq_cons (k : Kind) : ∃ c cs, k.name.toList = c :: cs ∧ c.isAlpha = true ∧
    Text.isBlank c = false := by
  cases k <;> exact ⟨_, _, rfl, by decide⟩

/-- No name of a kind goes on here. -/
def EndsName (rest : List Char) : Prop :=
  ∀ c ∈ rest.head?, isNameChar c = false

theorem endsName_close (rest : List Char) : EndsName (')' :: rest) := by
  rintro c ⟨⟩
  decide

theorem endsName_comma (rest : List Char) : EndsName (',' :: rest) := by
  rintro c ⟨⟩
  decide

theorem kindName_name (k : Kind) {rest : List Char} (hr : EndsName rest) :
    kindName (k.name.toList ++ rest) = .ok (k, rest) := by
  have hname : takeWhile isNameChar (k.name.toList ++ rest) = .ok (k.name.toList, rest) := by
    have hall := isNameChar_of_mem_name k
    have hstop := takeWhile_of_head? hr
    rw [run_takeWhile] at hstop ⊢
    obtain ⟨htake, hdrop⟩ := Prod.mk.inj (Except.ok.inj hstop)
    rw [List.takeWhile_append_of_pos hall, List.dropWhile_append_of_pos hall, htake, hdrop,
      List.append_nil]
  rw [kindName, run_bind_of_ok (run_get _)]
  show (takeWhile isNameChar >>= _) _ = _
  rw [run_bind_of_ok hname, String.ofList_toList, Kind.ofName?_name]
  rfl

theorem skipBlanks_name (k : Kind) (rest : List Char) :
    skipBlanks (k.name.toList ++ rest) = .ok ((), k.name.toList ++ rest) := by
  obtain ⟨c, cs, hcs, -, hblank⟩ := name_eq_cons k
  refine skipBlanks_of_head? ?_
  rw [hcs]
  rintro d ⟨⟩
  exact hblank

/-- A blank before an item is skipped. -/
theorem separatedWithin_space {α : Type} (separator : Char) (item : Parse α) {n : Nat} (hn : 0 < n)
    (cs : List Char) : separatedWithin separator item n (' ' :: cs) =
      separatedWithin separator item n cs := by
  obtain ⟨n, rfl⟩ : ∃ m, n = m + 1 := ⟨n - 1, by omega⟩
  rw [separatedWithin, run_bind_of_ok (run_skipBlanks _), run_bind_of_ok (run_skipBlanks cs),
    List.dropWhile_cons_of_pos (by decide)]

/-- The names in parentheses are read one after the other. -/
theorem separatedWithin_kindName (rest : List Char) : ∀ (k : Kind) (ks : List Kind) (n : Nat),
    ks.length < n → separatedWithin ',' kindName n
      ((joined ", " ((k :: ks).map Kind.name)).toList ++ ')' :: rest) =
        .ok (k :: ks, ')' :: rest)
  | k, [], n + 1, _ => by
    have hname := kindName_name k (endsName_close rest)
    have htext : joined ", " ([k].map Kind.name) = k.name := String.intercalate_singleton
    rw [htext, separatedWithin, run_bind_of_ok (skipBlanks_name k _), run_bind_of_ok hname,
      run_bind_of_ok (skipBlanks_of_head? (by rintro c ⟨⟩; decide)),
      run_bind_of_ok (eat_of_head?_ne (by rintro ⟨⟩))]
    rfl
  | k, l :: ks, n + 1, hn => by
    have hn : ks.length < n := by simpa using hn
    have hmore := separatedWithin_kindName rest l ks n hn
    have htext : (joined ", " ((k :: l :: ks).map Kind.name)).toList ++ ')' :: rest =
        k.name.toList ++ ',' :: ' ' ::
          ((joined ", " ((l :: ks).map Kind.name)).toList ++ ')' :: rest) := by
      rw [joined, List.map_cons, List.map_cons, String.intercalate_cons_cons, ← List.map_cons]
      simp [joined]
    have hname := kindName_name k (endsName_comma
      (' ' :: ((joined ", " ((l :: ks).map Kind.name)).toList ++ ')' :: rest)))
    rw [← separatedWithin_space ',' kindName (by omega)] at hmore
    rw [htext, separatedWithin, run_bind_of_ok (skipBlanks_name k _), run_bind_of_ok hname,
      run_bind_of_ok (skipBlanks_of_head? (by rintro c ⟨⟩; decide)),
      run_bind_of_ok (eat_cons_self ',' _), if_pos rfl, run_bind_of_ok hmore]
    rfl

theorem length_le_length_joined (k : Kind) (ks : List Kind) :
    ks.length ≤ (joined ", " ((k :: ks).map Kind.name)).toList.length := by
  induction ks generalizing k with
  | nil => exact Nat.zero_le _
  | cons l ks ih =>
    have hl := ih l
    rw [joined, List.map_cons, List.map_cons, String.intercalate_cons_cons, ← List.map_cons,
      String.toList_append, String.toList_append, List.length_append, List.length_append,
      List.length_cons]
    have hcomma : (", ".toList).length = 2 := rfl
    rw [joined] at hl
    omega

/-- The names in parentheses, read up to the closing one. -/
theorem separated_kindName (k : Kind) (ks : List Kind) (rest : List Char) :
    separated ',' kindName ((joined ", " ((k :: ks).map Kind.name)).toList ++ ')' :: rest) =
      .ok (k :: ks, ')' :: rest) := by
  have hlength := length_le_length_joined k ks
  rw [separated, run_bind_of_ok (run_get _)]
  refine separatedWithin_kindName rest k ks _ ?_
  rw [List.length_append]
  omega

/-- The kinds of a restriction as they are written. -/
def kindsText : List Kind → String
  | [k] => k.name
  | ks => "(" ++ joined ", " (ks.map Kind.name) ++ ")"

theorem toList_restrictionText (r : KindRestriction) :
    r.text.toList = ':' :: ((sign "!" r.negated).toList ++ (kindsText r.kinds).toList) := by
  have htext : r.text = ":" ++ sign "!" r.negated ++ kindsText r.kinds := rfl
  rw [htext, String.toList_append, String.toList_append]
  rfl

/-- What the kinds of a restriction begin with: a letter or a parenthesis. -/
theorem kindsText_eq_cons (ks : List Kind) : ∃ c cs, (kindsText ks).toList = c :: cs ∧
    (c.isAlpha = true ∨ c = '(') := by
  cases ks with
  | nil => exact ⟨_, _, rfl, .inr rfl⟩
  | cons k ks =>
    cases ks with
    | nil =>
      obtain ⟨c, cs, hcs, halpha, -⟩ := name_eq_cons k
      exact ⟨c, cs, hcs, .inl halpha⟩
    | cons l ks =>
      refine ⟨'(', (joined ", " ((k :: l :: ks).map Kind.name)).toList ++ [')'], ?_, .inr rfl⟩
      rw [kindsText, String.toList_append, String.toList_append]
      · rfl
      · rintro _ ⟨⟩

theorem restrictionAhead_restriction (r : KindRestriction) (rest : List Char) :
    restrictionAhead (r.text.toList ++ rest) = .ok (true, r.text.toList ++ rest) := by
  obtain ⟨c, cs, hcs, hc⟩ := kindsText_eq_cons r.kinds
  rw [toList_restrictionText, hcs, restrictionAhead, run_bind_of_ok (run_get _)]
  cases r.negated with
  | true => rfl
  | false =>
    show (pure (c.isAlpha || c == '!' || c == '(') : Parse Bool) _ = _
    have hahead : (c.isAlpha || c == '!' || c == '(') = true := by
      rcases hc with h | rfl
      · rw [h, Bool.true_or, Bool.true_or]
      · rfl
    rw [hahead]
    rfl

/-- A restriction is read back behind its colon. -/
theorem kindRestriction_kindsText {r : KindRestriction} (h : r.kinds ≠ []) {rest : List Char}
    (hr : EndsName rest) :
    kindRestriction ((sign "!" r.negated).toList ++ ((kindsText r.kinds).toList ++ rest)) =
      .ok (r, rest) := by
  obtain ⟨kinds, negated⟩ := r
  obtain ⟨c, cs, hcs, hc⟩ := kindsText_eq_cons kinds
  have hmark : ((kindsText kinds).toList ++ rest).head? ≠ some '!' := by
    rw [hcs]
    rintro ⟨⟩
    rcases hc with hc | hc
    · exact absurd hc (by decide)
    · cases hc
  rw [kindRestriction, run_bind_of_ok (eat_sign rfl negated hmark)]
  -- one kind is written bare, several in parentheses
  match kinds, h with
  | [k], _ =>
    obtain ⟨c, cs, hcs, halpha, -⟩ := name_eq_cons k
    have hparen : ((kindsText [k]).toList ++ rest).head? ≠ some '(' := by
      show (k.name.toList ++ rest).head? ≠ _
      rw [hcs]
      rintro ⟨⟩
      exact absurd halpha (by decide)
    rw [run_bind_of_ok (eat_of_head?_ne hparen), if_neg Bool.false_ne_true]
    show (kindName >>= _) (k.name.toList ++ rest) = _
    rw [run_bind_of_ok (kindName_name k hr)]
    rfl
  | k :: l :: ks, _ =>
    have htext : (kindsText (k :: l :: ks)).toList ++ rest =
        '(' :: ((joined ", " ((k :: l :: ks).map Kind.name)).toList ++ ')' :: rest) := by
      rw [kindsText, String.toList_append, String.toList_append]
      · simp
      · rintro _ ⟨⟩
    rw [htext, run_bind_of_ok (eat_cons_self '(' _), if_pos rfl,
      run_bind_of_ok (separated_kindName k (l :: ks) rest), run_bind_of_ok (expect_cons_self ')' _)]
    rfl

/-- **A restriction is read back from its text.** -/
theorem suffixes_restriction (s : Segment) {r : KindRestriction} (h : r.kinds ≠ [])
    {rest : List Char} (hr : EndsSegment rest) :
    suffixes .top s (r.text.toList ++ rest) = .ok (.restrict s r, rest) := by
  have hname : EndsName rest := by
    intro c hc
    have hall : (segmentStarts ++ ['|']).all (isNameChar · = false) = true := by decide
    exact of_decide_eq_true (List.all_eq_true.mp hall c (hr.head c hc))
  rw [suffixes, if_neg (by decide), run_bind_of_ok (restrictionAhead_restriction r rest), if_pos rfl,
    toList_restrictionText, List.cons_append, List.append_assoc, run_bind_of_ok (run_skip 1 _),
    List.drop_one, List.tail_cons, run_bind_of_ok (kindRestriction_kindsText h hname),
    run_bind_of_ok (run_pure _ _)]
  show (guardTest >>= _) rest = _
  rw [run_bind_of_ok hr.guardTest]
  rfl

/-- What may follow a segment: nothing, or a restriction to one kind at least. The second segment is
the first one with what follows. -/
inductive Suffix (s : Segment) : Segment → List Char → Prop where
  | none : Suffix s s []
  | restriction {r : KindRestriction} (h : r.kinds ≠ []) : Suffix s (.restrict s r) r.text.toList

namespace Suffix

variable {s s' : Segment} {suffix rest : List Char}

theorem endsAccess (h : Suffix s s' suffix) (hr : EndsSegment rest) : EndsAccess (suffix ++ rest) := by
  cases h with
  | none => exact hr.endsAccess
  | restriction h =>
    rw [toList_restrictionText]
    rintro c ⟨⟩
    decide

theorem read (h : Suffix s s' suffix) (hr : EndsSegment rest) :
    suffixes .top s (suffix ++ rest) = .ok (s', rest) := by
  cases h with
  | none => exact suffixes_of_endsSegment s hr
  | restriction h => exact suffixes_restriction s h hr

end Suffix

end Parse

end DottedPath

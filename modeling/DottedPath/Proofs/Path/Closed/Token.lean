import DottedPath.Proofs.Path.Closed.Basic
import DottedPath.Proofs.Path.KeyToken

/-!
# Tokens before a closing parenthesis

Keys, numbers and quoted texts end before a closing parenthesis as they do at the end of the text.
A word that ends with a backslash takes it as escaped, where the word without it fails.  An argument
of a transform takes it after a backslash too, but without it ends with the text.

## Main statements

- `keyPattern_closed`: the key of an access.
- `transforms_closed`: the chain of a guard, which may take the parenthesis but then leaves nothing
  for a comparison.
-/

namespace DottedPath.Parse

variable {cs : List Char} {n : Nat}

/-! ### Quoted texts and expressions -/

/-- A character that is not a backslash is read on its own. -/
theorem quotedFrom_cons {q c : Char} (hc : c ≠ '\\') (taken cs : List Char) :
    quotedFrom q taken (c :: cs) =
      if c == q then some (taken.reverse, cs) else quotedFrom q (c :: taken) cs := by
  rw [quotedFrom]
  · exact fun h => absurd h hc
  · exact fun _ _ h => absurd h hc

theorem quotedFrom_closed {q : Char} (hq : q ≠ ')') (taken cs : List Char) :
    quotedFrom q taken (closed cs) = (quotedFrom q taken cs).map fun p => (p.1, closed p.2) := by
  fun_induction quotedFrom q taken cs with
  | case1 taken => simp [closed, quotedFrom, hq.symm]
  | case2 taken => simp [closed, quotedFrom]
  | case3 taken c cs c' ih => rw [closed_cons, closed_cons, quotedFrom, ih]
  | case4 taken c cs hnil hcons hcq =>
    have hc : c ≠ '\\' := fun hc => by cases cs <;> simp_all
    rw [closed_cons, quotedFrom_cons hc, if_pos hcq]
    rfl
  | case5 taken c cs hnil hcons hcq ih =>
    have hc : c ≠ '\\' := fun hc => by cases cs <;> simp_all
    rw [closed_cons, quotedFrom_cons hc, if_neg hcq, ih]

theorem regexFrom_cons {c : Char} (hc : c ≠ '\\') (taken cs : List Char) :
    regexFrom taken (c :: cs) =
      if c == '/' then some (taken.reverse, cs) else regexFrom (c :: taken) cs := by
  rw [regexFrom]
  · exact fun _ h => absurd h hc
  · exact fun _ _ h => absurd h hc
  · exact fun h => absurd h hc

theorem regexFrom_closed (taken cs : List Char) :
    regexFrom taken (closed cs) = (regexFrom taken cs).map fun p => (p.1, closed p.2) := by
  fun_induction regexFrom taken cs with
  | case1 taken => simp [closed, regexFrom]
  | case2 taken cs ih => rw [closed_cons, closed_cons, regexFrom, ih]
  | case3 taken c cs hc ih =>
    rw [closed_cons, closed_cons, regexFrom, ih]
    exact hc
  | case4 taken => simp [closed, regexFrom]
  | case5 taken c cs hslash hcons hnil hc =>
    have hc' : c ≠ '\\' := fun hc => by cases cs <;> simp_all
    rw [closed_cons, regexFrom_cons hc', if_pos hc]
    rfl
  | case6 taken c cs hslash hcons hnil hc ih =>
    have hc' : c ≠ '\\' := fun hc => by cases cs <;> simp_all
    rw [closed_cons, regexFrom_cons hc', if_neg hc, ih]

theorem length_quotedFrom_le {q : Char} {taken cs text rest : List Char}
    (h : quotedFrom q taken cs = some (text, rest)) : rest.length ≤ cs.length := by
  fun_induction quotedFrom q taken cs with
  | case1 taken => cases h
  | case2 taken => cases h
  | case3 taken c cs c' ih => exact Nat.le_trans (ih h) (by simp; omega)
  | case4 taken c cs hnil hcons hcq =>
    cases h
    simp
  | case5 taken c cs hnil hcons hcq ih => exact Nat.le_trans (ih h) (by simp)

theorem length_regexFrom_le {taken cs source rest : List Char}
    (h : regexFrom taken cs = some (source, rest)) : rest.length ≤ cs.length := by
  fun_induction regexFrom taken cs with
  | case1 taken => cases h
  | case2 taken cs ih => exact Nat.le_trans (ih h) (by simp; omega)
  | case3 taken c cs hc ih => exact Nat.le_trans (ih h) (by simp; omega)
  | case4 taken => cases h
  | case5 taken c cs hslash hcons hnil hc =>
    cases h
    simp
  | case6 taken c cs hslash hcons hnil hc ih => exact Nat.le_trans (ih h) (by simp)

theorem quotedText_closed (hcs : cs.length ≤ n) :
    At never (Below n) cs quotedText fun _ => quotedText := by
  unfold quotedText
  refine .get ?_
  cases cs with
  | nil => exact .failAt _ _ _ _
  | cons q cs =>
    rw [closed_cons]
    dsimp only
    split
    · rename_i hq
      rw [quotedFrom_closed (by rintro rfl; exact absurd hq (by decide))]
      cases hrun : quotedFrom q [] cs with
      | none => exact .failAt _ _ _ _
      | some p =>
        refine .set (.pure ?_)
        exact Nat.lt_of_lt_of_le (Nat.lt_succ_of_le (length_quotedFrom_le hrun)) hcs
    · exact .failAt _ _ _ _

theorem regex_closed (hcs : cs.length ≤ n) : At never (Within n) cs regex fun _ => regex := by
  unfold regex
  refine .get (.expect (by decide) fun r hr => .get ?_)
  rw [regexFrom_closed]
  subst hr
  cases hrun : regexFrom [] r with
  | none => exact .failAt _ _ _ _
  | some p =>
    refine .set ?_
    dsimp only
    split
    · refine .pure (Nat.le_trans (length_regexFrom_le hrun) (Nat.le_trans (Nat.le_succ _) hcs))
    · exact .failAt _ _ _ _



/-! ### Literals in the place of a key -/

variable {β : Type} {lag : Lag} {fits : β → List Char → Prop} {k : Bool → Parse β}
  {K : Nat → Bool → Parse β}

/-- A `b` before a quote is looked for. -/
theorem bytesAhead_closed
    (htrue : ∀ r, cs = 'b' :: r → At lag fits cs (k true) fun m => K m true)
    (hfalse : At lag fits cs (k false) fun m => K m false) :
    At lag fits cs (bytesAhead >>= k) fun m => bytesAhead >>= K m := by
  have hrun (cs : List Char) :
      bytesAhead cs = .ok (cs.head? == some 'b' && cs[1]?.any isQuote, cs) := rfl
  refine .test (hrun cs) ?_ ?_
  · rw [hrun, head?_closed_beq (by decide), any_isQuote_closed]
  · cases hahead : cs.head? == some 'b' && cs[1]?.any isQuote with
    | false => exact hfalse
    | true =>
      have hhead : cs.head? = some 'b' := by simpa using (Bool.and_eq_true_iff.mp hahead).1
      obtain ⟨r, rfl⟩ := List.head?_eq_some_iff.mp hhead
      exact htrue r rfl

/-- A `#` before a quote is looked for. -/
theorem numberAhead_closed
    (htrue : ∀ r, cs = '#' :: r → At lag fits cs (k true) fun m => K m true)
    (hfalse : At lag fits cs (k false) fun m => K m false) :
    At lag fits cs (numberAhead >>= k) fun m => numberAhead >>= K m := by
  have hrun (cs : List Char) :
      numberAhead cs = .ok (cs.head? == some '#' && cs[1]?.any isQuote, cs) := rfl
  refine .test (hrun cs) ?_ ?_
  · rw [hrun, head?_closed_beq (by decide), any_isQuote_closed]
  · cases hahead : cs.head? == some '#' && cs[1]?.any isQuote with
    | false => exact hfalse
    | true =>
      have hhead : cs.head? = some '#' := by simpa using (Bool.and_eq_true_iff.mp hahead).1
      obtain ⟨r, rfl⟩ := List.head?_eq_some_iff.mp hhead
      exact htrue r rfl

theorem quotedBytes_closed {c : Char} (hcs : (c :: cs).length ≤ n) :
    At never (Below n) (c :: cs) quotedBytes fun _ => quotedBytes :=
  .skip ((quotedText_closed (Nat.le_of_succ_le hcs)).map _ fun _ _ h => h)

theorem wordFrom_cons {c : Char} (hc : c ≠ '\\') (numeric escaped : Bool) (taken cs : List Char) :
    wordFrom numeric taken escaped (c :: cs) =
      if isWordChar c then wordFrom numeric (c :: taken) escaped cs
      else if numeric && c == '+' && taken.head?.any (fun e => e == 'e' || e == 'E') &&
          cs.head?.any Char.isDigit then
        wordFrom numeric (c :: taken) escaped cs
      else .ok ((taken.reverse, escaped), c :: cs) := by
  rw [wordFrom]
  · exact fun h => absurd h hc
  · exact fun _ _ h => absurd h hc

theorem head?_any_isDigit_closed (cs : List Char) :
    (closed cs).head?.any Char.isDigit = cs.head?.any Char.isDigit := by
  cases cs with
  | nil => decide
  | cons c cs => rfl

theorem wordFrom_closed (numeric : Bool) (taken : List Char) (escaped : Bool)
    (hcs : cs.length ≤ n) :
    At failing (Within n) cs (wordFrom numeric taken escaped)
      fun _ => wordFrom numeric taken escaped := by
  fun_induction wordFrom numeric taken escaped cs with
  | case1 taken escaped =>
    refine .ok rfl (fun _ => ?_) hcs
    rw [closed_nil, wordFrom_cons (by decide), if_neg (by decide), if_neg (by simp)]
  | case2 taken escaped =>
    -- the backslash takes the parenthesis
    refine .lost (b := ((')' :: taken).reverse, true)) rfl (fun _ => ?_) leaving_none
    rw [closed_cons, closed_nil, wordFrom, wordFrom]
  | case3 taken escaped c cs ih =>
    refine .of_eq ?_ (fun _ => ?_) (ih (by simp at hcs; omega))
    · rw [wordFrom]
    · rw [closed_cons, closed_cons, wordFrom]
  | case4 taken escaped c cs hnil hcons hc ih =>
    have hc' : c ≠ '\\' := fun hc => by cases cs <;> simp_all
    refine .of_eq ?_ (fun _ => ?_) (ih (by simp at hcs; omega))
    · rw [wordFrom_cons hc', if_pos hc]
    · rw [closed_cons, wordFrom_cons hc', if_pos hc]
  | case5 taken escaped c cs hnil hcons hc hplus ih =>
    have hc' : c ≠ '\\' := fun hc => by cases cs <;> simp_all
    refine .of_eq ?_ (fun _ => ?_) (ih (by simp at hcs; omega))
    · rw [wordFrom_cons hc', if_neg hc, if_pos hplus]
    · rw [closed_cons, wordFrom_cons hc', head?_any_isDigit_closed, if_neg hc, if_pos hplus]
  | case6 taken escaped c cs hnil hcons hc hplus =>
    have hc' : c ≠ '\\' := fun hc => by cases cs <;> simp_all
    refine .ok (a := (taken.reverse, escaped)) ?_ (fun _ => ?_) hcs
    · rw [wordFrom_cons hc', if_neg hc, if_neg hplus]
    · rw [closed_cons, wordFrom_cons hc', head?_any_isDigit_closed, if_neg hc, if_neg hplus]

theorem beginsNumeric_closed (cs : List Char) : beginsNumeric (closed cs) = beginsNumeric cs := by
  cases cs with
  | nil => decide
  | cons c cs =>
    cases cs with
    | nil =>
      by_cases hc : c = '-'
      · subst hc
        decide
      · rw [closed_cons, beginsNumeric_cons hc, beginsNumeric_cons hc]
    | cons d cs =>
      by_cases hc : c = '-'
      · subst hc
        rfl
      · rw [closed_cons, beginsNumeric_cons hc, beginsNumeric_cons hc]

theorem word_closed (hcs : cs.length ≤ n) : At failing (Within n) cs word fun _ => word := by
  unfold word
  refine .get ?_
  rw [beginsNumeric_closed]
  refine (wordFrom_closed _ _ _ hcs).bind_failing (fun p r hr => ?_) leaving_none fun p => ?_
  · dsimp only
    split
    · exact .failAt _ _ _ _
    · exact .pure hr
  · dsimp only
    split
    · exact .inr ⟨_, fun _ => rfl⟩
    · exact .inl ⟨_, fun _ => rfl⟩

theorem keyLiteral_closed (hcs : cs.length ≤ n) :
    At failing (Within n) cs keyLiteral fun _ => keyLiteral := by
  unfold keyLiteral
  refine (At.quoteAt 0 hcs).bind_never fun quoted r hr => ?_
  split
  · exact (quotedText_closed hr).within.of_never.mapWithin _
  · refine bytesAhead_closed (fun r' hr' => ?_) (numberAhead_closed (fun r' hr' => ?_) ?_)
    · subst hr'
      exact (quotedBytes_closed hr).within.of_never.mapWithin _
    · subst hr'
      refine .skip (.get ?_)
      refine (quotedText_closed (Nat.le_of_succ_le hr)).within.bind_never fun raw r hr => ?_
      cases hlit : Number.read? raw.toList with
      | none => exact .failAt _ _ _ _
      | some lit => exact .pure hr
    · exact (word_closed hr).mapWithin _


theorem keyPattern_closed (hcs : cs.length ≤ n) :
    At failing (Within n) cs keyPattern fun _ => keyPattern := by
  unfold keyPattern
  refine .peek (fun hcs' => ?_) fun c r hcs' => ?_
  · subst hcs'
    exact (keyLiteral_closed hcs).mapWithin _
  · subst hcs'
    split
    · exact .skip ((At.eatMark (by decide) (Nat.le_of_succ_le hcs)).of_never.mapWithin _)
    · refine (regex_closed hcs).bind_never fun re r hr => ?_
      exact (At.eatMark (by decide) hr).of_never.mapWithin _
    · exact (keyLiteral_closed hcs).mapWithin _

/-! ### Numbers -/

theorem optionalInt_closed (hcs : cs.length ≤ n) :
    At never (Within n) cs optionalInt fun _ => optionalInt := by
  unfold optionalInt
  refine .get ((At.eatMark (by decide) hcs).bind_never fun negative r hr => ?_)
  refine (At.takeWhile (by decide) hr).bind_never fun digits r hr => ?_
  split
  · exact .pure hr
  · cases Decimal.readInt? 10 (if negative then '-' :: digits else digits) with
    | none => exact .failAt _ _ _ _
    | some i => exact .pure hr

theorem count_closed (hcs : cs.length ≤ n) : At never (Within n) cs count fun _ => count :=
  (At.takeWhile (by decide) hcs).mapWithin _

theorem digitRun_closed (hcs : cs.length ≤ n) :
    At never (Within n) cs digitRun fun _ => digitRun :=
  .takeWhile (by decide) hcs


theorem exponent_closed (hcs : cs.length ≤ n) :
    At never (Within n) cs exponent fun _ => exponent := by
  unfold exponent
  refine .get ?_
  cases cs with
  | nil => exact .pure hcs
  | cons e cs =>
    -- without digits behind the letter and the sign all of it is given back
    have hdigits (sign r : List Char) (hr : r.length ≤ n) : At never (Within n) r
        (do
          let digits ← digitRun
          if digits.isEmpty then
            set (e :: cs)
            pure []
          else pure ('e' :: sign ++ digits))
        (fun _ => do
          let digits ← digitRun
          if digits.isEmpty then
            set (closed (e :: cs))
            pure []
          else pure ('e' :: sign ++ digits)) := by
      refine (digitRun_closed hr).bind_never fun digits r hr => ?_
      split
      · exact .set (.pure hcs)
      · exact .pure hr
    rw [closed_cons]
    dsimp only
    split
    · have hle : cs.length ≤ n := Nat.le_of_succ_le hcs
      refine .skip (.peek (fun hcs' => ?_) fun c r hcs' => ?_)
      · exact hdigits [] [] (Nat.zero_le n)
      · subst hcs'
        split
        · exact .skip (hdigits ['+'] r (Nat.le_of_succ_le hle))
        · exact .skip (hdigits ['-'] r (Nat.le_of_succ_le hle))
        · exact hdigits [] _ hle
    · exact .pure hcs

theorem valueNumber_closed (hcs : cs.length ≤ n) :
    At never (Within n) cs valueNumber fun _ => valueNumber := by
  have hgiveUp (r : List Char) : At never (Within n) r (do set cs; pure (none : Option Literal))
      (fun _ => do set (closed cs); pure none) := .set (.pure hcs)
  unfold valueNumber
  refine .get ?_
  dsimp only
  refine (At.eatMark (by decide) hcs).bind_never fun negative r hr => ?_
  refine (digitRun_closed hr).bind_never fun whole r hr => .get ?_
  have hpoint : (whole.isEmpty || (closed r).head? != some '.' ||
      !(closed r).tail.head?.any Char.isDigit) =
      (whole.isEmpty || r.head? != some '.' || !r.tail.head?.any Char.isDigit) := by
    cases r with
    | nil => simp [closed]
    | cons c r => rw [closed_cons, List.tail_cons, head?_any_isDigit_closed]; rfl
  rw [hpoint]
  split
  · exact hgiveUp r
  · rename_i hdigit
    cases r with
    | nil => simp at hdigit
    | cons c r =>
      refine .skip ((digitRun_closed (Nat.le_of_succ_le hr)).bind_never fun fraction r hr => ?_)
      refine (exponent_closed hr).bind_never fun exp r hr => ?_
      refine .peek (fun hr' => ?_) fun c r' hr' => ?_
      · -- neither the end nor a parenthesis goes on with the word
        have hclose : isWordChar ')' = false := by decide
        simp only [Option.any_none, Option.any_some, hclose, Bool.false_and, Bool.false_eq_true,
          if_false]
        cases Decimal.readFloat? _ with
        | none => exact hgiveUp []
        | some f => exact .pure (Nat.zero_le n)
      · split
        · exact hgiveUp _
        · cases Decimal.readFloat? _ with
          | none => exact hgiveUp _
          | some f => exact .pure (by rwa [← hr'])

theorem valueWord_closed (hcs : cs.length ≤ n) :
    At failing (Within n) cs valueWord fun _ => valueWord := by
  unfold valueWord
  refine (valueNumber_closed hcs).bind_never fun lit r hr => ?_
  cases lit with
  | some lit => exact .pure hr
  | none =>
    refine (word_closed hr).bind_failing (fun p r hr => ?_) leaving_none fun p => ?_
    · dsimp only
      split
      · exact .pure hr
      · split <;> exact .pure hr
    · dsimp only
      split
      · exact .inl ⟨_, fun _ => rfl⟩
      · split <;> exact .inl ⟨_, fun _ => rfl⟩

/-! ### Chains of transforms in a guard -/

theorem endsArgument_closed (c : Char) (cs : List Char) :
    endsArgument .guard (c :: closed cs) = endsArgument .guard (c :: cs) := by
  simp only [endsArgument, head?_closed_beq (show '=' ≠ ')' by decide)]

/-- A bare argument ends before the parenthesis, unless a backslash takes it. -/
theorem argumentFrom_closed (taken cs : List Char) :
    (argumentFrom .guard taken (closed cs) =
      ((argumentFrom .guard taken cs).1, closed (argumentFrom .guard taken cs).2)) ∨
    ((argumentFrom .guard taken (closed cs)).2 = [] ∧ (argumentFrom .guard taken cs).2 = []) := by
  fun_induction argumentFrom .guard taken cs with
  | case1 taken => exact .inl rfl
  | case2 taken c cs hends =>
    refine .inl ?_
    rw [closed_cons, argumentFrom.eq_def]
    dsimp only
    rw [endsArgument_closed, if_pos hends]
  | case3 taken c hc hends =>
    refine .inr ⟨?_, rfl⟩
    rw [closed_cons, argumentFrom.eq_def]
    dsimp only
    rw [endsArgument_closed, if_neg hends, if_pos hc]
    rfl
  | case4 taken c hc e cs hends ih =>
    rw [closed_cons, argumentFrom.eq_def]
    dsimp only
    rw [endsArgument_closed, if_neg hends, if_pos hc]
    exact ih
  | case5 taken c cs hends hc ih =>
    rw [closed_cons, argumentFrom.eq_def]
    dsimp only
    rw [endsArgument_closed, if_neg hends, if_neg hc]
    exact ih

theorem length_argumentFrom_le (place : ChainPlace) (taken cs : List Char) :
    (argumentFrom place taken cs).2.length ≤ cs.length := by
  fun_induction argumentFrom place taken cs with
  | case1 taken => exact Nat.le_refl _
  | case2 taken c cs hends => exact Nat.le_refl _
  | case3 taken c hends hc => exact Nat.zero_le _
  | case4 taken c hends hc e cs ih => exact Nat.le_trans ih (by simp; omega)
  | case5 taken c cs hends hc ih => exact Nat.le_trans ih (by simp)

theorem argument_closed (call : TransformCall) (hcs : cs.length ≤ n) :
    At (leaving fun r => r = []) (Within n) cs (argument .guard call)
      fun _ => argument .guard call := by
  unfold argument
  refine (At.quoteAt 0 hcs).bind_never fun quoted r hr => ?_
  split
  · exact (quotedText_closed hr).within.of_never.mapWithin _
  · refine .get ?_
    have hle : (argumentFrom .guard [] r).2.length ≤ n :=
      Nat.le_trans (length_argumentFrom_le ..) hr
    rcases argumentFrom_closed [] r with hsame | ⟨htaken, hnil⟩
    · rw [hsame]
      refine .set ?_
      rw [head?_closed_beq (by decide)]
      split
      · exact .fail _ _
      · exact .pure hle
    · generalize argumentFrom .guard [] (closed r) = p at htaken
      generalize argumentFrom .guard [] r = p' at hnil
      obtain ⟨raw, rest⟩ := p
      obtain ⟨raw', rest'⟩ := p'
      dsimp only at htaken hnil
      subst htaken
      subst hnil
      refine ⟨_, fun m => rfl, ?_⟩
      refine .behind (r := []) (addArgument .guard raw call) (leaving_some rfl) (Nat.zero_le n)

theorem argumentsWithin_nil (place : ChainPlace) (p : Nat) (call : TransformCall) :
    argumentsWithin place p call [] = .ok (call, []) := by
  cases p <;> rfl

theorem argumentsWithin_closed : ∀ {p q : Nat} {cs : List Char} (call : TransformCall),
    cs.length ≤ n → cs.length < p → cs.length + 1 < q →
    At (leaving fun r => r = []) (Within n) cs (argumentsWithin .guard p call)
      fun _ => argumentsWithin .guard q call
  | p + 1, q + 1, cs, call, hcs, hp, hq => by
    refine .eat (by decide) (fun r hr => ?_) fun _ => .pure hcs
    subst hr
    simp only [List.length_cons] at hcs hp hq
    refine (argument_closed call (Nat.le_refl r.length)).bind_leaving (fun call r' hr' => ?_)
      leaving_none (fun call => ⟨call, fun _ => argumentsWithin_nil ..⟩)
      fun call r call' r' hr _ h => ?_
    · have hr' : r'.length ≤ r.length := hr'
      exact argumentsWithin_closed call (by omega) (by omega) (by omega)
    · subst hr
      rw [argumentsWithin_nil] at h
      cases h
      exact ⟨leaving_some rfl, Nat.zero_le n⟩

theorem transformCall_closed (hcs : cs.length ≤ n) :
    At (leaving fun r => r = []) (Item n) cs (transformCall .guard)
      fun _ => transformCall .guard := by
  unfold transformCall
  refine .eat (by decide) (fun r hr => ?_) fun _ => .pure hcs
  subst hr
  have hle : r.length ≤ n - 1 := Nat.le_sub_one_of_lt hcs
  have hpos : n - 1 + 1 ≤ n := Nat.le_of_eq (Nat.sub_add_cancel (Nat.le_trans (by simp) hcs))
  refine (At.takeWhile (by decide) hle).bind_never fun name r hr => ?_
  dsimp only
  split
  · exact .error rfl fun _ => rfl
  · refine .get ?_
    rw [length_closed]
    have hcall : At (leaving fun r => r = []) (Within (n - 1)) r
        (argumentsWithin .guard (r.length + 1) ⟨String.ofList name, [], [], false⟩)
        fun _ => argumentsWithin .guard (r.length + 1 + 1) ⟨String.ofList name, [], [], false⟩ :=
      argumentsWithin_closed _ hr (by omega) (by omega)
    exact hcall.map some fun _ r hr => Nat.le_trans (Nat.add_le_add_right hr 1) hpos

/-- **A chain before a comparison goes together with the chain before a parenthesis**, or ends with
the text where the parenthesis is taken. -/
theorem transforms_closed (hcs : cs.length ≤ n) :
    At (leaving fun r => r = []) (Within n) cs (transforms .guard) fun _ => transforms .guard := by
  have h : Repeats n (fun r => r = []) (transformCall .guard) fun _ => transformCall .guard :=
    { reads := fun _ _ hcs _ => transformCall_closed hcs
      ends := fun _ => rfl
      behind := by
        rintro _ o r' - rfl hrun
        cases hrun
        rfl }
  exact h.many cs n hcs (Nat.le_refl n)

end DottedPath.Parse

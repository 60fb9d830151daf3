import DottedPath.Proofs.Path.Reader
import Mathlib.Tactic.ByContra

/-!
# Text keys as tokens, read back

The token of a text key is the key itself where that reads as a word, and a quoted text elsewhere.
`keyLiteral_normalize`: before anything that ends a word, the token of a plain key is read as the
key.  Quoted texts are read back whatever they hold (`quotedText_quoted`); words only if nothing in
them is escaped, ends a word or makes a number, which is what `PlainKey` leaves after the keys that
are quoted are set aside (`PlainKey.bare`).
-/

namespace DottedPath

/-! ### Quoted texts -/

namespace Parse

/-- The escapes of a quoted token are undone. -/
theorem quotedFrom_escapeToken (cs taken rest : List Char) :
    quotedFrom Text.quoteChar taken (cs.flatMap Text.escapeToken ++ Text.quoteChar :: rest) =
      some (taken.reverse ++ cs, rest) := by
  induction cs generalizing taken with
  | nil =>
    show quotedFrom Text.quoteChar taken ('\x27' :: rest) = _
    rw [quotedFrom, if_pos (by decide), List.append_nil]
    · rintro ⟨⟩
    · rintro _ _ ⟨⟩
  | cons c cs ih =>
    rw [List.flatMap_cons, List.append_assoc]
    have step : taken.reverse ++ c :: cs = (c :: taken).reverse ++ cs := by simp
    rw [step, ← ih]
    by_cases hc : (c == '\\' || c == Text.quoteChar) = true
    · -- A backslash stands before it, and it is none of the letters that a backslash changes.
      rw [Text.escapeToken, if_pos hc, List.cons_append, List.cons_append, List.nil_append,
        quotedFrom]
      have hn : (c == 'n') = false ∧ (c == 't') = false ∧ (c == 'r') = false := by
        rcases Bool.or_eq_true_iff.mp hc with h | h <;> rw [eq_of_beq h] <;> decide
      simp only [hn, Bool.false_eq_true, if_false]
    · rw [Text.escapeToken, if_neg hc, List.cons_append, List.nil_append, quotedFrom]
      · rw [if_neg]
        intro h
        exact hc (by rw [h, Bool.or_true])
      · rintro rfl
        exact absurd hc (by decide)
      · rintro _ _ rfl
        exact absurd hc (by decide)

theorem toList_quoted (s : String) :
    (Text.quoted s).toList =
      Text.quoteChar :: (s.toList.flatMap Text.escapeToken ++ [Text.quoteChar]) := by
  rw [Text.quoted, String.toList_ofList]
  rfl

/-- A quoted text is read back. -/
theorem quotedText_quoted (s : String) (rest : List Char) :
    quotedText ((Text.quoted s).toList ++ rest) = .ok (s, rest) := by
  rw [toList_quoted, quotedText, run_bind_of_ok (run_get _)]
  simp only [List.cons_append, List.append_assoc, List.nil_append]
  rw [if_pos (by decide), quotedFrom_escapeToken]
  simp only [List.reverse_nil, List.nil_append]
  rw [run_bind_of_ok (run_set _ _), String.ofList_toList]
  rfl

/-! ### Words -/

/-- A word ends here. -/
def EndsWord (rest : List Char) : Prop :=
  ∀ c ∈ rest.head?, isWordChar c = false ∧ c ≠ '\\' ∧ isQuote c = false ∧ c ≠ '+'

theorem endsWord_nil : EndsWord [] :=
  nofun

/-- Characters that may stand in a bare word, at least one, and none of them escaped. -/
structure IsWord (cs : List Char) : Prop where
  ne_nil : cs ≠ []
  char : ∀ c ∈ cs, isWordChar c = true ∧ c ≠ '\\'

/-- A word without escapes is read up to what ends it. -/
theorem wordFrom_of_forall (numeric : Bool) (cs rest taken : List Char)
    (h : ∀ c ∈ cs, isWordChar c = true ∧ c ≠ '\\') (hr : EndsWord rest) :
    wordFrom numeric taken false (cs ++ rest) = .ok ((taken.reverse ++ cs, false), rest) := by
  induction cs generalizing taken with
  | nil =>
    rw [List.nil_append, List.append_nil]
    cases rest with
    | nil => rfl
    | cons c rest =>
      obtain ⟨hc, hne, -, hplus⟩ := hr c rfl
      rw [wordFrom, if_neg (by rw [hc]; decide), if_neg (by simp [hplus])]
      · rintro rfl
        exact absurd rfl hne
      · rintro _ _ rfl
        exact absurd rfl hne
  | cons c cs ih =>
    obtain ⟨hc, hne⟩ := h c (List.mem_cons_self ..)
    rw [List.cons_append, wordFrom, if_pos hc, ih _ fun d hd => h d (List.mem_cons_of_mem _ hd)]
    · simp
    · rintro rfl
      exact absurd rfl hne
    · rintro _ _ rfl
      exact absurd rfl hne

theorem word_of_isWord {cs rest : List Char} (h : IsWord cs) (hr : EndsWord rest) :
    word (cs ++ rest) = .ok ((cs, false), rest) := by
  have hread := wordFrom_of_forall (beginsNumeric (cs ++ rest)) cs rest [] h.char hr
  rw [List.reverse_nil, List.nil_append] at hread
  rw [word, run_bind_of_ok (run_get _),
    run_bind_of_ok (x := wordFrom (beginsNumeric (cs ++ rest)) [] false) hread]
  simp only [List.isEmpty_eq_false_iff.mpr h.ne_nil, Bool.false_and, Bool.false_eq_true, if_false]
  rfl

/-- A word is not quoted and begins with a character of a word. -/
theorem IsWord.exists_cons {cs : List Char} (h : IsWord cs) : ∃ c ds, cs = c :: ds ∧
    isReserved c = false ∧ Text.isBlank c = false ∧ isQuote c = false := by
  obtain ⟨c, ds, rfl⟩ := List.exists_cons_of_ne_nil h.ne_nil
  have hc := (h.char c (List.mem_cons_self ..)).1
  simp only [isWordChar, Bool.and_eq_true, Bool.not_eq_true'] at hc
  exact ⟨c, ds, rfl, hc.1.1, hc.1.2, hc.2⟩

/-- In the place of a key a word is a literal: neither quoted text, bytes nor a forced number. -/
theorem keyLiteral_of_isWord {cs rest : List Char} (h : IsWord cs) (hr : EndsWord rest) :
    keyLiteral (cs ++ rest) = .ok (wordLiteral cs false, rest) := by
  obtain ⟨c, ds, hcs, hreserved, -, hquote⟩ := h.exists_cons
  have h0 : (cs ++ rest)[0]?.any isQuote = false := by
    rw [hcs]
    exact hquote
  have h1 : ∀ d ∈ (cs ++ rest)[1]?, isQuote d = false := by
    intro d hd
    rw [hcs] at hd
    cases ds with
    | nil =>
      have : rest.head? = some d := by simpa [List.head?_eq_getElem?] using hd
      exact (hr d this).2.2.1
    | cons e es =>
      have he : e = d := by simpa using hd
      have := (h.char e (by rw [hcs]; simp)).1
      simp only [isWordChar, Bool.and_eq_true, Bool.not_eq_true'] at this
      exact he ▸ this.2
  have hsharp : (cs ++ rest).head? ≠ some '#' := by
    rw [hcs]
    rintro ⟨⟩
    exact absurd hreserved (by decide)
  rw [keyLiteral, run_bind_of_ok (run_quoteAt _ _), h0, if_neg Bool.false_ne_true,
    run_bind_of_ok (bytesAhead_of_second h1), if_neg Bool.false_ne_true,
    run_bind_of_ok (numberAhead_of_head? hsharp), if_neg Bool.false_ne_true,
    run_bind_of_ok (word_of_isWord h hr)]
  rfl

end Parse

/-! ### Which keys are words -/

theorem beginsNumeric_cons {c : Char} (hc : c ≠ '-') (cs : List Char) :
    beginsNumeric (c :: cs) = c.isDigit := by
  rw [beginsNumeric]
  rintro _ _ rfl
  exact absurd rfl hc

namespace Number

theorem beginsNumeric_of_isGrouped {cs : List Char} (h : isGrouped cs = true) :
    beginsNumeric cs = true := by
  cases cs with
  | nil => exact absurd h (by decide)
  | cons c cs =>
    simp only [isGrouped, Bool.and_eq_true, List.all_cons, List.head?_cons] at h
    obtain ⟨⟨⟨⟨-, hne⟩, -⟩, hc, -⟩, -⟩ := h
    have hd : c.isDigit = true := by
      rcases Bool.or_eq_true_iff.mp hc with h | h
      · exact h
      · exact absurd hne (by rw [eq_of_beq h]; decide)
    rw [beginsNumeric_cons (by rintro rfl; exact absurd hd (by decide)), hd]

theorem beginsNumeric_of_isExponential {cs : List Char} (h : isExponential cs = true) :
    beginsNumeric cs = true := by
  cases cs with
  | nil => exact absurd h (by decide)
  | cons c cs =>
    rw [isExponential, Bool.and_eq_true] at h
    rw [beginsNumeric_cons (by rintro rfl; exact absurd h.1 (by decide)), h.1]

theorem beginsNumeric_of_markedBase? {cs : List Char} {base : Nat} (h : markedBase? cs = some base) :
    beginsNumeric cs = true := by
  unfold markedBase? at h
  split at h <;> first | rfl | cases h

theorem unsigned_of_head? {cs : List Char} (h : cs.head? ≠ some '-') : unsigned cs = cs := by
  unfold unsigned
  split
  · exact absurd rfl h
  · rfl

/-- A number token without a minus sign begins with a digit. -/
theorem beginsNumeric_of_isToken {cs : List Char} (hs : cs.head? ≠ some '-')
    (h : isToken cs = true) : beginsNumeric cs = true := by
  rw [isToken, unsigned_of_head? hs] at h
  simp only [Bool.or_eq_true] at h
  rcases h with (h | h) | h
  · exact beginsNumeric_of_isGrouped h
  · exact beginsNumeric_of_isExponential h
  · split at h
    · next base hb => exact beginsNumeric_of_markedBase? hb
    · cases h

end Number

theorem Text.isBlank_of_isDigit {c : Char} (h : (c.isDigit || c == '_') = true) :
    Text.isBlank c = false := by
  rcases Bool.or_eq_true_iff.mp h with h | h
  · simp only [Char.isDigit, Bool.and_eq_true, decide_eq_true_eq, ge_iff_le, UInt32.le_iff_toNat_le] at h
    obtain ⟨h1, h2⟩ := h
    have h1 : 48 ≤ c.toNat := h1
    have h2 : c.toNat ≤ 57 := h2
    simp only [Text.isBlank, Bool.or_eq_false_iff, Bool.and_eq_false_iff, decide_eq_false_iff_not,
      beq_eq_false_iff_ne]
    omega
  · rw [eq_of_beq h]
    decide

/-- Nothing is cut off a text without blanks. -/
theorem Text.trim_of_forall {cs : List Char} (h : ∀ c ∈ cs, Text.isBlank c = false) :
    Text.trim cs = cs := by
  have hd : ∀ ds : List Char, (∀ c ∈ ds, Text.isBlank c = false) →
      ds.dropWhile Text.isBlank = ds := by
    intro ds hds
    cases ds with
    | nil => rfl
    | cons d ds => rw [List.dropWhile_cons_of_neg (by simp [hds d])]
  rw [Text.trim, hd cs h, hd _ (by simpa using h), List.reverse_reverse]

/-- A grouped number looks like an integer. -/
theorem looksLikeInteger_of_isGrouped {cs : List Char} (h : Number.isGrouped cs = true) :
    looksLikeInteger cs = true := by
  have hn := Number.beginsNumeric_of_isGrouped h
  simp only [Number.isGrouped, Bool.and_eq_true] at h
  obtain ⟨⟨⟨⟨hne, hhead⟩, -⟩, hall⟩, -⟩ := h
  have hb : ∀ c ∈ cs, Text.isBlank c = false := fun c hc =>
    Text.isBlank_of_isDigit (List.all_eq_true.mp hall c hc)
  simp only [looksLikeInteger, Text.trim_of_forall hb]
  split
  · exact absurd hn Bool.false_ne_true
  · exact absurd hall (by simp)
  · rw [hne, hall, hhead]
    rfl

/-- A text key that its token names: it holds no quote, no backslash and no blank but a space, a
tab or a line end, begins with no minus sign, and is no number token of another form than a decimal
integer. -/
structure PlainKey (key : String) : Prop where
  no_backslash : ∀ c ∈ key.toList, c ≠ '\\'
  no_quote : ∀ c ∈ key.toList, isQuote c = false
  blank : ∀ c ∈ key.toList, Text.isBlank c = true → c = ' ' ∨ c = '\t' ∨ c = '\r' ∨ c = '\n'
  no_minus : key.toList.head? ≠ some '-'
  not_exponential : Number.isExponential key.toList = false
  not_marked : ∀ base, Number.markedBase? key.toList = some base →
    Number.isDigits base (key.toList.drop 2) = false

/-- Plainness as a test of one character after the other. -/
theorem plainKey_iff (key : String) : PlainKey key ↔
    key.toList.all (· != '\\') = true ∧ key.toList.all (!isQuote ·) = true ∧
      key.toList.all (fun c => Text.isBlank c → c = ' ' ∨ c = '\t' ∨ c = '\r' ∨ c = '\n') = true ∧
      key.toList.head? ≠ some '-' ∧ Number.isExponential key.toList = false ∧
      ∀ base ∈ Number.markedBase? key.toList, Number.isDigits base (key.toList.drop 2) = false := by
  simp only [List.all_eq_true, bne_iff_ne, Bool.not_eq_true', decide_eq_true_eq]
  exact ⟨fun h => ⟨h.1, h.2, h.3, h.4, h.5, h.6⟩,
    fun ⟨h₁, h₂, h₃, h₄, h₅, h₆⟩ => ⟨h₁, h₂, h₃, h₄, h₅, h₆⟩⟩

instance : DecidablePred PlainKey := fun key => decidable_of_iff' _ (plainKey_iff key)

/-- A plain key that is neither quoted as an integer nor for its characters is a word, and no
number. -/
theorem PlainKey.bare {key : String} (h : PlainKey key) (hi : looksLikeInteger key.toList = false)
    (hq : needsQuotes key.toList = false) :
    Parse.IsWord key.toList ∧ Number.isToken key.toList = false := by
  have hne : key.toList ≠ [] := by
    intro he
    rw [he] at hq
    exact absurd hq (by decide)
  -- a key that begins as a number and needs no quotes would be a number of some kind, and for
  -- each kind a plain key is either quoted as an integer or ruled out
  have hbegin : beginsNumeric key.toList = false := by
    by_contra hb
    rw [Bool.not_eq_false] at hb
    rw [needsQuotes, if_neg (by simpa using hne), if_pos hb, Bool.not_eq_false', Number.isToken,
      Number.unsigned_of_head? h.no_minus, h.not_exponential, Bool.or_false] at hq
    rcases Bool.or_eq_true_iff.mp hq with hg | hm
    · rw [looksLikeInteger_of_isGrouped hg] at hi
      cases hi
    · split at hm
      · next base hbase =>
        rw [h.not_marked base hbase] at hm
        cases hm
      · cases hm
  refine ⟨⟨hne, fun c hc => ⟨?_, h.no_backslash c hc⟩⟩, ?_⟩
  · rw [needsQuotes, if_neg (by simpa using hne), if_neg (by rw [hbegin]; decide),
      List.any_eq_false] at hq
    have hc' := hq c hc
    simp only [Bool.or_eq_true, beq_iff_eq, not_or] at hc'
    obtain ⟨⟨⟨⟨hres, hsp⟩, htab⟩, hnl⟩, hcr⟩ := hc'
    have hbl : Text.isBlank c = false := by
      by_contra hb
      rw [Bool.not_eq_false] at hb
      rcases h.blank c hc hb with h | h | h | h
      · exact hsp h
      · exact htab h
      · exact hcr h
      · exact hnl h
    rw [isWordChar, hbl, h.no_quote c hc]
    simpa using hres
  · by_contra ht
    rw [Bool.not_eq_false] at ht
    rw [Number.beginsNumeric_of_isToken h.no_minus ht] at hbegin
    cases hbegin

/-! ### Tokens of keys -/

namespace Parse

/-- The token of a text key: what the key is printed as. -/
def keyToken (key : String) : List Char :=
  (Scalar.normalize true (.str key)).toList

/-- A text key whose token names it: its token is a quoted text, or it is a word that is no number. -/
def Readable (key : String) : Prop :=
  keyToken key = (Text.quoted key).toList ∨
    keyToken key = key.toList ∧ IsWord key.toList ∧ Number.isToken key.toList = false

/-- What a token of a key begins with: a quote, or the first character of the key. -/
theorem Readable.exists_cons {key : String} (h : Readable key) : ∃ c cs, keyToken key = c :: cs ∧
    isReserved c = false ∧ Text.isBlank c = false ∧
      (c = Text.quoteChar ∨ key.toList.head? = some c ∧ Number.isToken key.toList = false) := by
  rcases h with ht | ⟨ht, hword, htoken⟩
  · exact ⟨_, _, ht.trans (toList_quoted key), by decide, by decide, .inl rfl⟩
  · obtain ⟨c, cs, hc, hreserved, hblank, -⟩ := hword.exists_cons
    exact ⟨c, cs, ht.trans hc, hreserved, hblank, .inr ⟨by rw [hc]; rfl, htoken⟩⟩

/-- A word that begins like a number is one, or its token is quoted: so no token begins with a digit. -/
theorem Readable.no_digit {key : String} (h : Readable key) :
    ∀ c ∈ (keyToken key).head?, c.isDigit = false := by
  have hquoted {c : Char} (hc : c ∈ (Text.quoted key).toList.head?) : c.isDigit = false := by
    rw [toList_quoted] at hc
    cases hc
    decide
  rcases h with ht | ⟨ht, hword, htoken⟩
  · rw [ht]
    exact fun c hc => hquoted hc
  · intro c hc
    simp only [keyToken, Scalar.normalize, Scalar.quote] at hc
    split at hc
    · exact hquoted hc
    · split at hc
      · exact hquoted hc
      · next hquotes =>
        obtain ⟨d, ds, hds, -⟩ := hword.exists_cons
        have hempty : ¬(key.toList.isEmpty = true) := by rw [hds]; exact Bool.false_ne_true
        by_contra hd
        rw [Bool.not_eq_false] at hd
        rw [hds] at hc
        cases hc
        have hbegin : beginsNumeric key.toList = true := by
          rw [hds, beginsNumeric_cons (by rintro rfl; exact absurd hd (by decide)), hd]
        rw [needsQuotes, if_neg hempty, if_pos hbegin, htoken] at hquotes
        exact hquotes rfl

/-- **A text key is read back from its token.** -/
theorem keyLiteral_keyToken {key : String} (h : Readable key) {rest : List Char}
    (hr : EndsWord rest) : keyLiteral (keyToken key ++ rest) = .ok (.str key, rest) := by
  rcases h with ht | ⟨ht, hword, htoken⟩
  · rw [ht, keyLiteral, run_bind_of_ok (run_quoteAt _ _)]
    have hq : ((Text.quoted key).toList ++ rest)[0]?.any isQuote = true := by
      rw [toList_quoted]
      rfl
    rw [hq, if_pos rfl, run_bind_of_ok (quotedText_quoted key rest), run_pure]
  · rw [ht, keyLiteral_of_isWord hword hr, wordLiteral, htoken]
    simp

end Parse

/-- The token of a plain key is the key as a quoted text, or the key as a word. -/
theorem PlainKey.readable {key : String} (h : PlainKey key) : Parse.Readable key := by
  simp only [Parse.Readable, Parse.keyToken, Scalar.normalize, Scalar.quote]
  by_cases hi : looksLikeInteger key.toList = true
  · exact .inl (by rw [if_pos hi])
  · rw [if_neg hi]
    by_cases hq : needsQuotes key.toList = true
    · exact .inl (by rw [if_pos hq])
    · rw [if_neg hq]
      rw [Bool.not_eq_true] at hi hq
      exact .inr ⟨rfl, h.bare hi hq⟩

end DottedPath

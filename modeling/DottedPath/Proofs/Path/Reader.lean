import DottedPath.Path.Parse.Expression

/-!
# What readers answer on the characters before them

A reader is a function from the characters that are left.  The lemmas here give its value on a text
of a known shape, so that a reader built by `do` is followed step by step: `run_bind_of_ok` for a
step that succeeds, `run_bind_of_error` for one that fails.  `manyWithin_of_reads` is the only
induction over a repetition: it asks for the texts that the single items read.
-/

namespace DottedPath.Parse

variable {α β : Type}

/-! ### Sequencing -/

theorem run_pure (a : α) (cs : List Char) : (pure a : Parse α) cs = .ok (a, cs) := rfl

theorem run_bind_of_ok {x : Parse α} {f : α → Parse β} {cs rest : List Char} {a : α}
    (h : x cs = .ok (a, rest)) : (x >>= f) cs = f a rest := by
  show (x cs >>= fun p => f p.1 p.2) = f a rest
  rw [h]
  rfl

theorem run_bind_of_error {x : Parse α} {f : α → Parse β} {cs : List Char} {e : ParseFailure}
    (h : x cs = .error e) : (x >>= f) cs = .error e := by
  show (x cs >>= fun p => f p.1 p.2) = .error e
  rw [h]
  rfl

/-- What reads well as a whole does so step by step. -/
theorem bind_eq_ok {x : Parse α} {f : α → Parse β} {cs rest : List Char} {b : β}
    (h : (x >>= f) cs = .ok (b, rest)) :
    ∃ a mid, x cs = .ok (a, mid) ∧ f a mid = .ok (b, rest) := by
  cases hx : x cs with
  | error e =>
    rw [run_bind_of_error hx] at h
    cases h
  | ok p =>
    rw [run_bind_of_ok hx] at h
    exact ⟨p.1, p.2, rfl, h⟩

theorem run_map_of_ok {x : Parse α} {f : α → β} {cs rest : List Char} {a : α}
    (h : x cs = .ok (a, rest)) : (f <$> x) cs = .ok (f a, rest) := by
  show (x cs >>= fun p => pure (f p.1, p.2)) = .ok (f a, rest)
  rw [h]
  rfl

/-! ### Characters -/

theorem run_get (cs : List Char) : (get : Parse (List Char)) cs = .ok (cs, cs) := rfl

theorem run_set (cs ds : List Char) : (set ds : Parse PUnit) cs = .ok (⟨⟩, ds) := rfl

theorem run_peek (cs : List Char) : peek cs = .ok (cs.head?, cs) := rfl

theorem run_skip (n : Nat) (cs : List Char) : skip n cs = .ok ((), cs.drop n) := rfl

theorem run_skipBlanks (cs : List Char) : skipBlanks cs = .ok ((), cs.dropWhile Text.isBlank) :=
  rfl

theorem run_takeWhile (p : Char → Bool) (cs : List Char) :
    takeWhile p cs = .ok (cs.takeWhile p, cs.dropWhile p) := rfl

theorem run_lookingAt (text : String) (cs : List Char) :
    lookingAt text cs = .ok (text.toList.isPrefixOf cs, cs) := rfl

theorem run_quoteAt (offset : Nat) (cs : List Char) :
    quoteAt offset cs = .ok (cs[offset]?.any isQuote, cs) := rfl

/-- A character that comes next is taken. -/
theorem eat_cons_self (c : Char) (cs : List Char) : eat c (c :: cs) = .ok (true, cs) := by
  rw [eat, run_bind_of_ok (run_peek _), if_pos (by simp)]
  rfl

/-- A character that does not come next is not taken. -/
theorem eat_of_head?_ne {c : Char} {cs : List Char} (h : cs.head? ≠ some c) :
    eat c cs = .ok (false, cs) := by
  rw [eat, run_bind_of_ok (run_peek _), if_neg (by simpa using h)]
  rfl

theorem expect_cons_self (c : Char) (cs : List Char) : expect c (c :: cs) = .ok ((), cs) := by
  rw [expect, run_bind_of_ok (run_peek _)]
  simp only [List.head?_cons, BEq.rfl, ite_true]
  rfl

/-- A text that does not come next is not taken. -/
theorem eatText_of_no_match {text : String} {cs : List Char}
    (h : text.toList.isPrefixOf cs = false) : eatText text cs = .ok (false, cs) := by
  rw [eatText, run_bind_of_ok (run_lookingAt _ _), h]
  rfl

theorem eatText_of_head?_ne {text : String} {c : Char} {cs : List Char}
    (htext : text.toList.head? = some c) (h : cs.head? ≠ some c) :
    eatText text cs = .ok (false, cs) := by
  refine eatText_of_no_match ?_
  obtain ⟨ds, hds⟩ := List.head?_eq_some_iff.mp htext
  rw [hds]
  cases cs with
  | nil => rfl
  | cons d cs =>
    have hd : (c == d) = false := beq_eq_false_iff_ne.mpr fun hcd => h (by rw [hcd]; rfl)
    rw [List.isPrefixOf, hd, Bool.false_and]

theorem attempt_of_ok {r : Parse α} {cs rest : List Char} {a : α} (h : r cs = .ok (a, rest)) :
    attempt r cs = .ok (some a, rest) := by
  rw [attempt, h]

theorem attempt_of_error {r : Parse α} {cs : List Char} {e : ParseFailure} (h : r cs = .error e) :
    attempt r cs = .ok (none, cs) := by
  rw [attempt, h]

/-- Nothing is skipped before a character that is not blank. -/
theorem skipBlanks_of_head? {cs : List Char} (h : ∀ c ∈ cs.head?, Text.isBlank c = false) :
    skipBlanks cs = .ok ((), cs) := by
  rw [run_skipBlanks]
  cases cs with
  | nil => rfl
  | cons c cs => rw [List.dropWhile_cons_of_neg (by simpa using h c rfl)]

/-- Nothing is taken before a character that fails the test. -/
theorem takeWhile_of_head? {p : Char → Bool} {cs : List Char} (h : ∀ c ∈ cs.head?, p c = false) :
    takeWhile p cs = .ok ([], cs) := by
  rw [run_takeWhile]
  cases cs with
  | nil => rfl
  | cons c cs =>
    have hc := h c rfl
    rw [List.takeWhile_cons_of_neg (by simpa using hc), List.dropWhile_cons_of_neg (by simpa using hc)]

theorem bytesAhead_of_second {cs : List Char} (h : ∀ c ∈ cs[1]?, isQuote c = false) :
    bytesAhead cs = .ok (false, cs) := by
  rw [bytesAhead, run_bind_of_ok (run_peek _), run_bind_of_ok (run_quoteAt _ _), run_pure]
  have : cs[1]?.any isQuote = false := by
    cases h1 : cs[1]? with
    | none => rfl
    | some c => exact h c h1
  rw [this, Bool.and_false]

theorem numberAhead_of_head? {cs : List Char} (h : cs.head? ≠ some '#') :
    numberAhead cs = .ok (false, cs) := by
  rw [numberAhead, run_bind_of_ok (run_peek _), run_bind_of_ok (run_quoteAt _ _), run_pure]
  simp [h]

/-! ### Repetition -/

/-- The item reads the answers from one text to the next, and nothing from the last. -/
inductive Reads (item : Parse (Option α)) : List Char → List α → List Char → Prop where
  | done {cs} (stops : item cs = .ok (none, cs)) : Reads item cs [] cs
  | step {cs mid rest x xs} (reads : item cs = .ok (some x, mid)) (more : Reads item mid xs rest) :
    Reads item cs (x :: xs) rest

/-- A repetition that is allowed more rounds than there are items reads them all. -/
theorem manyWithin_of_reads {item : Parse (Option α)} {cs rest : List Char} {xs : List α}
    (h : Reads item cs xs rest) : ∀ n, xs.length < n → manyWithin item n cs = .ok (xs, rest) := by
  induction h with
  | done stops =>
    intro n hn
    obtain ⟨n, rfl⟩ : ∃ m, n = m + 1 := ⟨n - 1, by simp at hn; omega⟩
    rw [manyWithin, run_bind_of_ok stops]
    rfl
  | step reads _ ih =>
    intro n hn
    obtain ⟨n, rfl⟩ : ∃ m, n = m + 1 := ⟨n - 1, by simp at hn; omega⟩
    rw [manyWithin, run_bind_of_ok reads]
    dsimp only
    rw [run_bind_of_ok (ih n (by simp at hn; omega))]
    rfl

/-- Items of which each takes a character at least are all read. -/
theorem many_of_reads {item : Parse (Option α)} {cs rest : List Char} {xs : List α}
    (h : Reads item cs xs rest) (hn : xs.length ≤ cs.length) : many item cs = .ok (xs, rest) := by
  rw [many, run_bind_of_ok (run_get _)]
  exact manyWithin_of_reads h _ (by omega)

end DottedPath.Parse

import DottedPath.Proofs.Path.KeyToken

/-!
# Integers as tokens, read back

An integer is printed as its digits, after a minus sign if it is negative.  Two readers take that
text: `optionalInt` for a bound of a slice or of a depth window, and `keyLiteral` for a key.  Both go
through `Decimal.readInt?`, which reads back every integer of sixty-four bits
(`Decimal.readInt?_intText`).
-/

namespace DottedPath

/-! ### Digits -/

namespace Decimal

theorem natDigits_ne_nil (n : Nat) : natDigits n ≠ [] :=
  Nat.toDigits_ne_nil

theorem isDigit_of_mem_natDigits {n : Nat} {c : Char} (h : c ∈ natDigits n) : c.isDigit = true :=
  Nat.isDigit_of_mem_toDigits (by decide) (by decide) h

theorem digitValue?_of_isDigit {c : Char} (h : c.isDigit = true) :
    digitValue? 10 c = some (c.toNat - 48) := by
  simp only [Char.isDigit, Bool.and_eq_true, decide_eq_true_eq, ge_iff_le] at h
  have hle : c.toNat ≤ 57 := h.2
  have hlt : c.toNat - 48 < 10 := by omega
  have hrange : ('0' ≤ c && c ≤ '9') = true :=
    Bool.and_eq_true_iff.mpr ⟨decide_eq_true h.1, decide_eq_true h.2⟩
  rw [digitValue?, if_pos hrange, Option.filter_some, if_pos (decide_eq_true hlt)]

theorem foldlM_digitValue? (cs : List Char) (h : ∀ c ∈ cs, c.isDigit = true) (n : Nat) :
    cs.foldlM (fun n c => (digitValue? 10 c).map (10 * n + ·)) n = some (Nat.ofDigitChars 10 cs n) := by
  induction cs generalizing n with
  | nil => rfl
  | cons c cs ih =>
    rw [List.foldlM_cons, digitValue?_of_isDigit (h c (List.mem_cons_self ..)), Option.map_some]
    show cs.foldlM _ (10 * n + (c.toNat - 48)) = _
    rw [ih (fun d hd => h d (List.mem_cons_of_mem _ hd)), Nat.ofDigitChars_cons]
    rfl

/-- The digits of a number are read back. -/
theorem readNat?_natDigits (n : Nat) : readNat? 10 (natDigits n) = some n := by
  obtain ⟨c, cs, hcs⟩ := List.exists_cons_of_ne_nil (natDigits_ne_nil n)
  have hdigits : ∀ d ∈ c :: cs, d.isDigit = true := fun d hd =>
    isDigit_of_mem_natDigits (n := n) (hcs ▸ hd)
  rw [hcs, readNat?, foldlM_digitValue? _ hdigits, ← hcs, natDigits, Nat.ofDigitChars_ten_toDigits]

/-- What stands before the digits of an integer. -/
def minus (i : Int) : List Char :=
  if i < 0 then ['-'] else []

theorem toList_intText (i : Int) : (intText i).toList = minus i ++ natDigits i.natAbs := by
  rw [intText, minus]
  split
  · rw [String.toList_append, natText, String.toList_ofList]
    simp
  · rw [natText, String.toList_ofList]
    rfl

/-- The head of the digits of a number is a digit. -/
theorem natDigits_eq_cons (n : Nat) : ∃ c cs, natDigits n = c :: cs ∧ c.isDigit = true := by
  obtain ⟨c, cs, hcs⟩ := List.exists_cons_of_ne_nil (natDigits_ne_nil n)
  exact ⟨c, cs, hcs, isDigit_of_mem_natDigits (n := n) (hcs ▸ List.mem_cons_self ..)⟩

/-- **An integer of sixty-four bits is read back from its text.** -/
theorem readInt?_intText {i : Int} (hi : Word.fits i = true) :
    readInt? 10 (intText i).toList = some i := by
  rw [toList_intText, minus]
  split
  · next hneg =>
    have habs : -((i.natAbs : Nat) : Int) = i := by omega
    show (readNat? 10 (natDigits i.natAbs)).bind _ = some i
    rw [readNat?_natDigits, Option.bind_some, habs, Word.checked?, if_pos hi]
  · next hpos =>
    have habs : ((i.natAbs : Nat) : Int) = i := by omega
    obtain ⟨c, cs, hcs, hc⟩ := natDigits_eq_cons i.natAbs
    rw [List.nil_append, hcs, readInt?, ← hcs, readNat?_natDigits, Option.bind_some, habs,
      Word.checked?, if_pos hi]
    · rintro _ ⟨⟩
      exact absurd hc (by decide)
    · rintro _ ⟨⟩
      exact absurd hc (by decide)

end Decimal

/-! ### Number tokens -/

namespace Number

theorem isGrouped_of_isDigit {cs : List Char} (hne : cs ≠ []) (h : ∀ c ∈ cs, c.isDigit = true) :
    isGrouped cs = true := by
  have hbar : ∀ c ∈ cs, c ≠ '_' := by
    rintro c hc rfl
    exact absurd (h _ hc) (by decide)
  have hpairs : (cs.zip cs.tail).any (fun p => p.1 == '_' && p.2 == '_') = false := by
    rw [List.any_eq_false]
    rintro ⟨a, b⟩ hab
    have ha := hbar a (List.of_mem_zip hab).1
    simp [ha]
  have hlast : cs.getLast? ≠ some '_' := fun hl => hbar _ (List.mem_of_getLast? hl) rfl
  have hhead : cs.head? ≠ some '_' := fun hh => hbar _ (List.mem_of_head? hh) rfl
  have hall : cs.all (fun c => c.isDigit || c == '_') = true :=
    List.all_eq_true.mpr fun c hc => by rw [h c hc, Bool.true_or]
  rw [isGrouped, hpairs, hall]
  simp [hne, hlast, hhead]

theorem markedBase?_of_isDigit {cs : List Char} (h : ∀ c ∈ cs, c.isDigit = true) :
    markedBase? cs = none := by
  unfold markedBase?
  split <;> first | rfl | exact absurd (h _ (List.mem_cons_of_mem _ (List.mem_cons_self ..))) (by decide)

theorem unsigned_intText (i : Int) :
    unsigned (Decimal.intText i).toList = Decimal.natDigits i.natAbs := by
  rw [Decimal.toList_intText, Decimal.minus]
  split
  · rfl
  · obtain ⟨c, cs, hcs, hc⟩ := Decimal.natDigits_eq_cons i.natAbs
    rw [List.nil_append, hcs]
    refine unsigned_of_head? ?_
    rintro ⟨⟩
    exact absurd hc (by decide)

/-- The characters of an integer are its sign and digits. -/
theorem of_mem_intText {i : Int} {c : Char} (h : c ∈ (Decimal.intText i).toList) :
    c = '-' ∨ c.isDigit = true := by
  rw [Decimal.toList_intText, List.mem_append] at h
  rcases h with h | h
  · rw [Decimal.minus] at h
    split at h
    · exact .inl (List.mem_singleton.mp h)
    · cases h
  · exact .inr (Decimal.isDigit_of_mem_natDigits h)

/-- The text of an integer is a number token. -/
theorem isToken_intText (i : Int) : isToken (Decimal.intText i).toList = true := by
  have hgrouped := isGrouped_of_isDigit (Decimal.natDigits_ne_nil i.natAbs) fun c hc =>
    Decimal.isDigit_of_mem_natDigits hc
  rw [isToken, unsigned_intText, hgrouped, Bool.true_or, Bool.true_or]

/-- As a number token an integer is read back. -/
theorem read?_intText {i : Int} (hi : Word.fits i = true) :
    read? (Decimal.intText i).toList = some (.int i) := by
  have hblank : ∀ c ∈ (Decimal.intText i).toList, Text.isBlank c = false := by
    intro c hc
    rcases of_mem_intText hc with rfl | hd
    · decide
    · exact Text.isBlank_of_isDigit (by rw [hd, Bool.true_or])
  have hbar : (Decimal.intText i).toList.filter (· != '_') = (Decimal.intText i).toList := by
    refine List.filter_eq_self.mpr fun c hc => ?_
    rcases of_mem_intText hc with rfl | hd
    · decide
    · rw [bne_iff_ne]
      rintro rfl
      exact absurd hd (by decide)
  have hbase := markedBase?_of_isDigit fun c (hc : c ∈ Decimal.natDigits i.natAbs) =>
    Decimal.isDigit_of_mem_natDigits hc
  simp only [read?, Text.trim_of_forall hblank, hbar, unsigned_intText, hbase,
    Decimal.readInt?_intText hi]

end Number

/-! ### Reading -/

namespace Parse

theorem isWordChar_of_isDigit {c : Char} (h : c.isDigit = true) : isWordChar c = true ∧ c ≠ '\\' := by
  have hreserved : isReserved c = false := by
    by_contra hr
    have hmem : c ∈ reservedChars := List.contains_iff_mem.mp (Bool.not_eq_false _ ▸ hr)
    have hdigits : reservedChars.all (!·.isDigit) = true := by decide
    have hdigit := List.all_eq_true.mp hdigits c hmem
    rw [h] at hdigit
    cases hdigit
  have hquote : isQuote c = false := by
    by_contra hq
    rcases Bool.or_eq_true_iff.mp (Bool.not_eq_false _ ▸ hq) with hc | hc <;>
      exact absurd (eq_of_beq hc ▸ h) (by decide)
  refine ⟨?_, ?_⟩
  · rw [isWordChar, hreserved, hquote, Text.isBlank_of_isDigit (by rw [h, Bool.true_or])]
    rfl
  · rintro rfl
    exact absurd h (by decide)

/-- The text of an integer is a word. -/
theorem isWord_intText (i : Int) : IsWord (Decimal.intText i).toList := by
  refine ⟨fun hnil => ?_, fun c hc => ?_⟩
  · rw [Decimal.toList_intText] at hnil
    exact Decimal.natDigits_ne_nil _ (List.append_eq_nil_iff.mp hnil).2
  · rcases Number.of_mem_intText hc with rfl | hd
    · decide
    · exact isWordChar_of_isDigit hd

theorem takeWhile_isDigit_natDigits {n : Nat} {rest : List Char}
    (hr : ∀ c ∈ rest.head?, c.isDigit = false) :
    takeWhile Char.isDigit (Decimal.natDigits n ++ rest) = .ok (Decimal.natDigits n, rest) := by
  have hdigits : ∀ c ∈ Decimal.natDigits n, c.isDigit = true := fun c hc =>
    Decimal.isDigit_of_mem_natDigits hc
  rw [run_takeWhile, List.takeWhile_append_of_pos hdigits, List.dropWhile_append_of_pos hdigits]
  have hstop := takeWhile_of_head? hr
  rw [run_takeWhile] at hstop
  obtain ⟨htake, hdrop⟩ := Prod.mk.inj (Except.ok.inj hstop)
  rw [htake, hdrop, List.append_nil]

/-- An integer as a bound is read back before anything but a digit. -/
theorem optionalInt_intText {i : Int} (hi : Word.fits i = true) {rest : List Char}
    (hr : ∀ c ∈ rest.head?, c.isDigit = false) :
    optionalInt ((Decimal.intText i).toList ++ rest) = .ok (some i, rest) := by
  have hread := Decimal.readInt?_intText hi
  obtain ⟨c, cs, hcs, hc⟩ := Decimal.natDigits_eq_cons i.natAbs
  have hempty : (Decimal.natDigits i.natAbs).isEmpty = false := by
    rw [hcs]
    rfl
  rw [Decimal.toList_intText, Decimal.minus] at hread ⊢
  rw [optionalInt, run_bind_of_ok (run_get _)]
  split at hread
  · next hneg =>
    rw [if_pos hneg]
    show (eat '-' >>= _) ('-' :: (Decimal.natDigits i.natAbs ++ rest)) = _
    rw [run_bind_of_ok (eat_cons_self _ _), run_bind_of_ok (takeWhile_isDigit_natDigits hr), hempty]
    simp only [Bool.not_true, Bool.and_false, Bool.false_eq_true, if_false, if_true]
    rw [← List.singleton_append, hread]
    rfl
  · next hpos =>
    rw [if_neg hpos, List.nil_append]
    have hhead : (Decimal.natDigits i.natAbs ++ rest).head? ≠ some '-' := by
      rw [hcs]
      rintro ⟨⟩
      exact absurd hc (by decide)
    rw [run_bind_of_ok (eat_of_head?_ne hhead), run_bind_of_ok (takeWhile_isDigit_natDigits hr),
      hempty]
    simp only [Bool.and_false, Bool.false_eq_true, if_false]
    rw [← List.nil_append (Decimal.natDigits i.natAbs), hread]
    rfl

/-- Before anything but a digit or a minus sign no bound is read. -/
theorem optionalInt_of_head? {cs : List Char} (hd : ∀ c ∈ cs.head?, c.isDigit = false)
    (hminus : cs.head? ≠ some '-') : optionalInt cs = .ok (none, cs) := by
  rw [optionalInt, run_bind_of_ok (run_get _), run_bind_of_ok (eat_of_head?_ne hminus),
    run_bind_of_ok (takeWhile_of_head? hd)]
  rfl

/-- **An integer key is read back from its token.** -/
theorem keyLiteral_intText {i : Int} (hi : Word.fits i = true) {rest : List Char}
    (hr : EndsWord rest) :
    keyLiteral ((Decimal.intText i).toList ++ rest) = .ok (.int i, rest) := by
  rw [keyLiteral_of_isWord (isWord_intText i) hr, wordLiteral, Number.isToken_intText,
    Number.read?_intText hi]
  rfl

end Parse

end DottedPath

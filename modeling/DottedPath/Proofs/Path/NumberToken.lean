import DottedPath.Proofs.Path.IntegerToken

/-!
# Number tokens with an exponent

A word of digits, an exponent sign and an exponent reads as a number, whatever its size
(`Number.exists_read?_of_isExponential`): digits make a double, and a double that is far too large
is infinite.  An integer in a marked base is different, it may be out of range.
-/

namespace DottedPath

namespace Decimal

/-- The digits of base ten are the decimal ones. -/
theorem isDigit_of_digitValue? {c : Char} (h : (digitValue? 10 c).isSome = true) :
    c.isDigit = true := by
  unfold digitValue? at h
  split at h
  · next hc => simpa [Char.isDigit, Char.le_def] using hc
  · split at h
    · next hc =>
      have hle : 97 ≤ c.toNat := by
        simp only [Bool.and_eq_true, decide_eq_true_eq, Char.le_def, UInt32.le_iff_toNat_le] at hc
        exact hc.1
      have hlt : c.toNat - 87 < 10 := by simpa [Option.isSome_filter] using h
      omega
    · split at h
      · next hc =>
        have hle : 65 ≤ c.toNat := by
          simp only [Bool.and_eq_true, decide_eq_true_eq, Char.le_def, UInt32.le_iff_toNat_le] at hc
          exact hc.1
        have hlt : c.toNat - 55 < 10 := by simpa [Option.isSome_filter] using h
        omega
      · cases h

/-- Decimal digits read as a number. -/
theorem exists_readNat? {cs : List Char} (hne : cs ≠ []) (h : ∀ c ∈ cs, c.isDigit = true) :
    ∃ n, readNat? 10 cs = some n := by
  obtain ⟨c, ds, rfl⟩ := List.exists_cons_of_ne_nil hne
  exact ⟨_, foldlM_digitValue? _ h 0⟩

theorem takeWhile_digits {ds rest : List Char} (h : ∀ c ∈ ds, c.isDigit = true)
    (hr : ∀ c ∈ rest.head?, c.isDigit = false) :
    (ds ++ rest).takeWhile Char.isDigit = ds ∧ (ds ++ rest).dropWhile Char.isDigit = rest := by
  rw [List.takeWhile_append_of_pos h, List.dropWhile_append_of_pos h]
  cases rest with
  | nil => exact ⟨by simp, rfl⟩
  | cons c rest =>
    have hc : ¬c.isDigit = true := by simp [hr c rfl]
    rw [List.takeWhile_cons_of_neg hc, List.dropWhile_cons_of_neg hc, List.append_nil]
    exact ⟨rfl, rfl⟩

end Decimal

namespace Number

/-- A number with an exponent: digits and underscores from a digit on, the letter, and digits behind
a sign or none. -/
structure ExponentForm (cs : List Char) (d : Char) (body : List Char) (e : Char)
    (sign digits : List Char) : Prop where
  eq : cs = d :: body ++ e :: (sign ++ digits)
  first : d.isDigit = true
  body : ∀ c ∈ body, (c.isDigit || c == '_') = true
  letter : e = 'e' ∨ e = 'E'
  sign : sign = [] ∨ sign = ['+'] ∨ sign = ['-']
  digits_ne : digits ≠ []
  digits : ∀ c ∈ digits, c.isDigit = true

theorem isDigits_ten {cs : List Char} (h : isDigits 10 cs = true) :
    cs ≠ [] ∧ ∀ c ∈ cs, c.isDigit = true := by
  simp only [isDigits, Bool.and_eq_true, Bool.not_eq_true', List.isEmpty_eq_false_iff,
    List.all_eq_true] at h
  exact ⟨h.1, fun c hc => Decimal.isDigit_of_digitValue? (h.2 c hc)⟩

theorem exists_exponentForm {cs : List Char} (h : isExponential cs = true) :
    ∃ d body e sign digits, ExponentForm cs d body e sign digits := by
  unfold isExponential at h
  split at h
  · next d ds =>
    simp only [Bool.and_eq_true] at h
    obtain ⟨hd, h⟩ := h
    have hbody : (d.isDigit || d == '_') = true := by rw [hd, Bool.true_or]
    rw [List.dropWhile_cons_of_pos (by exact hbody)] at h
    split at h
    · next e x rest hdrop =>
      simp only [Bool.and_eq_true, Bool.or_eq_true, beq_iff_eq] at h
      obtain ⟨he, hdigits⟩ := h
      have hsplit := List.takeWhile_append_dropWhile
        (p := fun c : Char => c.isDigit || c == '_') (l := ds)
      rw [hdrop] at hsplit
      have form (sign digits : List Char) (hsign : sign = [] ∨ sign = ['+'] ∨ sign = ['-'])
          (hx : x :: rest = sign ++ digits) (hds : isDigits 10 digits = true) :
          ∃ first body letter sign digits, ExponentForm (d :: ds) first body letter sign digits :=
        ⟨d, ds.takeWhile fun c => c.isDigit || c == '_', e, sign, digits,
          { eq := by rw [← hx, List.cons_append, hsplit]
            first := hd
            body := fun c hc => List.all_eq_true.mp List.all_takeWhile c hc
            letter := he
            sign := hsign
            digits_ne := (isDigits_ten hds).1
            digits := (isDigits_ten hds).2 }⟩
      -- the sign belongs to the exponent only if it is there
      split at hdigits
      · next hx =>
        rcases hx with rfl | rfl
        · exact form ['+'] rest (by simp) rfl hdigits
        · exact form ['-'] rest (by simp) rfl hdigits
      · exact form [] (x :: rest) (by simp) rfl hdigits
    · cases h
  · cases h

namespace ExponentForm

variable {cs body sign digits : List Char} {d e : Char}

theorem isBlank_eq_false (f : ExponentForm cs d body e sign digits) {c : Char} (hc : c ∈ cs) :
    Text.isBlank c = false := by
  rw [f.eq] at hc
  simp only [List.cons_append, List.mem_cons, List.mem_append] at hc
  rcases hc with rfl | hc | rfl | hc | hc
  · exact Text.isBlank_of_isDigit (by rw [f.first, Bool.true_or])
  · exact Text.isBlank_of_isDigit (f.body c hc)
  · rcases f.letter with rfl | rfl <;> decide
  · rcases f.sign with rfl | rfl | rfl
    · cases hc
    · rw [List.mem_singleton.mp hc]
      decide
    · rw [List.mem_singleton.mp hc]
      decide
  · exact Text.isBlank_of_isDigit (by rw [f.digits c hc, Bool.true_or])

theorem ne_bar_of_isDigit {c : Char} (h : c.isDigit = true) : (c != '_') = true := by
  rw [bne_iff_ne]
  rintro rfl
  exact absurd h (by decide)

/-- Without its underscores it is of the same form. -/
theorem filter (f : ExponentForm cs d body e sign digits) :
    ExponentForm (cs.filter (· != '_')) d (body.filter (· != '_')) e sign digits ∧
      ∀ c ∈ body.filter (· != '_'), c.isDigit = true := by
  have hbody : ∀ c ∈ body.filter (· != '_'), c.isDigit = true := by
    intro c hc
    obtain ⟨hmem, hbar⟩ := List.mem_filter.mp hc
    rcases Bool.or_eq_true_iff.mp (f.body c hmem) with hd | hd
    · exact hd
    · rw [eq_of_beq hd] at hbar
      cases hbar
  have hletter : (e != '_') = true := by
    rcases f.letter with rfl | rfl <;> decide
  have hsign : sign.filter (· != '_') = sign := by
    rcases f.sign with rfl | rfl | rfl <;> decide
  have hdigits : digits.filter (· != '_') = digits :=
    List.filter_eq_self.mpr fun c hc => ne_bar_of_isDigit (f.digits c hc)
  refine ⟨{ f with eq := ?_, body := fun c hc => ?_ }, hbody⟩
  · rw [f.eq, List.cons_append, List.filter_cons_of_pos (by exact ne_bar_of_isDigit f.first),
      List.filter_append, List.filter_cons_of_pos (by exact hletter), List.filter_append, hsign,
      hdigits]
    rfl
  · rw [hbody c hc, Bool.true_or]

/-- It marks no base. -/
theorem markedBase? (f : ExponentForm cs d body e sign digits)
    (hbody : ∀ c ∈ body, c.isDigit = true) : markedBase? cs = none := by
  obtain ⟨c, ds, hcs, hc⟩ : ∃ c ds, cs = d :: c :: ds ∧ c ∉ ['x', 'X', 'o', 'O', 'b', 'B'] := by
    cases body with
    | nil =>
      refine ⟨e, _, f.eq, ?_⟩
      rcases f.letter with rfl | rfl <;> decide
    | cons c body =>
      refine ⟨c, _, f.eq, fun hc => ?_⟩
      have hall : ['x', 'X', 'o', 'O', 'b', 'B'].all (!·.isDigit) = true := by decide
      have hnot := List.all_eq_true.mp hall c hc
      rw [hbody c (List.mem_cons_self ..)] at hnot
      cases hnot
  rw [hcs]
  unfold Number.markedBase?
  split <;> first | rfl | (rename_i heq; cases heq; exact absurd (by decide) hc)

theorem exists_readExponent? (f : ExponentForm cs d body e sign digits) :
    ∃ x, Decimal.readExponent? (sign ++ digits) = some x := by
  obtain ⟨n, hn⟩ := Decimal.exists_readNat? f.digits_ne f.digits
  rcases f.sign with rfl | rfl | rfl
  · obtain ⟨c, ds, rfl⟩ := List.exists_cons_of_ne_nil f.digits_ne
    have hc := f.digits c (List.mem_cons_self ..)
    refine ⟨n, ?_⟩
    rw [List.nil_append, Decimal.readExponent?, hn]
    · rfl
    · rintro _ ⟨⟩
      exact absurd hc (by decide)
    · rintro _ ⟨⟩
      exact absurd hc (by decide)
  · exact ⟨n, by rw [List.singleton_append, Decimal.readExponent?, hn]; rfl⟩
  · exact ⟨-(n : Int), by rw [List.singleton_append, Decimal.readExponent?, hn]; rfl⟩

/-- Its digits and its exponent make a double. -/
theorem exists_readUnsigned? (f : ExponentForm cs d body e sign digits)
    (hbody : ∀ c ∈ body, c.isDigit = true) : ∃ x, Decimal.readUnsigned? cs = some x := by
  have hdigits : ∀ c ∈ d :: body, c.isDigit = true := List.forall_mem_cons.mpr ⟨f.first, hbody⟩
  have hletter : e.isDigit = false := by rcases f.letter with rfl | rfl <;> decide
  obtain ⟨n, hn⟩ := Decimal.exists_readNat? (List.cons_ne_nil _ _) hdigits
  obtain ⟨x, hx⟩ := f.exists_readExponent?
  have hend : ∀ c ∈ (e :: (sign ++ digits)).head?, c.isDigit = false := by
    rintro c ⟨⟩
    exact hletter
  obtain ⟨htake, hdrop⟩ := Decimal.takeWhile_digits hdigits hend
  have hmagnitude : Decimal.readMagnitude? cs = some (Decimal.floatOf n x) := by
    rw [f.eq, Decimal.readMagnitude?, htake, hdrop]
    rcases f.letter with rfl | rfl
    · show (Decimal.readNat? 10 (d :: body ++ [])).bind _ = _
      rw [List.append_nil, hn]
      simp [hx]
    · show (Decimal.readNat? 10 (d :: body ++ [])).bind _ = _
      rw [List.append_nil, hn]
      simp [hx]
  rw [Decimal.readUnsigned?]
  split
  · exact ⟨_, rfl⟩
  · split
    · exact ⟨_, rfl⟩
    · exact ⟨_, hmagnitude⟩

end ExponentForm

/-- A text is its unsigned part, or that behind a minus sign. -/
theorem eq_unsigned_or (cs : List Char) : cs = unsigned cs ∨ cs = '-' :: unsigned cs := by
  unfold unsigned
  split
  · exact .inr rfl
  · exact .inl rfl

/-- **A number with an exponent is read as a number.** -/
theorem exists_read?_of_isExponential {cs : List Char} (h : isExponential (unsigned cs) = true) :
    ∃ l, read? cs = some l := by
  obtain ⟨d, body, e, sign, digits, f⟩ := exists_exponentForm h
  have hblank : ∀ c ∈ cs, Text.isBlank c = false := by
    intro c hc
    rcases eq_unsigned_or cs with hcs | hcs <;> rw [hcs] at hc
    · exact f.isBlank_eq_false hc
    · rcases List.mem_cons.mp hc with rfl | hc
      · decide
      · exact f.isBlank_eq_false hc
  obtain ⟨g, hbody⟩ := f.filter
  obtain ⟨x, hx⟩ := g.exists_readUnsigned? hbody
  have hhead : ((unsigned cs).filter (· != '_')).head? ≠ some '-' := by
    rw [g.eq]
    rintro ⟨⟩
    exact absurd g.first (by decide)
  have hplus : ((unsigned cs).filter (· != '_')).head? ≠ some '+' := by
    rw [g.eq]
    rintro ⟨⟩
    exact absurd g.first (by decide)
  -- The sign is kept with the digits, and taken off by the readers.
  obtain ⟨hbase, y, hy⟩ : markedBase? (unsigned (cs.filter (· != '_'))) = none ∧
      ∃ y, Decimal.readFloat? (cs.filter (· != '_')) = some y := by
    rcases eq_unsigned_or cs with hcs | hcs
    · rw [← hcs] at hhead hplus g hx
      rw [unsigned_of_head? hhead]
      refine ⟨g.markedBase? hbody, x, ?_⟩
      rw [Decimal.readFloat?, hx]
      · rintro ds hds
        rw [hds] at hhead
        exact hhead rfl
      · rintro ds hds
        rw [hds] at hplus
        exact hplus rfl
    · have hminus : cs.filter (· != '_') = '-' :: (unsigned cs).filter (· != '_') := by
        conv_lhs => rw [hcs]
        rfl
      rw [hminus]
      exact ⟨g.markedBase? hbody, x.neg, by rw [Decimal.readFloat?, hx]; rfl⟩
  rw [read?, Text.trim_of_forall hblank, hbase]
  dsimp only
  split
  · exact ⟨_, rfl⟩
  · exact ⟨_, by rw [hy]; rfl⟩

/-- A number is not read as a text. -/
theorem read?_ne_str (cs : List Char) (text : String) : read? cs ≠ some (.str text) := by
  unfold read?
  intro h
  dsimp only at h
  split at h
  · rw [Option.map_eq_some_iff] at h
    obtain ⟨_, _, hl⟩ := h
    cases hl
  · split at h
    · cases h
    · rw [Option.map_eq_some_iff] at h
      obtain ⟨f, -, hl⟩ := h
      split at hl
      · split at hl <;> cases hl
      · cases hl

end Number

end DottedPath

import DottedPath.Regex.Pattern
import Mathlib.Logic.Function.Iterate

/-!
# Marks and matches

A match of an expression takes the units between two positions of a text: `Pattern.Takes` says which,
by the form of the expression.  The matcher follows all matches at once, as rows of marks
(`Pattern.advance`).  A position is marked after an expression exactly when a match from a marked
position ends there.

An unbounded repetition is tried as often as the text has positions.  That is enough: a row that
changes gains a mark, and there are no more marks than positions (`iterate_more_fixed`).

## Main statements

- `Pattern.marked_advance`: the row after an expression.
- `Pattern.matchesWithin_iff`: the matcher finds a match whenever there is one.
-/

namespace DottedPath.Regex

/-- A number of steps of a relation, one after the other. -/
def Repeated (R : Nat → Nat → Prop) : Nat → Nat → Nat → Prop
  | 0, i, j => i = j
  | n + 1, i, j => ∃ m, R i m ∧ Repeated R n m j

/-- A match of the expression takes the units of the text from one position up to another. -/
def Pattern.Takes (text : List Nat) : Pattern → Nat → Nat → Prop
  | empty, i, j => i = j
  | unit set, i, j => j = i + 1 ∧ ∃ n, text[i]? = some n ∧ set.contains n = true
  | look l, i, j => i = j ∧ ∃ u, (surroundings none text)[i]? = some u ∧ l.holds u.1 u.2 = true
  | seq a b, i, j => ∃ m, a.Takes text i m ∧ b.Takes text m j
  | alt a b, i, j => a.Takes text i j ∨ b.Takes text i j
  | repeated a min max, i, j =>
    ∃ n, min ≤ n ∧ (∀ most, max = some most → n ≤ min + (most - min)) ∧
      Repeated (a.Takes text) n i j

/-! ### Rows of marks -/

/-- A position is marked. -/
def Marked (marks : Marks) (i : Nat) : Prop := marks[i]? = some true

theorem length_joinMarks {a b : Marks} (h : a.length = b.length) :
    (joinMarks a b).length = a.length := by
  rw [joinMarks, List.length_zipWith, ← h, Nat.min_self]

theorem marked_joinMarks {a b : Marks} (h : a.length = b.length) (i : Nat) :
    Marked (joinMarks a b) i ↔ Marked a i ∨ Marked b i := by
  induction a generalizing b i with
  | nil =>
    cases b with
    | nil => simp [Marked, joinMarks]
    | cons => simp at h
  | cons x a ih =>
    cases b with
    | nil => simp at h
    | cons y b =>
      cases i with
      | zero => simp [Marked, joinMarks]
      | succ i => simpa [Marked, joinMarks] using ih (Nat.succ.inj h) i

/-- A row that is narrowed down by a test at each position. -/
theorem marked_zipWith {α : Type} (test : α → Bool) {xs : List α} {row : Marks} (j : Nat) :
    Marked (List.zipWith (fun x marked => marked && test x) xs row) j ↔
      Marked row j ∧ ∃ x, xs[j]? = some x ∧ test x = true := by
  unfold Marked
  rw [List.getElem?_zipWith]
  cases xs[j]? with
  | none => simp
  | some x => cases row[j]? <;> simp

/-- A row that another one changes gains a mark. -/
theorem count_lt_of_joinMarks_ne {a b : Marks} (h : a.length = b.length)
    (hne : joinMarks a b ≠ a) : a.count true < (joinMarks a b).count true := by
  have hle : ∀ {a b : Marks}, a.length = b.length → a.count true ≤ (joinMarks a b).count true := by
    intro a
    induction a with
    | nil => simp
    | cons x a ih =>
      intro b h
      cases b with
      | nil => simp at h
      | cons y b =>
        have hab := ih (Nat.succ.inj h)
        cases x <;> cases y <;> simp [joinMarks] at hab ⊢ <;> omega
  induction a generalizing b with
  | nil => simp [joinMarks] at hne
  | cons x a ih =>
    cases b with
    | nil => simp at h
    | cons y b =>
      have hab := hle (Nat.succ.inj h)
      have := ih (Nat.succ.inj h)
      cases x <;> cases y <;> simp [joinMarks] at hne this hab ⊢ <;> first | omega | exact this hne

/-! ### Repeated steps -/

/-- Leaving off at a row that does not change any more makes no difference. -/
theorem iterate_eq (step : Marks → Marks) (n : Nat) (marks : Marks) :
    iterate step n marks = step^[n] marks := by
  induction n generalizing marks with
  | zero => rfl
  | succ n ih =>
    rw [iterate, Function.iterate_succ_apply]
    by_cases h : step marks = marks
    · simp only [h, beq_self_eq_true, if_true]
      exact (Function.iterate_fixed h n).symm
    · simp only [beq_iff_eq, h, if_false, ih]

/-- A step keeps the length of a row, and marks where a relation leads from the marked positions. -/
structure Follows (length : Nat) (step : Marks → Marks) (R : Nat → Nat → Prop) : Prop where
  length_step : ∀ row : Marks, row.length = length → (step row).length = length
  marked_step : ∀ row : Marks, row.length = length →
    ∀ j, Marked (step row) j ↔ ∃ i, Marked row i ∧ R i j

namespace Follows

variable {length : Nat} {step : Marks → Marks} {R : Nat → Nat → Prop}

theorem iterate (h : Follows length step R) (n : Nat) :
    Follows length step^[n] (Repeated R n) := by
  induction n with
  | zero => exact ⟨fun _ hrow => hrow, fun row _ j => by simp [Repeated]⟩
  | succ n ih =>
    refine ⟨fun row hrow => ?_, fun row hrow j => ?_⟩
    · rw [Function.iterate_succ_apply]
      exact ih.length_step _ (h.length_step row hrow)
    · rw [Function.iterate_succ_apply, ih.marked_step _ (h.length_step row hrow)]
      constructor
      · rintro ⟨m, hm, hj⟩
        obtain ⟨i, hi, him⟩ := (h.marked_step row hrow m).mp hm
        exact ⟨i, hi, m, him, hj⟩
      · rintro ⟨i, hi, m, him, hj⟩
        exact ⟨m, (h.marked_step row hrow m).mpr ⟨i, hi, him⟩, hj⟩

/-- Keeping the marks there are. -/
theorem more (h : Follows length step R) :
    Follows length (fun row => joinMarks row (step row)) fun i j => i = j ∨ R i j := by
  have hlength : ∀ row : Marks, row.length = length → row.length = (step row).length :=
    fun row hrow => hrow.trans (h.length_step row hrow).symm
  refine ⟨fun row hrow => (length_joinMarks (hlength row hrow)).trans hrow, fun row hrow j => ?_⟩
  rw [marked_joinMarks (hlength row hrow), h.marked_step row hrow]
  constructor
  · rintro (hj | ⟨i, hi, hij⟩)
    · exact ⟨j, hj, .inl rfl⟩
    · exact ⟨i, hi, .inr hij⟩
  · rintro ⟨i, hi, rfl | hij⟩
    · exact .inl hi
    · exact .inr ⟨i, hi, hij⟩

/-- Each round that keeps the marks either changes nothing from then on or adds one, so as many
rounds as there are positions reach a row that stays. -/
theorem iterate_more_fixed (h : Follows length step R) {row : Marks} (hrow : row.length = length) :
    let more := fun row => joinMarks row (step row)
    more (more^[length] row) = more^[length] row := by
  intro more
  have hlength : ∀ n, (more^[n] row).length = length :=
    fun n => (h.more.iterate n).length_step row hrow
  have hgrows : ∀ n, more (more^[n] row) ≠ more^[n] row →
      (more^[n] row).count true < (more (more^[n] row)).count true := fun n hne =>
    count_lt_of_joinMarks_ne ((hlength n).trans (h.length_step _ (hlength n)).symm) hne
  have hcount : ∀ n, more (more^[n] row) ≠ more^[n] row → n ≤ (more^[n] row).count true := by
    intro n
    induction n with
    | zero => simp
    | succ n ih =>
      rw [Function.iterate_succ_apply']
      intro hne
      have hne' : more (more^[n] row) ≠ more^[n] row := fun heq => hne (by rw [heq, heq])
      exact Nat.lt_of_le_of_lt (ih hne') (hgrows n hne')
  by_contra hne
  have hmost : (more (more^[length] row)).count true ≤ length := by
    rw [← Function.iterate_succ_apply' more]
    exact Nat.le_trans List.count_le_length (Nat.le_of_eq (hlength _))
  exact absurd (hcount length hne) (by have := hgrows length hne; omega)

end Follows

/-- Steps that may also stay are steps that do not, at most as many. -/
theorem repeated_or_eq (R : Nat → Nat → Prop) (n i j : Nat) :
    Repeated (fun i j => i = j ∨ R i j) n i j ↔ ∃ m ≤ n, Repeated R m i j := by
  induction n generalizing i with
  | zero => simp [Repeated]
  | succ n ih =>
    constructor
    · rintro ⟨m, rfl | him, hmj⟩
      · obtain ⟨k, hk, hij⟩ := (ih i).mp hmj
        exact ⟨k, Nat.le_succ_of_le hk, hij⟩
      · obtain ⟨k, hk, hmj⟩ := (ih m).mp hmj
        exact ⟨k + 1, Nat.succ_le_succ hk, m, him, hmj⟩
    · rintro ⟨k, hk, hij⟩
      cases k with
      | zero => exact ⟨i, .inl rfl, (ih i).mpr ⟨0, Nat.zero_le n, hij⟩⟩
      | succ k =>
        obtain ⟨m, him, hmj⟩ := hij
        exact ⟨m, .inr him, (ih m).mpr ⟨k, Nat.le_of_succ_le_succ hk, hmj⟩⟩

theorem repeated_add (R : Nat → Nat → Prop) (a b i j : Nat) :
    Repeated R (a + b) i j ↔ ∃ m, Repeated R a i m ∧ Repeated R b m j := by
  induction a generalizing i with
  | zero => simp [Repeated]
  | succ a ih =>
    rw [Nat.add_right_comm]
    constructor
    · rintro ⟨m, him, hmj⟩
      obtain ⟨k, hmk, hkj⟩ := (ih m).mp hmj
      exact ⟨k, ⟨m, him, hmk⟩, hkj⟩
    · rintro ⟨k, ⟨m, him, hmk⟩, hkj⟩
      exact ⟨m, him, (ih m).mpr ⟨k, hmk, hkj⟩⟩

/-- A least number of steps, and then up to some more. -/
theorem Follows.between {length : Nat} {step : Marks → Marks} {R : Nat → Nat → Prop}
    (h : Follows length step R) (min k : Nat) :
    Follows length (fun row => (fun row => joinMarks row (step row))^[k] (step^[min] row))
      fun i j => ∃ n, min ≤ n ∧ n ≤ min + k ∧ Repeated R n i j := by
  have hmin := h.iterate min
  have hmore := h.more.iterate k
  refine ⟨fun row hrow => hmore.length_step _ (hmin.length_step row hrow), fun row hrow j => ?_⟩
  rw [hmore.marked_step _ (hmin.length_step row hrow)]
  constructor
  · rintro ⟨m, hm, hmj⟩
    obtain ⟨i, hi, him⟩ := (hmin.marked_step row hrow m).mp hm
    obtain ⟨n, hn, hmj⟩ := (repeated_or_eq _ k m j).mp hmj
    exact ⟨i, hi, min + n, Nat.le_add_right _ _, Nat.add_le_add_left hn _,
      (repeated_add _ min n i j).mpr ⟨m, him, hmj⟩⟩
  · rintro ⟨i, hi, n, hmn, hnk, hij⟩
    obtain ⟨n, rfl⟩ := Nat.exists_eq_add_of_le hmn
    obtain ⟨m, him, hmj⟩ := (repeated_add _ min n i j).mp hij
    exact ⟨m, (hmin.marked_step row hrow m).mpr ⟨i, hi, him⟩,
      (repeated_or_eq _ k m j).mpr ⟨n, Nat.le_of_add_le_add_left hnk, hmj⟩⟩

namespace Pattern

theorem length_surroundings (before : Option Nat) (text : List Nat) :
    (surroundings before text).length = text.length + 1 := by
  induction text generalizing before with
  | nil => rfl
  | cons n ns ih => rw [surroundings, List.length_cons, ih, List.length_cons]

theorem getElem?_surroundings (before : Option Nat) (text : List Nat) {i : Nat}
    (hi : i ≤ text.length) :
    (surroundings before text)[i]? = some (if i = 0 then before else text[i - 1]?, text[i]?) := by
  induction text generalizing before i with
  | nil =>
    obtain rfl : i = 0 := Nat.le_zero.mp hi
    rfl
  | cons n ns ih =>
    cases i with
    | zero => rfl
    | succ i =>
      rw [surroundings, List.getElem?_cons_succ, ih (some n) (Nat.le_of_succ_le_succ hi)]
      cases i <;> rfl

/-- A test at a position of the text. -/
theorem takes_look {text : List Nat} (l : Look) (i j : Nat) :
    (look l).Takes text i j ↔ i = j ∧ i ≤ text.length ∧
      l.holds (if i = 0 then none else text[i - 1]?) text[i]? = true := by
  rw [Takes]
  constructor
  · rintro ⟨rfl, u, hu, hholds⟩
    have hi : i ≤ text.length := by
      have := (List.getElem?_eq_some_iff.mp hu).1
      rw [length_surroundings] at this
      omega
    rw [getElem?_surroundings none text hi] at hu
    cases hu
    exact ⟨rfl, hi, hholds⟩
  · rintro ⟨rfl, hi, hholds⟩
    exact ⟨rfl, _, getElem?_surroundings none text hi, hholds⟩

theorem takes_textStart {text : List Nat} (i j : Nat) :
    (look .textStart).Takes text i j ↔ i = 0 ∧ j = 0 := by
  rw [takes_look]
  constructor
  · rintro ⟨rfl, hi, hholds⟩
    by_contra hne
    have hpos : i ≠ 0 := fun h => hne ⟨h, h⟩
    simp only [Look.holds, if_neg hpos, Option.isNone_iff_eq_none, List.getElem?_eq_none_iff] at hholds
    omega
  · rintro ⟨rfl, rfl⟩
    exact ⟨rfl, Nat.zero_le _, rfl⟩

theorem takes_textEnd {text : List Nat} (i j : Nat) :
    (look .textEnd).Takes text i j ↔ i = text.length ∧ j = text.length := by
  rw [takes_look]
  simp only [Look.holds, Option.isNone_iff_eq_none, List.getElem?_eq_none_iff]
  omega

/-- A repetition of an expression that follows its matches follows its own. -/
theorem follows_repeated {text : List Nat} {a : Pattern}
    (h : Follows (text.length + 1) (a.advance text) (a.Takes text)) (min : Nat) (max : Option Nat) :
    Follows (text.length + 1) ((repeated a min max).advance text)
      ((repeated a min max).Takes text) := by
  cases max with
  | some most =>
    have hrounds := h.between min (most - min)
    refine ⟨fun row hrow => ?_, fun row hrow j => ?_⟩
    · simpa only [advance, iterate_eq] using hrounds.length_step row hrow
    · simpa [advance, iterate_eq, Takes] using hrounds.marked_step row hrow j
  | none =>
    have hrounds := h.between min (text.length + 1)
    refine ⟨fun row hrow => ?_, fun row hrow j => ?_⟩
    · simpa only [advance, iterate_eq] using hrounds.length_step row hrow
    · simp only [advance, iterate_eq, Takes]
      constructor
      · intro hj
        obtain ⟨i, hi, n, hmn, -, hij⟩ := (hrounds.marked_step row hrow j).mp hj
        exact ⟨i, hi, n, hmn, by simp, hij⟩
      · rintro ⟨i, hi, n, hmn, -, hij⟩
        -- A match of `n` rounds is found when `n` rounds more are made, and they change nothing.
        have hj := ((h.between min (n + (text.length + 1))).marked_step row hrow j).mpr
          ⟨i, hi, n, hmn, by omega, hij⟩
        have hfixed := h.iterate_more_fixed ((h.iterate min).length_step row hrow)
        rw [Function.iterate_add_apply, Function.iterate_fixed hfixed] at hj
        exact hj

/-- The row after an expression is as long as the row before, and marks the ends of its matches. -/
theorem follows_advance (text : List Nat) (p : Pattern) :
    Follows (text.length + 1) (p.advance text) (p.Takes text) := by
  induction p with
  | empty => exact ⟨fun _ hrow => hrow, fun row _ j => by simp [advance, Takes]⟩
  | unit set =>
    refine ⟨fun row hrow => ?_, fun row hrow j => ?_⟩
    · simp [advance, hrow]
    · cases j with
      | zero => simp [advance, Takes, Marked]
      | succ j =>
        show Marked (List.zipWith _ text row) j ↔ _
        rw [marked_zipWith]
        constructor
        · rintro ⟨hj, hset⟩
          exact ⟨j, hj, rfl, hset⟩
        · rintro ⟨i, hi, hij, hset⟩
          obtain rfl := Nat.succ.inj hij
          exact ⟨hi, hset⟩
  | look l =>
    refine ⟨fun row hrow => ?_, fun row hrow j => ?_⟩
    · simp [advance, hrow, length_surroundings]
    · refine (marked_zipWith (fun u : Option Nat × Option Nat => l.holds u.1 u.2) j).trans ?_
      constructor
      · rintro ⟨hj, hholds⟩
        exact ⟨j, hj, rfl, hholds⟩
      · rintro ⟨i, hi, rfl, hholds⟩
        exact ⟨hi, hholds⟩
  | seq a b iha ihb =>
    refine ⟨fun row hrow => ihb.length_step _ (iha.length_step row hrow), fun row hrow j => ?_⟩
    simp only [advance, Takes]
    rw [ihb.marked_step _ (iha.length_step row hrow)]
    constructor
    · rintro ⟨m, hm, hmj⟩
      obtain ⟨i, hi, him⟩ := (iha.marked_step row hrow m).mp hm
      exact ⟨i, hi, m, him, hmj⟩
    · rintro ⟨i, hi, m, him, hmj⟩
      exact ⟨m, (iha.marked_step row hrow m).mpr ⟨i, hi, him⟩, hmj⟩
  | alt a b iha ihb =>
    have hlength : ∀ row : Marks, row.length = text.length + 1 →
        (a.advance text row).length = (b.advance text row).length :=
      fun row hrow => (iha.length_step row hrow).trans (ihb.length_step row hrow).symm
    refine ⟨fun row hrow => ?_, fun row hrow j => ?_⟩
    · exact (length_joinMarks (hlength row hrow)).trans (iha.length_step row hrow)
    · simp only [advance, Takes]
      rw [marked_joinMarks (hlength row hrow), iha.marked_step row hrow, ihb.marked_step row hrow,
        ← exists_or]
      simp only [← and_or_left]
  | repeated a min max iha => exact follows_repeated iha min max

/-- **A position is marked after an expression exactly when a match from a marked position ends
there.** -/
theorem marked_advance {text : List Nat} (p : Pattern) {marks : Marks}
    (h : marks.length = text.length + 1) (j : Nat) :
    Marked (p.advance text marks) j ↔ ∃ i, Marked marks i ∧ p.Takes text i j :=
  (follows_advance text p).marked_step marks h j

/-- **The matcher finds a match whenever there is one.** -/
theorem matchesWithin_iff (p : Pattern) (text : List Nat) :
    p.matchesWithin text = true ↔ ∃ i ≤ text.length, ∃ j, p.Takes text i j := by
  have hmark : ∀ i, Marked (List.replicate (text.length + 1) true) i ↔ i ≤ text.length := by
    intro i
    rw [Marked, List.getElem?_replicate, Option.ite_none_right_eq_some, and_iff_left rfl]
    exact Nat.lt_succ_iff
  have hany : ∀ marks : Marks, marks.any id = true ↔ ∃ j, Marked marks j := by
    intro marks
    simp only [List.any_eq_true, id, exists_eq_right, Marked, List.mem_iff_getElem?]
  rw [matchesWithin, hany]
  constructor
  · rintro ⟨j, hj⟩
    obtain ⟨i, hi, hij⟩ := (p.marked_advance (List.length_replicate) j).mp hj
    exact ⟨i, (hmark i).mp hi, j, hij⟩
  · rintro ⟨i, hi, j, hij⟩
    exact ⟨j, (p.marked_advance (List.length_replicate) j).mpr ⟨i, (hmark i).mpr hi, hij⟩⟩

end Pattern

end DottedPath.Regex

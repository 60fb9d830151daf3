import DottedPath.Path.Slice
import Mathlib.Data.List.Nodup
import Mathlib.Tactic.Linarith
import Mathlib.Tactic.Ring

/-!
# The positions of a slice

A slice starts at one position and goes on in steps of one size until it comes to its stop.
`SliceRange.Visits` says what such a run visits; the loop that lists the positions takes a number of
rounds, and this number is never what ends it (`SliceRange.positionsBy_visits`).  What is visited is
an arithmetic progression, with all terms that come before the stop (`Visits.isProgression`).

The arithmetic is that of all integers.  In sixty-four bits it is the same as long as no sum is too
large (`SliceRange.Exact.positions_eq`).
-/

namespace DottedPath.SliceRange

/-- The step of a slice, which is one if it is omitted. -/
def stride (r : SliceRange) : Int :=
  r.step.getD 1

/-- The position that a slice of a sequence starts at. -/
def origin (r : SliceRange) (length : Nat) : Int :=
  resolve length r.stride (if isForward r.stride then 0 else length - 1) r.start

/-- The position that a slice of a sequence does not reach. -/
def limit (r : SliceRange) (length : Nat) : Int :=
  resolve length r.stride (if isForward r.stride then length else -1) r.stop

/-- Steps have not come to the stop yet. -/
def Before (step i stop : Int) : Prop :=
  if isForward step then i < stop else stop < i

/-- What steps from a position on visit until they come to the stop. -/
inductive Visits (step stop : Int) : Int → List Int → Prop
  | stop {i : Int} (h : ¬Before step i stop) : Visits step stop i []
  | next {i : Int} {ps : List Int} (h : Before step i stop) (rest : Visits step stop (i + step) ps) :
      Visits step stop i (i :: ps)

/-- The terms of an arithmetic progression that come before a stop, in order. -/
structure IsProgression (first step stop : Int) (ps : List Int) : Prop where
  terms : ps = (List.range ps.length).map fun k : Nat => first + k * step
  before_iff : ∀ k : Nat, k < ps.length ↔ Before step (first + k * step) stop

variable {step stop i : Int} {ps : List Int} {reduce : Int → Int}

/-! ### The loop -/

theorem stepFrom_of_before (h : Before step i stop) (n : Nat) :
    stepFrom reduce step stop (n + 1) i = i :: stepFrom reduce step stop n (reduce (i + step)) := by
  rw [stepFrom]
  exact if_pos h

theorem stepFrom_of_not_before (h : ¬Before step i stop) (n : Nat) :
    stepFrom reduce step stop n i = [] := by
  cases n with
  | zero => rfl
  | succ n =>
    rw [stepFrom]
    exact if_neg h

theorem positionsBy_eq (r : SliceRange) (length : Nat) (hstep : r.stride ≠ 0) :
    r.positionsBy reduce length =
      stepFrom reduce r.stride (r.limit length) (length + 2) (r.origin length) := by
  have hzero : ¬(r.step.getD 1 == 0) = true := by
    rw [beq_iff_eq]
    exact hstep
  exact if_neg hzero

/-- Steps that have come to the stop do not come back. -/
theorem not_before_add (h : ¬Before step i stop) : ¬Before step (i + step) stop := by
  unfold Before isForward at *
  split_ifs at * with hstep <;> simp at hstep <;> omega

/-- The loop ends at the stop, if it may take as many rounds as there are positions on the way. -/
theorem stepFrom_visits (hstep : step ≠ 0) : ∀ (n : Nat) (i : Int),
    (if isForward step then stop - i else i - stop) ≤ n →
    Visits step stop i (stepFrom id step stop n i) := by
  intro n
  induction n with
  | zero =>
    intro i hn
    refine .stop ?_
    unfold Before
    split_ifs at * <;> omega
  | succ n ih =>
    intro i hn
    by_cases h : Before step i stop
    · rw [stepFrom_of_before h]
      refine .next h (ih (i + step) ?_)
      -- Each round comes nearer to the stop.
      unfold isForward at *
      split_ifs at * with hforward <;> simp at hforward <;> omega
    · rw [stepFrom_of_not_before h]
      exact .stop h

/-- A bound is moved into the sequence, or next to one of its ends. -/
theorem resolve_bounds (length : Nat) (step : Int) {omitted : Int} (b : Option Bound)
    (h : -1 ≤ omitted ∧ omitted ≤ length) :
    -1 ≤ resolve length step omitted b ∧ resolve length step omitted b ≤ length := by
  unfold resolve
  split
  · exact h
  · omega
  · split_ifs <;> omega

/-- **The positions of a slice are what its steps visit.**  The bound on their number does not end the
loop. -/
theorem positionsBy_visits (r : SliceRange) (length : Nat) (hstep : r.stride ≠ 0) :
    Visits r.stride (r.limit length) (r.origin length) (r.positionsBy id length) := by
  rw [positionsBy_eq r length hstep]
  apply stepFrom_visits hstep
  have horigin : -1 ≤ r.origin length ∧ r.origin length ≤ length :=
    resolve_bounds length r.stride r.start (by split_ifs <;> omega)
  have hlimit : -1 ≤ r.limit length ∧ r.limit length ≤ length :=
    resolve_bounds length r.stride r.stop (by split_ifs <;> omega)
  split_ifs <;> push_cast <;> omega

/-! ### The progression -/

/-- **Steps visit the terms of a progression**, exactly those before the stop. -/
theorem Visits.isProgression (h : Visits step stop i ps) : IsProgression i step stop ps := by
  induction h with
  | @stop i h =>
    refine ⟨rfl, fun k => iff_of_false (by simp) ?_⟩
    induction k with
    | zero => simpa using h
    | succ k ih =>
      have hnext := not_before_add ih
      rwa [add_assoc, ← add_one_mul, ← Nat.cast_succ] at hnext
  | @next i ps h _ ih =>
    have hshift (k : Nat) : i + step + k * step = i + (k + 1 : Nat) * step := by
      push_cast
      ring
    constructor
    · rw [List.length_cons, List.range_succ_eq_map, List.map_cons, List.map_map]
      congr 1
      · simp
      · exact ih.terms.trans (List.map_congr_left fun k _ => hshift k)
    · intro k
      cases k with
      | zero => simpa using h
      | succ k => rw [← hshift, ← ih.before_iff k, List.length_cons, Nat.succ_lt_succ_iff]

namespace IsProgression

theorem exists_of_mem (h : IsProgression i step stop ps) {p : Int} (hp : p ∈ ps) :
    ∃ k : Nat, p = i + k * step ∧ Before step p stop := by
  rw [h.terms] at hp
  obtain ⟨k, hk, rfl⟩ := List.mem_map.mp hp
  exact ⟨k, rfl, (h.before_iff k).mp (List.mem_range.mp hk)⟩

/-- No term lies behind the first one. -/
theorem le_of_mem (h : IsProgression i step stop ps) {p : Int} (hp : p ∈ ps) :
    if isForward step then i ≤ p else p ≤ i := by
  obtain ⟨k, rfl, -⟩ := h.exists_of_mem hp
  unfold isForward
  split_ifs with hforward
  · have := Int.mul_nonneg (Int.natCast_nonneg k) (le_of_lt (of_decide_eq_true hforward))
    omega
  · have hback : step ≤ 0 := by simpa using hforward
    have := Int.mul_nonpos_of_nonneg_of_nonpos (Int.natCast_nonneg k) hback
    omega

/-- Positions are in ascending order, or in descending order. -/
theorem pairwise (h : IsProgression i step stop ps) (hstep : step ≠ 0) :
    ps.Pairwise fun p q => if isForward step then p < q else q < p := by
  rw [h.terms, List.pairwise_map]
  refine List.pairwise_lt_range.imp fun {k l} hkl => ?_
  have hkl' : (k : Int) < l := Int.ofNat_lt.mpr hkl
  unfold isForward
  split_ifs with hforward
  · have := Int.mul_lt_mul_of_pos_right hkl' (of_decide_eq_true hforward)
    omega
  · have hback : step < 0 := by
      simp at hforward
      omega
    have := Int.mul_lt_mul_of_neg_right hkl' hback
    omega

theorem nodup (h : IsProgression i step stop ps) (hstep : step ≠ 0) : ps.Nodup := by
  refine (h.pairwise hstep).imp fun {p q} hpq => ?_
  split_ifs at hpq <;> omega

end IsProgression

/-! ### Sixty-four bits -/

/-- The loop does the same with sums that are reduced, if these stay what they were. -/
theorem stepFrom_congr : ∀ (n : Nat) (i : Int),
    (∀ p ∈ stepFrom id step stop n i, reduce (p + step) = p + step) →
    stepFrom reduce step stop n i = stepFrom id step stop n i := by
  intro n
  induction n with
  | zero => intro i _; rfl
  | succ n ih =>
    intro i h
    by_cases hbefore : Before step i stop
    · rw [stepFrom_of_before hbefore] at h
      rw [stepFrom_of_before hbefore, stepFrom_of_before hbefore, h i (List.mem_cons_self ..)]
      exact congrArg (i :: ·) (ih _ fun p hp => h p (List.mem_cons_of_mem _ hp))
    · rw [stepFrom_of_not_before hbefore, stepFrom_of_not_before hbefore]

/-- No sum is too large for sixty-four bits when the slice of a sequence is stepped through. -/
def Exact (r : SliceRange) (length : Nat) : Prop :=
  ∀ p ∈ r.positionsBy id length, Word.fits (p + r.stride) = true

instance (r : SliceRange) (length : Nat) : Decidable (r.Exact length) :=
  inferInstanceAs (Decidable (∀ p ∈ r.positionsBy id length, Word.fits (p + r.stride) = true))

/-- Stepping in sixty-four bits finds the same positions as long as no sum is too large. -/
theorem Exact.positions_eq {r : SliceRange} {length : Nat} (h : r.Exact length)
    (hstep : r.stride ≠ 0) : r.positions length = r.positionsBy id length := by
  unfold Exact at h
  rw [positions, positionsBy_eq r length hstep, positionsBy_eq r length hstep] at *
  exact stepFrom_congr _ _ fun p hp => Word.wrap_of_fits (h p hp)

end DottedPath.SliceRange

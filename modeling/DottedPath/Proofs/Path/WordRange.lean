import DottedPath.Path.Depth
import DottedPath.Path.Number
import DottedPath.Proofs.Path.SlicePositions
import DottedPath.Transform.Builtin

/-!
# What sixty-four bits hold

The bounds and steps of slices, the bounds of depth windows and the numbers in tokens can be any
integers of sixty-four bits, also those at the ends of the range, and not every sum, difference or
negation of two of them is one again.

Slices are stepped exactly if and only if no step leads past the range
(`SliceRange.positions_eq_iff_exact`); steps backward never do, and steps forward do not if they are
not longer than what lies beyond the sequence (`SliceRange.exact_of_stride_le`).  A number in another
base and an integer read in a base are exact unless a minus sign stands before the least integer,
which takes a second minus sign to write (`Number.read?_of_markedBase?`,
`Builtin.readInBase?_of_head?`).  Depth windows are exact throughout
(`DepthRange.leafDistance_wrap`, `DepthRange.fits_depth_sub`).
-/

namespace DottedPath

namespace Word

variable {i : Int}

theorem wrap_eq_self_iff : wrap i = i ↔ fits i = true :=
  ⟨fun h => h ▸ fits_wrap i, wrap_of_fits⟩

/-- An integer past the range is taken for one from the other end. -/
theorem wrap_of_lt (h : greatest < i) (hlt : i < 2 ^ 64 + 2 ^ 63) : wrap i = i - 2 ^ 64 := by
  unfold greatest at h
  rw [wrap, ← Int.sub_bmod_right, Int.bmod_eq_of_le] <;> omega

/-- Only the least integer cannot be negated. -/
theorem fits_neg_iff (h : fits i = true) : fits (-i) = true ↔ i ≠ least := by
  rw [fits_iff] at h ⊢
  unfold least
  omega

theorem wrap_neg (h : fits i = true) (hne : i ≠ least) : wrap (-i) = -i :=
  wrap_of_fits ((fits_neg_iff h).mpr hne)

end Word

/-- A double is cut to an integer of the range. -/
theorem Word.fits_ofFloat (f : Float) : Word.fits (Word.ofFloat f) = true := by
  unfold Word.ofFloat
  split
  · decide
  · split_ifs <;> decide
  · rw [Word.fits_iff]
    unfold Word.least Word.greatest
    dsimp only
    omega

theorem Scalar.fits_of_integerKey? {f : Float} {i : Int} (h : Scalar.integerKey? f = some i) :
    Word.fits i = true := by
  unfold Scalar.integerKey? at h
  split at h
  · split_ifs at h
    cases h
    exact Word.fits_ofFloat f
  · cases h

/-! ### Slices -/

namespace SliceRange

variable {r : SliceRange} {length : Nat} {step stop i : Int}

/-- An index from the end is resolved within the range. -/
theorem fits_length_add (hlength : (length : Int) ≤ Word.greatest) (hi : Word.fits i = true)
    (hneg : i < 0) : Word.fits (length + i) = true := by
  unfold Word.greatest at hlength
  rw [Word.fits_iff] at hi ⊢
  omega

theorem origin_bounds (r : SliceRange) (length : Nat) :
    -1 ≤ r.origin length ∧ r.origin length ≤ length :=
  resolve_bounds length r.stride r.start (by split_ifs <;> omega)

theorem limit_bounds (r : SliceRange) (length : Nat) :
    -1 ≤ r.limit length ∧ r.limit length ≤ length :=
  resolve_bounds length r.stride r.stop (by split_ifs <;> omega)

/-- Positions lie at the origin or after it, and before the limit. -/
theorem between_of_mem {p : Int} (hstep : r.stride ≠ 0) (hp : p ∈ r.positionsBy id length) :
    if isForward r.stride then r.origin length ≤ p ∧ p < r.limit length
    else r.limit length < p ∧ p ≤ r.origin length := by
  have hprogression := (positionsBy_visits r length hstep).isProgression
  have hafter := hprogression.le_of_mem hp
  obtain ⟨-, -, hbefore⟩ := hprogression.exists_of_mem hp
  unfold Before at hbefore
  split_ifs at * with hforward
  · exact ⟨hafter, hbefore⟩
  · exact ⟨hbefore, hafter⟩

/-- **Steps backward never leave the range.** -/
theorem exact_of_backward (hstep : Word.fits r.stride = true) (hback : r.stride < 0)
    (hlength : (length : Int) ≤ Word.greatest) : r.Exact length := by
  intro p hp
  have hbetween := between_of_mem (ne_of_lt hback) hp
  have hforward : isForward r.stride = false := decide_eq_false (not_lt.mpr (le_of_lt hback))
  rw [hforward, if_neg Bool.false_ne_true] at hbetween
  have horigin := r.origin_bounds length
  have hlimit := r.limit_bounds length
  unfold Word.greatest at hlength
  rw [Word.fits_iff] at hstep ⊢
  omega

/-- **Steps forward do not leave the range** if they are no longer than what lies beyond the
sequence. -/
theorem exact_of_stride_le (hforward : 0 < r.stride)
    (hle : r.stride ≤ Word.greatest - length) : r.Exact length := by
  intro p hp
  have hbetween := between_of_mem (ne_of_gt hforward) hp
  rw [show isForward r.stride = true from decide_eq_true hforward, if_pos rfl] at hbetween
  have horigin := r.origin_bounds length
  have hlimit := r.limit_bounds length
  unfold Word.greatest at hle
  rw [Word.fits_iff]
  omega

/-- A sum that leaves the range is taken for a position before all others, so that the loop goes
on. -/
theorem fits_of_stepFrom_eq (hforward : 0 < step) (hstep : step ≤ Word.greatest)
    (hstop : stop ≤ Word.greatest) : ∀ (n : Nat) (i : Int), -1 ≤ i → stop - i < n →
    stepFrom Word.wrap step stop n i = stepFrom id step stop n i →
    ∀ p ∈ stepFrom id step stop n i, Word.fits (p + step) = true
  | 0, _, _, _, _, _, hp => by cases hp
  | n + 1, i, hi, hn, heq, p, hp => by
    have hsign : isForward step = true := decide_eq_true hforward
    by_cases hbefore : Before step i stop
    · rw [stepFrom_of_before hbefore, stepFrom_of_before hbefore] at heq
      rw [stepFrom_of_before hbefore] at hp
      have htail := (List.cons.inj heq).2
      have hlt : i < stop := by simpa [Before, hsign] using hbefore
      unfold Word.greatest at hstep hstop
      have hfits : Word.fits (i + step) = true := by
        by_contra hpast
        rw [Word.fits_iff] at hpast
        have hwrap : Word.wrap (i + step) = i + step - 2 ^ 64 :=
          Word.wrap_of_lt (by unfold Word.greatest; omega) (by omega)
        -- In the range the loop goes on from below zero; without bounds it has come to its stop.
        have hagain : Before step (Word.wrap (i + step)) stop := by
          rw [Before, if_pos hsign, hwrap]
          omega
        have hend : ¬Before step (id (i + step)) stop := by
          rw [Before, if_pos hsign, id]
          omega
        obtain ⟨m, rfl⟩ : ∃ m, n = m + 1 := ⟨n - 1, by omega⟩
        rw [stepFrom_of_before hagain, stepFrom_of_not_before hend] at htail
        cases htail
      rcases List.mem_cons.mp hp with rfl | hp
      · exact hfits
      · rw [Word.wrap_of_fits hfits] at htail
        exact fits_of_stepFrom_eq hforward hstep hstop n (i + step) (by omega) (by omega) htail p hp
    · rw [stepFrom_of_not_before hbefore] at hp
      cases hp

/-- **A slice is stepped exactly if and only if no step leads past sixty-four bits.** -/
theorem positions_eq_iff_exact (hstep : Word.fits r.stride = true) (hne : r.stride ≠ 0)
    (hlength : (length : Int) ≤ Word.greatest) :
    r.positions length = r.positionsBy id length ↔ r.Exact length := by
  refine ⟨fun heq => ?_, fun h => h.positions_eq hne⟩
  rcases lt_or_gt_of_ne hne with hback | hforward
  · exact exact_of_backward hstep hback hlength
  · have horigin := r.origin_bounds length
    have hlimit := r.limit_bounds length
    rw [positions, positionsBy_eq r length hne, positionsBy_eq r length hne] at heq
    intro p hp
    rw [positionsBy_eq r length hne] at hp
    exact fits_of_stepFrom_eq hforward (Word.fits_iff.mp hstep).2 (by omega) (length + 2)
      (r.origin length) horigin.1 (by push_cast; omega) heq p hp

/-- The longest step from the last of three elements comes round to the first one. -/
example : (⟨some (.index 2), none, some Word.greatest⟩ : SliceRange).positions 3 =
    [2, Word.least + 1, 0] := by
  decide

end SliceRange

/-! ### Numbers with a sign and a base -/

namespace Decimal

variable {base : Nat} {cs : List Char} {i : Int}

theorem fits_of_checked? {n i : Int} (h : Word.checked? n = some i) : Word.fits i = true := by
  unfold Word.checked? at h
  split_ifs at h with hfits
  cases h
  exact hfits

/-- What is read fits. -/
theorem fits_of_readInt? (h : readInt? base cs = some i) : Word.fits i = true := by
  unfold readInt? at h
  split at h <;>
  · obtain ⟨n, -, hi⟩ := Option.bind_eq_some_iff.mp h
    exact fits_of_checked? hi

/-- Without a minus sign no negative integer is read. -/
theorem readInt?_nonneg (hsign : cs.head? ≠ some '-') (h : readInt? base cs = some i) : 0 ≤ i := by
  have hchecked {n : Nat} {i : Int} (h : Word.checked? n = some i) : 0 ≤ i := by
    unfold Word.checked? at h
    split_ifs at h
    cases h
    exact Int.natCast_nonneg n
  unfold readInt? at h
  split at h
  · exact absurd rfl hsign
  · obtain ⟨n, -, hi⟩ := Option.bind_eq_some_iff.mp h
    exact hchecked hi
  · obtain ⟨n, -, hi⟩ := Option.bind_eq_some_iff.mp h
    exact hchecked hi

/-- **One minus sign is never too much**: what is read without a sign can be negated. -/
theorem wrap_neg_of_readInt? (hsign : cs.head? ≠ some '-') (h : readInt? base cs = some i) :
    Word.wrap (-i) = -i := by
  refine Word.wrap_neg (fits_of_readInt? h) fun hleast => ?_
  have := readInt?_nonneg hsign h
  rw [hleast] at this
  exact absurd this (by decide)

end Decimal

namespace Number

variable {raw : List Char} {base : Nat} {i : Int}

/-- The number is read exactly: a number in another base whose digits have no sign of their own is
what its digits say, or its negation after a minus sign. -/
theorem read?_of_markedBase? {text : List Char} (htext : (Text.trim raw).filter (· != '_') = text)
    (hbase : markedBase? (unsigned text) = some base)
    (hsign : ((unsigned text).drop 2).head? ≠ some '-') :
    read? raw = (Decimal.readInt? base ((unsigned text).drop 2)).map fun i =>
      .int (if text.head? == some '-' then -i else i) := by
  rw [read?, htext, hbase]
  refine Option.map_congr fun i hi => ?_
  rw [Decimal.wrap_neg_of_readInt? hsign hi]

/-- An integer that is read has sixty-four bits. -/
theorem fits_of_read? (h : read? raw = some (.int i)) : Word.fits i = true := by
  unfold read? at h
  simp only at h
  split at h
  · obtain ⟨j, hj, heq⟩ := Option.map_eq_some_iff.mp h
    cases heq
    split_ifs
    · exact Word.fits_wrap _
    · exact Decimal.fits_of_readInt? hj
  · split at h
    · next j hj =>
      cases h
      exact Decimal.fits_of_readInt? hj
    · obtain ⟨f, -, heq⟩ := Option.map_eq_some_iff.mp h
      split at heq
      · next j hj =>
        split_ifs at heq
        · cases heq
        · cases heq
          exact Scalar.fits_of_integerKey? hj
      · cases heq

end Number

namespace Builtin

/-- An integer in a base is read exactly if its digits have no sign of their own. -/
theorem readInBase?_of_head? {base : Nat} {text : String} {ds : List Char}
    (htext : Text.trim text.toList = '-' :: ds) (hsign : (withoutMarkers base ds).head? ≠ some '-') :
    readInBase? base text = (Decimal.readInt? base (withoutMarkers base ds)).map fun i => -i := by
  rw [readInBase?, htext]
  exact Option.map_congr fun i hi => Decimal.wrap_neg_of_readInt? hsign hi

end Builtin

/-! ### Depth windows -/

namespace DepthRange

variable {bound depth start : Int}

/-- The distance that a bound from the leaves names is in the range, and is what the arithmetic of
sixty-four bits gives, although the least integer has no magnitude there. -/
theorem leafDistance_wrap (hbound : Word.fits bound = true) (hneg : bound < 0) :
    Word.fits (leafDistance bound) = true ∧
      Word.wrap (Word.wrap (-bound) - 1) = leafDistance bound := by
  have hfits : Word.fits (leafDistance bound) = true := by
    rw [Word.fits_iff] at hbound ⊢
    unfold leafDistance
    omega
  refine ⟨hfits, ?_⟩
  rw [Word.wrap, Word.wrap, Int.bmod_sub_bmod]
  exact Word.wrap_of_fits hfits

/-- Depths past the start of a window are subtracted within the range. -/
theorem fits_depth_sub (hdepth : Word.fits depth = true) (hstart : 0 ≤ start)
    (hle : start ≤ depth) : Word.fits (depth - start) = true := by
  rw [Word.fits_iff] at hdepth ⊢
  omega

end DepthRange

end DottedPath

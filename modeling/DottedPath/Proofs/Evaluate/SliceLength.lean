import DottedPath.Proofs.Evaluate.SliceRead
import DottedPath.Proofs.Path.WordRange

/-!
# The length as a bound of a slice

A bound of a slice may be the length of the sequence (`Bound.length`).  It may as well be written as
the number that the length is (`SliceRange.counted`), and mostly the slice selects the same then.  The
exception is a slice that starts at the length and goes back in steps of more than one: the number is
moved to the last element before the first step, but the length is not.

## Main statements

- `SliceRange.elementsAt_counted_iff`: for which slices the length and the number are the same.
- `sliceOf_counted`: these slices of a value, stepped in sixty-four bits.
-/

namespace DottedPath

/-- The bound as a number, in a sequence of a length. -/
def Bound.counted (length : Nat) : Bound → Bound
  | .index i => .index i
  | .length => .index length

namespace SliceRange

/-- The slice with numbers for its bounds, in a sequence of a length. -/
def counted (r : SliceRange) (length : Nat) : SliceRange :=
  ⟨r.start.map (Bound.counted length), r.stop.map (Bound.counted length), r.step⟩

variable {r : SliceRange} {length : Nat} {step stop i omitted : Int} {reduce : Int → Int}
  {b : Option Bound}

@[simp] theorem stride_counted (r : SliceRange) (length : Nat) :
    (r.counted length).stride = r.stride := rfl

/-! ### Bounds -/

theorem map_counted_of_ne (h : b ≠ some .length) : b.map (Bound.counted length) = b := by
  match b with
  | none => rfl
  | some (.index i) => rfl
  | some .length => exact absurd rfl h

theorem map_counted_ne (length : Nat) (b : Option Bound) :
    b.map (Bound.counted length) ≠ some .length := by
  match b with
  | none => nofun
  | some (.index i) => nofun
  | some .length => nofun

/-- For steps forward the number is the length. -/
theorem resolve_counted_of_forward (hforward : isForward step = true) (b : Option Bound) :
    resolve length step omitted (b.map (Bound.counted length)) = resolve length step omitted b := by
  match b with
  | none => rfl
  | some (.index i) => rfl
  | some .length =>
    show resolve length step omitted (some (.index length)) = length
    rw [resolve, if_neg (by omega), hforward, if_pos rfl, min_self]

/-- For steps backward the number is the last position. -/
theorem resolve_counted_of_backward (hback : isForward step = false) :
    resolve length step omitted (some (.index length)) = length - 1 := by
  rw [resolve, if_neg (by omega), hback, if_neg Bool.false_ne_true]
  omega

/-- Only the length itself is beyond the last position. -/
theorem resolve_lt_of_backward (hback : isForward step = false) (homitted : omitted < length)
    (hb : b ≠ some .length) : resolve length step omitted b < length := by
  match b with
  | none => exact homitted
  | some (.index i) =>
    rw [resolve, hback]
    simp only [Bool.false_eq_true, if_false]
    split_ifs <;> omega
  | some .length => exact absurd rfl hb

theorem isForward_eq_false (hback : step < 0) : isForward step = false :=
  decide_eq_false (not_lt.mpr hback.le)

/-! ### Positions -/

/-- Steps backward do not come before the length. -/
theorem positionsBy_of_stop_length (hback : r.stride < 0) (hstop : r.stop = some .length) :
    r.positionsBy reduce length = [] ∧ (r.counted length).positionsBy reduce length = [] := by
  have hforward := isForward_eq_false hback
  have hnone (q : SliceRange) (hq : q.stride = r.stride) (hle : q.origin length ≤ q.limit length) :
      q.positionsBy reduce length = [] := by
    rw [positionsBy_eq q length (hq ▸ hback.ne), stepFrom_of_not_before]
    rw [Before, hq, hforward, if_neg Bool.false_ne_true]
    omega
  refine ⟨hnone r rfl ?_, hnone (r.counted length) rfl ?_⟩
  · rw [limit, hstop]
    exact (r.origin_bounds length).2
  · have hlimit : (r.counted length).limit length = length - 1 := by
      show resolve length r.stride _ (r.stop.map (Bound.counted length)) = _
      rw [hstop]
      exact resolve_counted_of_backward hforward
    have horigin : (r.counted length).origin length < length := by
      refine resolve_lt_of_backward hforward ?_ (map_counted_ne length r.start)
      rw [stride_counted, hforward, if_neg Bool.false_ne_true]
      omega
    omega

/-- **The length and the number lead to the same positions** unless the slice starts at the length and
goes back. -/
theorem positionsBy_counted (hstep : r.stride ≠ 0)
    (h : r.start ≠ some .length ∨ 0 < r.stride ∨ r.stop = some .length) :
    (r.counted length).positionsBy reduce length = r.positionsBy reduce length := by
  by_cases hforward : isForward r.stride = true
  · have horigin : (r.counted length).origin length = r.origin length :=
      resolve_counted_of_forward hforward r.start
    have hlimit : (r.counted length).limit length = r.limit length :=
      resolve_counted_of_forward hforward r.stop
    rw [positionsBy_eq r length hstep, positionsBy_eq (r.counted length) length hstep, horigin,
      hlimit, stride_counted]
  · have hback : r.stride < 0 := by
      have : ¬0 < r.stride := fun hpos => hforward (decide_eq_true hpos)
      omega
    by_cases hstop : r.stop = some .length
    · rw [(positionsBy_of_stop_length hback hstop).1, (positionsBy_of_stop_length hback hstop).2]
    · have hstart : r.start ≠ some .length := by
        rcases h with h | h | h
        · exact h
        · omega
        · exact absurd h hstop
      have hsame : r.counted length = r := by
        rw [counted, map_counted_of_ne hstart, map_counted_of_ne hstop]
      rw [hsame]

/-- Steps from a position visit the same each time. -/
theorem Visits.unique {ps qs : List Int} (h : Visits step stop i ps) (h' : Visits step stop i qs) :
    ps = qs := by
  induction h generalizing qs with
  | stop h =>
    cases h' with
    | stop => rfl
    | next hbefore => exact absurd hbefore h
  | next h _ ih =>
    cases h' with
    | stop hstop => exact absurd h hstop
    | next _ rest => rw [ih rest]

/-- A slice backward from the length begins behind the last element, which is no element, and goes on
one step before the length.  With the number it begins at the last element. -/
theorem exists_visits_of_start_length (hback : r.stride < 0) (hstart : r.start = some .length)
    (hstop : r.stop ≠ some .length) (length : Nat) :
    r.limit length < length ∧
      (∃ ps, Visits r.stride (r.limit length) (length + r.stride) ps ∧
        r.positionsBy id length = (length : Int) :: ps) ∧
      Visits r.stride (r.limit length) (length - 1) ((r.counted length).positionsBy id length) := by
  have hforward := isForward_eq_false hback
  have hlt : r.limit length < length := by
    refine resolve_lt_of_backward hforward ?_ hstop
    rw [hforward, if_neg Bool.false_ne_true]
    omega
  refine ⟨hlt, ?_, ?_⟩
  · have hvisits := positionsBy_visits r length hback.ne
    have horigin : r.origin length = length := by
      rw [origin, hstart]
      rfl
    rw [horigin] at hvisits
    -- the length is before the limit, so the visits do not stop at once
    generalize r.positionsBy id length = ps at hvisits
    cases hvisits with
    | stop h =>
      refine absurd ?_ h
      rwa [Before, hforward, if_neg Bool.false_ne_true]
    | next _ rest => exact ⟨_, rest, rfl⟩
  · have hvisits := positionsBy_visits (r.counted length) length hback.ne
    have horigin : (r.counted length).origin length = length - 1 := by
      show resolve length r.stride _ (r.start.map (Bound.counted length)) = _
      rw [hstart]
      exact resolve_counted_of_backward hforward
    have hlimit : (r.counted length).limit length = r.limit length := by
      show resolve length r.stride _ (r.stop.map (Bound.counted length)) = _
      rw [map_counted_of_ne hstop]
      rfl
    rwa [horigin, hlimit] at hvisits

/-- Behind the last element there is none. -/
theorem elementsAt_length_cons {xs : List Value} (h : xs.length = length) (ps : List Int) :
    elementsAt xs ((length : Int) :: ps) = elementsAt xs ps := by
  have hnone : xs[((length : Int)).toNat]? = none := List.getElem?_eq_none (by omega)
  rw [elementsAt, List.filterMap_cons, if_pos (by omega), hnone]
  rfl

/-- In longer steps backward from the length the last element is left out, with which the number
begins. -/
theorem elementsAt_counted_iff_of_backward (hback : r.stride < -1) (hstart : r.start = some .length)
    (hstop : r.stop ≠ some .length) :
    (∀ xs : List Value, xs.length = length →
      elementsAt xs ((r.counted length).positionsBy id length) =
        elementsAt xs (r.positionsBy id length)) ↔
      (r.counted length).positionsBy id length = [] := by
  obtain ⟨hlimit, ⟨ps, hps, hpositions⟩, hcounted⟩ :=
    exists_visits_of_start_length (by omega) hstart hstop length
  have hforward : isForward r.stride = false := isForward_eq_false (by omega)
  have hbounds := (r.limit_bounds length).1
  rw [hpositions]
  generalize (r.counted length).positionsBy id length = qs at hcounted
  cases hcounted with
  | stop hlast =>
    refine iff_of_true (fun xs hxs => ?_) rfl
    have hnone : ps = [] := by
      cases hps with
      | stop => rfl
      | next hbefore =>
        rw [Before, hforward, if_neg Bool.false_ne_true] at hlast hbefore
        omega
    rw [elementsAt_length_cons hxs, hnone]
  | next hlast _ =>
    refine iff_of_false (fun hsame => ?_) (List.cons_ne_nil _ _)
    rw [Before, hforward, if_neg Bool.false_ne_true] at hlast
    -- a sequence whose elements are its positions
    let xs : List Value := (List.range length).map fun k : Nat => .int k
    have hxs : xs.length = length := by rw [List.length_map, List.length_range]
    have hget (p : Int) (hp : 0 ≤ p ∧ p < length) : xs[p.toNat]? = some (.int p) := by
      rw [List.getElem?_map, List.getElem?_range (by omega), Option.map_some, Int.toNat_of_nonneg hp.1]
    have hmem : Value.int (length - 1) ∈ elementsAt xs ps := by
      rw [← elementsAt_length_cons hxs, ← hsame xs hxs]
      refine List.mem_filterMap.mpr ⟨length - 1, List.mem_cons_self .., ?_⟩
      rw [if_pos (by omega), hget _ (by omega)]
    obtain ⟨p, hp, hvalue⟩ := List.mem_filterMap.mp hmem
    have hle := hps.isProgression.le_of_mem hp
    obtain ⟨-, -, hbefore⟩ := hps.isProgression.exists_of_mem hp
    rw [hforward, if_neg Bool.false_ne_true] at hle
    rw [Before, hforward, if_neg Bool.false_ne_true] at hbefore
    rw [if_pos (by omega), hget p (by omega)] at hvalue
    have : p = length - 1 := by
      cases hvalue
      rfl
    omega

/-- In single steps backward the length only adds the position behind the last element. -/
theorem elementsAt_counted_of_unit (hback : r.stride = -1) (hstart : r.start = some .length)
    (hstop : r.stop ≠ some .length) {xs : List Value} (hxs : xs.length = length) :
    elementsAt xs ((r.counted length).positionsBy id length) =
      elementsAt xs (r.positionsBy id length) := by
  obtain ⟨-, ⟨ps, hps, hpositions⟩, hcounted⟩ :=
    exists_visits_of_start_length (by omega) hstart hstop length
  have hnext : (length : Int) + r.stride = length - 1 := by omega
  rw [hnext] at hps
  rw [hpositions, elementsAt_length_cons hxs, hps.unique hcounted]

/-- **The length as a bound and the number that it is select the same elements**, in the same order,
except from the length back in steps of more than one: then the slice with the number begins with the
last element, which the slice from the length leaves out. -/
theorem elementsAt_counted_iff (hstep : r.stride ≠ 0) :
    (∀ xs : List Value, xs.length = length →
      elementsAt xs ((r.counted length).positionsBy id length) =
        elementsAt xs (r.positionsBy id length)) ↔
      r.start ≠ some .length ∨ -1 ≤ r.stride ∨
        (r.counted length).positionsBy id length = [] := by
  by_cases h : r.start ≠ some .length ∨ 0 < r.stride ∨ r.stop = some .length
  · refine iff_of_true (fun xs _ => by rw [positionsBy_counted hstep h]) ?_
    rcases h with h | h | h
    · exact .inl h
    · exact .inr (.inl (by omega))
    · rcases lt_or_gt_of_ne hstep with hback | hforward
      · exact .inr (.inr (positionsBy_of_stop_length hback h).2)
      · exact .inr (.inl (by omega))
  · push Not at h
    obtain ⟨hstart, hback, hstop⟩ := h
    by_cases hunit : r.stride = -1
    · refine iff_of_true (fun xs hxs => ?_) (.inr (.inl hunit.ge))
      exact elementsAt_counted_of_unit hunit hstart hstop hxs
    · rw [elementsAt_counted_iff_of_backward (by omega) hstart hstop]
      refine ⟨fun h => .inr (.inr h), fun h => ?_⟩
      rcases h with h | h | h
      · exact absurd hstart h
      · omega
      · exact h

end SliceRange

open SliceRange

/-- **The slice of a value is the same with the number for the length**, unless it goes back from the
length in steps of more than one. -/
theorem sliceOf_counted {r : SliceRange} (hstep : r.stride ≠ 0)
    (h : r.start ≠ some .length ∨ -1 ≤ r.stride) (v : Value) (s : Store)
    (hlength : ((s.elements v).length : Int) ≤ Word.greatest) :
    sliceOf (r.counted (s.elements v).length) v s = sliceOf r v s := by
  have hsame : elementsAt (s.elements v)
      ((r.counted (s.elements v).length).positions (s.elements v).length) =
        elementsAt (s.elements v) (r.positions (s.elements v).length) := by
    by_cases hcounted : r.start ≠ some .length ∨ 0 < r.stride ∨ r.stop = some .length
    · rw [positions, positionsBy_counted hstep hcounted]
      rfl
    · push Not at hcounted
      obtain ⟨hstart, hback, hstop⟩ := hcounted
      have hunit : r.stride = -1 := by
        rcases h with h | h
        · exact absurd hstart h
        · omega
      have hexact (q : SliceRange) (hq : q.stride = -1) : q.Exact (s.elements v).length :=
        exact_of_backward (by rw [hq]; decide) (by omega) hlength
      rw [(hexact (r.counted _) hunit).positions_eq hstep, (hexact r hunit).positions_eq hstep]
      exact elementsAt_counted_of_unit hunit hstart hstop rfl
  exact congrArg (fun items => withElements v items s) hsame

/-- From the length back in steps of two. -/
example : elementsAt [.int 1, .int 2, .int 3]
    ((⟨some .length, none, some (-2)⟩ : SliceRange).positions 3) = [.int 2] := rfl

/-- From three back in steps of two. -/
example : elementsAt [.int 1, .int 2, .int 3]
    ((⟨some (.index 3), none, some (-2)⟩ : SliceRange).positions 3) = [.int 3, .int 1] := rfl

end DottedPath

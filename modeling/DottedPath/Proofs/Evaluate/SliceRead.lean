import DottedPath.Proofs.Evaluate.WriteBack
import DottedPath.Proofs.Path.SlicePositions
import Mathlib.Data.Set.List

/-!
# What a slice selects

The slice of a list, a tuple, a text or bytes is a sequence of the same kind.  Its elements are those
at the positions `start`, `start + step` and so on before `stop`, where the bounds are clamped: a
negative index counts from the end, and an index outside the sequence is moved to the end that steps
of this sign can reach (`SliceRange.clamp`).

## Main statements

- `sliceOf_selects`: the slices whose bounds are integers or omitted.
-/

namespace DottedPath

namespace SliceRange

/-! ### Clamped bounds -/

/-- The slice whose bounds are integers or omitted. -/
def ofIndices (start stop step : Option Int) : SliceRange :=
  ⟨start.map .index, stop.map .index, step⟩

/-- The least position that steps of a sign start at or stop at. -/
def lowest (step : Int) : Int :=
  if 0 < step then 0 else -1

/-- The greatest position that steps of a sign start at or stop at. -/
def highest (length : Nat) (step : Int) : Int :=
  if 0 < step then length else length - 1

/-- An index as a position that steps can reach. -/
def clamp (length : Nat) (step index : Int) : Int :=
  max (lowest step) (min (highest length step) (fromStart length index))

/-- Where the slice begins: without a start at the end that the steps lead away from. -/
def first (length : Nat) (step : Int) (start : Option Int) : Int :=
  start.elim (if 0 < step then lowest step else highest length step) (clamp length step)

/-- What the slice does not reach: without a stop the end that the steps lead to. -/
def last (length : Nat) (step : Int) (stop : Option Int) : Int :=
  stop.elim (if 0 < step then highest length step else lowest step) (clamp length step)

variable {start stop step : Option Int} {length : Nat}

theorem resolve_index (length : Nat) (step omitted i : Int) :
    resolve length step omitted (some (.index i)) = clamp length step i := by
  unfold resolve clamp lowest highest fromStart isForward
  simp only [decide_eq_true_eq]
  split_ifs <;> omega

theorem origin_ofIndices (start stop step : Option Int) (length : Nat) :
    (ofIndices start stop step).origin length = first length (step.getD 1) start := by
  cases start with
  | none =>
    show (if isForward (step.getD 1) then 0 else (length : Int) - 1) = _
    unfold first lowest highest isForward
    simp only [decide_eq_true_eq, Option.elim_none]
    split_ifs <;> rfl
  | some i => exact resolve_index length _ _ i

theorem limit_ofIndices (start stop step : Option Int) (length : Nat) :
    (ofIndices start stop step).limit length = last length (step.getD 1) stop := by
  cases stop with
  | none =>
    show (if isForward (step.getD 1) then (length : Int) else -1) = _
    unfold last lowest highest isForward
    simp only [decide_eq_true_eq, Option.elim_none]
    split_ifs <;> rfl
  | some i => exact resolve_index length _ _ i

theorem lowest_le_first (length : Nat) (step : Int) (start : Option Int) :
    lowest step ≤ first length step start ∧ first length step start ≤ highest length step := by
  cases start with
  | none =>
    unfold first lowest highest
    simp only [Option.elim_none]
    split_ifs <;> omega
  | some i =>
    unfold first clamp lowest highest
    simp only [Option.elim_some]
    split_ifs <;> omega

theorem lowest_le_last (length : Nat) (step : Int) (stop : Option Int) :
    lowest step ≤ last length step stop ∧ last length step stop ≤ highest length step := by
  cases stop with
  | none =>
    unfold last lowest highest
    simp only [Option.elim_none]
    split_ifs <;> omega
  | some i =>
    unfold last clamp lowest highest
    simp only [Option.elim_some]
    split_ifs <;> omega

/-- The positions of a slice are inside the sequence. -/
theorem IsProgression.inside {k : Int} {ps : List Int}
    (h : IsProgression (first length k start) k (last length k stop) ps) {p : Int} (hp : p ∈ ps) :
    0 ≤ p ∧ p < length := by
  have hfirst := lowest_le_first length k start
  have hlast := lowest_le_last length k stop
  have hle := h.le_of_mem hp
  obtain ⟨-, -, hbefore⟩ := h.exists_of_mem hp
  unfold lowest highest at hfirst hlast
  unfold Before at hbefore
  unfold isForward at hle hbefore
  simp only [decide_eq_true_eq] at hle hbefore
  split_ifs at * <;> omega

end SliceRange

open SliceRange

variable {s : Store} {v : Value}

/-! ### Elements -/

/-- A sequence that is made of elements of another one has these elements, and its kind. -/
theorem elements_withElements (hv : s.isIndexed v = true) {items : List Value}
    (hitems : ∀ x ∈ items, x ∈ s.elements v) :
    (withElements v items s).2.kind (withElements v items s).1 = s.kind v ∧
      (withElements v items s).2.elements (withElements v items s).1 = items := by
  rcases Store.cases_of_isIndexed hv with ⟨text, rfl⟩ | ⟨bs, rfl⟩ | ⟨h, xs, rfl, hc | hc⟩
  · obtain ⟨cs, rfl⟩ : items ∈ Set.range (List.map fun c => Value.str (String.ofList [c])) := by
      rw [Set.range_list_map]
      exact fun x hx => by
        obtain ⟨c, -, rfl⟩ := List.mem_map.mp (hitems x hx)
        exact ⟨c, rfl⟩
    rw [Store.withElements_text]
    refine ⟨rfl, ?_⟩
    show (String.ofList cs).toList.map _ = _
    rw [String.toList_ofList]
  · obtain ⟨cs, rfl⟩ : items ∈ Set.range (List.map fun b : UInt8 => Value.int b.toNat) := by
      rw [Set.range_list_map]
      exact fun x hx => by
        obtain ⟨b, -, rfl⟩ := List.mem_map.mp (hitems x hx)
        exact ⟨b, rfl⟩
    rw [Store.withElements_bytes]
    exact ⟨rfl, rfl⟩
  · have hlist : s.container? (.ref h) = some (.list xs) := hc
    have hrun : withElements (.ref h) items s = (.ref s.next, s.push (.list items)) := by
      unfold withElements
      rw [hlist]
      rfl
    rw [hrun]
    have hnew := Store.get?_push_next s (.list items)
    exact ⟨by rw [Store.kind, Store.kind, hnew, hc]; rfl, Store.elements_of_list hnew⟩
  · have htuple : s.container? (.ref h) = some (.tuple xs) := hc
    have hrun : withElements (.ref h) items s = (.ref s.next, s.push (.tuple items)) := by
      unfold withElements
      rw [htuple]
      rfl
    rw [hrun]
    have hnew := Store.get?_push_next s (.tuple items)
    exact ⟨by rw [Store.kind, Store.kind, hnew, hc]; rfl, Store.elements_of_tuple hnew⟩

/-- Positions inside a list name an element each. -/
theorem map_some_elementsAt {xs : List Value} {ps : List Int}
    (h : ∀ p ∈ ps, 0 ≤ p ∧ p < xs.length) :
    (elementsAt xs ps).map some = ps.map fun p => xs[p.toNat]? := by
  induction ps with
  | nil => rfl
  | cons p ps ih =>
    obtain ⟨hp, hlt⟩ := h p (List.mem_cons_self ..)
    have hx := List.getElem?_eq_getElem (l := xs) (i := p.toNat) (by omega)
    have ih := ih fun q hq => h q (List.mem_cons_of_mem _ hq)
    unfold elementsAt at *
    rw [List.filterMap_cons, if_pos hp, hx]
    simp [ih, hx]

theorem sliceOfBy_eq (reduce : Int → Int) (range : SliceRange) (v : Value) (s : Store) :
    sliceOfBy reduce range v s = withElements v
      (elementsAt (s.elements v) (range.positionsBy reduce (s.elements v).length)) s := rfl

/-- **A slice selects the elements at the terms of a progression** with clamped bounds, in this order:
they are of the same kind as the sequence, the positions differ and are all inside it, and the loop
that finds them ends.  Stepping in sixty-four bits selects the same, as long as no sum is too large. -/
theorem sliceOf_selects (hv : s.isIndexed v = true) (start stop step : Option Int)
    (hstep : step ≠ some 0) :
    let length := (s.elements v).length
    let k := step.getD 1
    let range := ofIndices start stop step
    let ps := range.positionsBy id length
    Visits k (last length k stop) (first length k start) ps ∧
      IsProgression (first length k start) k (last length k stop) ps ∧
      ps.Nodup ∧ (∀ p ∈ ps, 0 ≤ p ∧ p < length) ∧
      ∃ w t, sliceOfBy id range v s = (w, t) ∧ s.GrowsTo t ∧ t.kind w = s.kind v ∧
        (t.elements w).map some = ps.map (fun p => (s.elements v)[p.toNat]?) ∧
        (range.Exact length → sliceOf range v s = (w, t)) := by
  intro length k range ps
  have hk : range.stride ≠ 0 := by
    rintro h0
    cases step with
    | none => cases h0
    | some i => exact hstep (congrArg some h0)
  have hvisits : Visits k (last length k stop) (first length k start) ps := by
    rw [← origin_ofIndices, ← limit_ofIndices]
    exact positionsBy_visits range length hk
  have hprogression := hvisits.isProgression
  have hinside : ∀ p ∈ ps, 0 ≤ p ∧ p < length := fun p hp => hprogression.inside hp
  let items := elementsAt (s.elements v) ps
  have hitems : ∀ x ∈ items, x ∈ s.elements v := fun x hx => mem_of_mem_elementsAt hx
  obtain ⟨hkind, helements⟩ := elements_withElements hv hitems
  refine ⟨hvisits, hprogression, hprogression.nodup hk, hinside, (withElements v items s).1,
    (withElements v items s).2, sliceOfBy_eq id range v s, withElements_grows v items s, hkind, ?_, ?_⟩
  · rw [helements]
    exact map_some_elementsAt hinside
  · intro hexact
    have hpositions : range.positions length = ps := hexact.positions_eq hk
    rw [sliceOf, sliceOfBy_eq]
    exact congrArg (fun ps => withElements v (elementsAt (s.elements v) ps) s) hpositions

/-- From beyond the end of a tuple in steps of two back to its first element, which is not reached. -/
theorem sliceOf_selects_backward :
    let s : Store := ⟨#[.tuple [.int 10, .int 11, .int 12, .int 13, .int 14]]⟩
    let range : SliceRange := ⟨some (.index 9), some (.index (-5)), some (-2)⟩
    s.isIndexed (.ref ⟨0⟩) = true ∧ range.step ≠ some 0 ∧ range.positionsBy id 5 = [4, 2] ∧
      ∃ w t, sliceOf range (.ref ⟨0⟩) s = (w, t) ∧ t.kind w = .tuple ∧
        t.elements w = [.int 14, .int 12] := by
  intro s range
  have hindexed : s.isIndexed (.ref ⟨0⟩) = true := rfl
  obtain ⟨-, -, -, -, w, t, -, -, hkind, helements, hword⟩ :=
    sliceOf_selects hindexed (some 9) (some (-5)) (some (-2)) (by decide)
  have hmap : (t.elements w).map some = ([.int 14, .int 12] : List Value).map some := helements
  refine ⟨hindexed, by decide, rfl, w, t, hword (by decide), hkind, ?_⟩
  exact List.map_injective_iff.mpr (Option.some_injective Value) hmap

end DottedPath

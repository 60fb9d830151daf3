import DottedPath.Proofs.Evaluate.SliceRead
import DottedPath.Proofs.Evaluate.SlotRemoval
import Mathlib.Data.List.Sort

/-!
# What is written through a slice

A slice of a list that is a run of neighbours is replaced as a whole.  In all other cases the covered
positions get the values one by one, in the order of the sequence and not in that of the slice, and
values that are left over come behind all elements (`interleaved`).

## Main statements

- `setSlice_reads_back`: as many values as the slice covers read back as they were written if the
  steps go forward, and in the opposite order if they go backward; all other elements stay.
- `setSlice_contiguous`: a run of neighbours in a list is replaced by any number of values.  In a tuple
  the values that are too many come last.
-/

namespace DottedPath

open SliceRange

variable {xs ys zs : List Value} {covered ps : List Int} {i n : Nat}

/-! ### Values one by one -/

/-- The covered ones of the `n` positions from `i` on, in ascending order. -/
def coveredFrom (covered : List Int) (i n : Nat) : List Nat :=
  (List.range' i n).filter fun j : Nat => covered.contains (j : Int)

theorem coveredFrom_succ (covered : List Int) (i n : Nat) :
    coveredFrom covered i (n + 1) =
      if (i : Int) ∈ covered then i :: coveredFrom covered (i + 1) n
      else coveredFrom covered (i + 1) n := by
  unfold coveredFrom
  rw [List.range'_succ, List.filter_cons]
  simp only [List.contains_iff_mem]

theorem interleaved_of_mem (h : (i : Int) ∈ covered) (x : Value) (xs ys : List Value) :
    interleaved covered i (x :: xs) ys = ys.take 1 ++ interleaved covered (i + 1) xs (ys.drop 1) := by
  conv_lhs => unfold interleaved
  rw [if_pos (List.contains_iff_mem.mpr h)]
  cases ys with
  | nil => rfl
  | cons y ys => rfl

theorem interleaved_of_not_mem (h : (i : Int) ∉ covered) (x : Value) (xs ys : List Value) :
    interleaved covered i (x :: xs) ys = x :: interleaved covered (i + 1) xs ys := by
  conv_lhs => unfold interleaved
  exact if_neg (mt List.contains_iff_mem.mp h)

theorem getElem?_append_cons_of_ne {front : List Value} {j : Nat} (h : j ≠ front.length)
    (x y : Value) (xs : List Value) : (front ++ x :: xs)[j]? = (front ++ y :: xs)[j]? := by
  rcases Nat.lt_or_gt_of_ne h with hlt | hgt
  · rw [List.getElem?_append_left hlt, List.getElem?_append_left hlt]
  · rw [List.getElem?_append_right hgt.le, List.getElem?_append_right hgt.le]
    obtain ⟨k, hk⟩ : ∃ k, j - front.length = k + 1 := ⟨j - front.length - 1, by omega⟩
    rw [hk, List.getElem?_cons_succ, List.getElem?_cons_succ]

/-- The second list is the first one with the values in place of the covered elements, in ascending
order. -/
structure Replaces (covered : List Int) (xs ys zs : List Value) : Prop where
  length_eq : zs.length = xs.length
  reads : (coveredFrom covered 0 xs.length).map (zs[·]?) = ys.map some
  other : ∀ j : Nat, (j : Int) ∉ covered → zs[j]? = xs[j]?

/-- The statement of `interleaved_replaces` behind some elements that are done. -/
theorem interleaved_behind (covered : List Int) : ∀ (xs ys done : List Value),
    ys.length = (coveredFrom covered done.length xs.length).length →
    (done ++ interleaved covered done.length xs ys).length = done.length + xs.length ∧
      (coveredFrom covered done.length xs.length).map
        ((done ++ interleaved covered done.length xs ys)[·]?) = ys.map some ∧
      ∀ j : Nat, (j : Int) ∉ covered →
        (done ++ interleaved covered done.length xs ys)[j]? = (done ++ xs)[j]? := by
  intro xs
  induction xs with
  | nil =>
    intro ys done hlength
    obtain rfl : ys = [] := List.length_eq_zero_iff.mp hlength
    simp [interleaved, coveredFrom]
  | cons x xs ih =>
    intro ys done hlength
    rw [List.length_cons, coveredFrom_succ] at hlength
    rw [List.length_cons, coveredFrom_succ]
    split_ifs at hlength ⊢ with hcovered
    · cases ys with
      | nil => simp at hlength
      | cons y ys =>
        have hstep : interleaved covered done.length (x :: xs) (y :: ys) =
            y :: interleaved covered (done.length + 1) xs ys :=
          interleaved_of_mem hcovered x xs (y :: ys)
        have hdone : (done ++ [y]).length = done.length + 1 := by simp
        obtain ⟨hall, hread, hother⟩ := ih ys (done ++ [y]) (by simpa using hlength)
        simp only [hdone, List.append_assoc, List.singleton_append] at hall hread hother
        rw [hstep]
        refine ⟨by omega, ?_, fun j hj => ?_⟩
        · rw [List.map_cons, hread]
          simp
        · rw [hother j hj]
          -- The position that has got the value is covered.
          refine getElem?_append_cons_of_ne ?_ y x xs
          rintro rfl
          exact hj hcovered
    · have hdone : (done ++ [x]).length = done.length + 1 := by simp
      obtain ⟨hall, hread, hother⟩ := ih ys (done ++ [x]) (by simpa using hlength)
      simp only [hdone, List.append_assoc, List.singleton_append] at hall hread hother
      rw [interleaved_of_not_mem hcovered]
      exact ⟨by omega, hread, hother⟩

/-- As many values as there are covered elements take their places. -/
theorem interleaved_replaces (hlength : ys.length = (coveredFrom covered 0 xs.length).length) :
    Replaces covered xs ys (interleaved covered 0 xs ys) := by
  obtain ⟨hall, hread, hother⟩ := interleaved_behind covered xs ys [] hlength
  exact ⟨by simpa using hall, hread, hother⟩

/-! ### Reading them back -/

/-- Positions in ascending order read the covered elements in their order. -/
theorem elementsAt_ascending (h : ps.Pairwise (· < ·)) (xs : List Value) :
    elementsAt xs ps = (coveredFrom ps 0 xs.length).filterMap (xs[·]?) := by
  -- Positions outside the sequence read nothing.
  have hinside : elementsAt xs ps =
      (ps.filter fun p : Int => decide (0 ≤ p ∧ p < xs.length)).filterMap
        fun p => xs[p.toNat]? := by
    rw [elementsAt, List.filterMap_filter]
    refine List.filterMap_congr fun p _ => ?_
    by_cases hp : 0 ≤ p
    · by_cases hlt : p < xs.length
      · simp [hp, hlt]
      · simp [hp, hlt]
    · simp [hp]
  -- The others are the covered ones, since both lists are in ascending order.
  have hpositions : (ps.filter fun p : Int => decide (0 ≤ p ∧ p < xs.length)) =
      (coveredFrom ps 0 xs.length).map (Nat.cast : Nat → Int) := by
    refine (h.sublist List.filter_sublist).eq_of_mem_iff ?_ fun p => ?_
    · rw [List.pairwise_map]
      exact ((List.pairwise_lt_range' ..).sublist List.filter_sublist).imp Int.ofNat_lt.mpr
    · simp only [coveredFrom, List.mem_filter, List.mem_map, List.mem_range'_1, decide_eq_true_eq,
        List.contains_iff_mem]
      constructor
      · rintro ⟨hp, hge, hlt⟩
        have hcast : ((p.toNat : Nat) : Int) = p := Int.toNat_of_nonneg hge
        exact ⟨p.toNat, ⟨by omega, by rwa [hcast]⟩, hcast⟩
      · rintro ⟨j, ⟨hj, hmem⟩, rfl⟩
        exact ⟨hmem, by omega, by omega⟩
  rw [hinside, hpositions, List.filterMap_map]
  rfl

/-- Positions in descending order read the same, backward. -/
theorem elementsAt_descending (h : ps.Pairwise (· > ·)) (xs : List Value) :
    elementsAt xs ps = ((coveredFrom ps 0 xs.length).filterMap (xs[·]?)).reverse := by
  have hcovered : coveredFrom ps.reverse 0 xs.length = coveredFrom ps 0 xs.length := by
    unfold coveredFrom
    simp
  have hback := elementsAt_ascending (List.pairwise_reverse.mpr h) xs
  rw [hcovered] at hback
  rw [← hback, elementsAt, elementsAt, List.filterMap_reverse, List.reverse_reverse]

/-- Positions in order read as many elements as they cover. -/
theorem length_elementsAt (h : ps.Pairwise (· < ·) ∨ ps.Pairwise (· > ·)) (xs : List Value) :
    (elementsAt xs ps).length = (coveredFrom ps 0 xs.length).length := by
  have hinside : ((coveredFrom ps 0 xs.length).filterMap (xs[·]?)).length =
      (coveredFrom ps 0 xs.length).length := by
    rw [List.filterMap_length_eq_length]
    intro j hj
    have hlt := List.mem_range'_1.mp (List.mem_of_mem_filter hj)
    simp
    omega
  rcases h with h | h
  · rw [elementsAt_ascending h, hinside]
  · rw [elementsAt_descending h, List.length_reverse, hinside]

/-- The values read back in ascending order. -/
theorem Replaces.read (h : Replaces covered xs ys zs) :
    (coveredFrom covered 0 zs.length).filterMap (zs[·]?) = ys := by
  have hsome : (coveredFrom covered 0 zs.length).filterMap (zs[·]?) =
      ((coveredFrom covered 0 zs.length).map (zs[·]?)).filterMap id := by
    rw [List.filterMap_map]
    rfl
  rw [hsome, h.length_eq, h.reads, List.filterMap_map]
  simp

/-! ### Runs of neighbours -/

/-- Elements that are not covered stay in front. -/
theorem interleaved_uncovered : ∀ (front : List Value) (i : Nat) (xs ys : List Value),
    (∀ j, i ≤ j → j < i + front.length → ((j : Nat) : Int) ∉ covered) →
    interleaved covered i (front ++ xs) ys =
      front ++ interleaved covered (i + front.length) xs ys := by
  intro front
  induction front with
  | nil => simp
  | cons x front ih =>
    intro i xs ys h
    rw [List.cons_append, interleaved_of_not_mem (h i le_rfl (by simp)), ih (i + 1) xs ys]
    · simp [Nat.add_assoc, Nat.add_comm 1]
    · intro j hj hlt
      exact h j (by omega) (by simp; omega)

/-- Covered elements make way for as many values. -/
theorem interleaved_covered : ∀ (front : List Value) (i : Nat) (xs ys : List Value),
    (∀ j, i ≤ j → j < i + front.length → ((j : Nat) : Int) ∈ covered) →
    interleaved covered i (front ++ xs) ys =
      ys.take front.length ++ interleaved covered (i + front.length) xs (ys.drop front.length) := by
  intro front
  induction front with
  | nil => simp
  | cons x front ih =>
    intro i xs ys h
    have hrest (j : Nat) (hj : i + 1 ≤ j) (hlt : j < i + 1 + front.length) : (j : Int) ∈ covered :=
      h j (by omega) (by simp; omega)
    rw [List.cons_append, interleaved_of_mem (h i le_rfl (by simp)),
      ih (i + 1) xs (ys.drop 1) hrest, List.drop_drop, ← List.append_assoc, ← List.take_add]
    simp [Nat.add_assoc, Nat.add_comm 1]

namespace SliceRange

variable {range : SliceRange}

theorem stride_of_isContiguous (hc : range.isContiguous = true) : range.stride = 1 := by
  unfold isContiguous at hc
  unfold stride
  cases hstep : range.step with
  | none => rfl
  | some k => simpa [hstep] using hc

theorem origin_of_isContiguous (hc : range.isContiguous = true) (n : Nat) :
    range.origin n = range.insertionPoint n := by
  unfold origin insertionPoint resolve
  rw [stride_of_isContiguous hc]
  cases range.start with
  | none => rfl
  | some b =>
    cases b with
    | length => rfl
    | index i =>
      simp only [isForward]
      split_ifs <;> simp <;> omega

/-- The positions of a run of neighbours are those from the place on where it would insert. -/
theorem positionsBy_contiguous (hc : range.isContiguous = true) (n : Nat) :
    ∃ k, range.insertionPoint n + k ≤ n ∧ range.positionsBy id n =
      (List.range' (range.insertionPoint n) k).map (Nat.cast : Nat → Int) := by
  have hone := stride_of_isContiguous hc
  have horigin := origin_of_isContiguous hc n
  have hstart : range.origin n ≤ n :=
    (resolve_bounds n range.stride range.start (by split_ifs <;> omega)).2
  have hstop : range.limit n ≤ n :=
    (resolve_bounds n range.stride range.stop (by split_ifs <;> omega)).2
  have hprogression := (positionsBy_visits range n (by omega)).isProgression
  rw [hone, horigin] at hprogression
  refine ⟨(range.positionsBy id n).length, ?_, ?_⟩
  · cases hlength : (range.positionsBy id n).length with
    | zero => omega
    | succ k =>
      have hlast : (range.insertionPoint n : Int) + k * 1 < range.limit n :=
        (hprogression.before_iff k).mp (by omega)
      omega
  · rw [List.range'_eq_map_range, List.map_map]
    refine hprogression.terms.trans (List.map_congr_left fun k _ => ?_)
    simp

/-- Neighbours are stepped through exactly, as long as the length is not too large. -/
theorem exact_of_isContiguous (hc : range.isContiguous = true) (hn : Word.fits n = true) :
    range.Exact n := by
  obtain ⟨k, hle, hpositions⟩ := positionsBy_contiguous hc n
  intro p hp
  rw [hpositions, List.mem_map] at hp
  obtain ⟨j, hj, rfl⟩ := hp
  rw [List.mem_range'_1] at hj
  rw [stride_of_isContiguous hc]
  rw [Word.fits_iff] at *
  omega

end SliceRange

/-- Written one by one, the values that are too many for a run of neighbours come last. -/
theorem interleaved_run {a k : Nat} (hle : a + k ≤ xs.length) (ys : List Value) :
    interleaved ((List.range' a k).map (Nat.cast : Nat → Int)) 0 xs ys =
      xs.take a ++ ys.take k ++ xs.drop (a + k) ++ ys.drop k := by
  have hmem (j : Nat) : (j : Int) ∈ (List.range' a k).map (Nat.cast : Nat → Int) ↔
      a ≤ j ∧ j < a + k := by simp
  have hfront : (xs.take a).length = a := by simp; omega
  have hmiddle : ((xs.drop a).take k).length = k := by simp; omega
  calc
    _ = interleaved ((List.range' a k).map (Nat.cast : Nat → Int)) 0
          (xs.take a ++ ((xs.drop a).take k ++ xs.drop (a + k))) ys := by
      rw [← List.drop_drop, List.take_append_drop, List.take_append_drop]
    _ = xs.take a ++ interleaved _ a ((xs.drop a).take k ++ xs.drop (a + k)) ys := by
      rw [interleaved_uncovered _ _ _ _ fun j _ hj => by rw [hmem]; omega, hfront, Nat.zero_add]
    _ = xs.take a ++ (ys.take k ++ interleaved _ (a + k) (xs.drop (a + k)) (ys.drop k)) := by
      rw [interleaved_covered _ _ _ _ fun j _ hj => by rw [hmem]; omega, hmiddle]
    _ = xs.take a ++ (ys.take k ++ (xs.drop (a + k) ++ ys.drop k)) := by
      have hafter (j : Nat) (hj : a + k ≤ j) :
          (j : Int) ∉ (List.range' a k).map (Nat.cast : Nat → Int) := by
        rw [hmem]
        omega
      have hend := interleaved_uncovered (xs.drop (a + k)) (a + k) [] (ys.drop k)
        fun j hj _ => hafter j hj
      rw [List.append_nil] at hend
      rw [hend]
      simp [interleaved]
    _ = _ := by simp only [List.append_assoc]

/-- **A run of neighbours that is written**: in a list the values replace it, however many they are.
One by one, those that are too many come last. -/
theorem sliceWritten_contiguous {range : SliceRange} (hc : range.isContiguous = true)
    (hexact : range.Exact xs.length) :
    ∃ a k, a + k ≤ xs.length ∧
      range.positions xs.length = (List.range' a k).map (Nat.cast : Nat → Int) ∧
      ∀ ys, sliceWritten true range xs ys = xs.take a ++ ys ++ xs.drop (a + k) ∧
        sliceWritten false range xs ys =
          xs.take a ++ ys.take k ++ xs.drop (a + k) ++ ys.drop k := by
  obtain ⟨k, hle, hpositions⟩ := positionsBy_contiguous hc xs.length
  rw [← hexact.positions_eq (by rw [stride_of_isContiguous hc]; decide)] at hpositions
  refine ⟨range.insertionPoint xs.length, k, hle, hpositions, fun ys => ⟨?_, ?_⟩⟩
  · unfold sliceWritten spliced
    simp only [hc, hpositions, Bool.and_self, if_true]
    cases k with
    | zero => simp
    | succ k =>
      simp [List.head?_range', List.getLast?_range']
      omega
  · unfold sliceWritten
    rw [Bool.false_and, if_neg Bool.false_ne_true, hpositions, interleaved_run hle]

/-- The values take the places that the slice covers, in ascending order, also in a run of neighbours
that is replaced as a whole. -/
theorem sliceWritten_replaces {range : SliceRange} (asList : Bool) (hexact : range.Exact xs.length)
    (hlength : ys.length = (coveredFrom (range.positions xs.length) 0 xs.length).length) :
    Replaces (range.positions xs.length) xs ys (sliceWritten asList range xs ys) := by
  have honebyone := interleaved_replaces hlength
  -- What replaces a run as a whole is what takes its places one by one, as nothing is left over.
  by_cases hrun : (asList && range.isContiguous) = true
  · obtain ⟨rfl, hc⟩ := Bool.and_eq_true_iff.mp hrun
    obtain ⟨a, k, hle, hpositions, hwritten⟩ := sliceWritten_contiguous hc hexact
    have hcovered : coveredFrom (range.positions xs.length) 0 xs.length = List.range' a k := by
      refine ((List.pairwise_lt_range' ..).sublist List.filter_sublist).eq_of_mem_iff
        (List.pairwise_lt_range' ..) fun j => ?_
      simp [hpositions]
      omega
    have hk : ys.length = k := by simpa [hcovered] using hlength
    have hsame : sliceWritten true range xs ys = interleaved (range.positions xs.length) 0 xs ys := by
      rw [(hwritten ys).1, hpositions, interleaved_run hle, List.take_of_length_le hk.le,
        List.drop_of_length_le hk.le, List.append_nil]
    rwa [hsame]
  · unfold sliceWritten
    rw [if_neg hrun]
    exact honebyone

/-- **As many values as a slice covers read back** after they have taken its places: in the same order
if the steps go forward, in the opposite order if they go backward.  The other elements stay. -/
theorem pick_sliceWritten {range : SliceRange} (asList : Bool) (hstep : range.stride ≠ 0)
    (hexact : range.Exact xs.length) (hlength : ys.length = (range.pick xs).length) :
    (range.pick (sliceWritten asList range xs ys) =
      if isForward range.stride then ys else ys.reverse) ∧
      ∀ j : Nat, (j : Int) ∉ range.positions xs.length →
        (sliceWritten asList range xs ys)[j]? = xs[j]? := by
  have hprogression := (positionsBy_visits range xs.length hstep).isProgression
  rw [← hexact.positions_eq hstep] at hprogression
  have horder := hprogression.pairwise hstep
  have hpick (zs : List Value) (hzs : zs.length = xs.length) :
      range.pick zs = elementsAt zs (range.positions xs.length) := by
    rw [← hzs]
    rfl
  rw [hpick xs rfl] at hlength
  split_ifs at horder ⊢ with hforward
  · rw [length_elementsAt (.inl horder)] at hlength
    have hreplaces := sliceWritten_replaces asList hexact hlength
    rw [hpick _ hreplaces.length_eq, elementsAt_ascending horder]
    exact ⟨hreplaces.read, hreplaces.other⟩
  · rw [length_elementsAt (.inr horder)] at hlength
    have hreplaces := sliceWritten_replaces asList hexact hlength
    rw [hpick _ hreplaces.length_eq, elementsAt_descending horder]
    exact ⟨congrArg List.reverse hreplaces.read, hreplaces.other⟩

/-! ### Writing through a slice -/

namespace Store

variable {s t : Store} {v w : Value}

theorem Sequence.grows (hst : s.GrowsTo t) (h : s.Sequence v xs) : t.Sequence v xs := by
  obtain ⟨g, rfl, hc⟩ := h
  exact ⟨g, rfl, hc.imp (hst g _) (hst g _)⟩

/-- The slice of a list or a tuple is one too. -/
theorem Sequence.slice (h : s.Sequence v xs) (range : SliceRange) :
    (sliceOf range v s).2.Sequence (sliceOf range v s).1 (range.pick xs) := by
  obtain ⟨g, rfl, hc | hc⟩ := h
  · rw [sliceOf_list (v := .ref g) range hc]
    exact ⟨_, rfl, .inl (get?_push_next s _)⟩
  · rw [sliceOf_tuple (v := .ref g) range hc]
    exact ⟨_, rfl, .inr (get?_push_next s _)⟩

theorem Sequence.replacement (h : s.Sequence w ys) : s.replacement w = ys := by
  have hlike : s.isListLike w = true := by
    obtain ⟨g, rfl, hc | hc⟩ := h
    · rw [isListLike, kind, hc]
      rfl
    · rw [isListLike, kind, hc]
      rfl
  rw [Store.replacement, hlike, Bool.true_or, if_pos rfl, h.elements]

/-- A write through a slice: nothing is written that the slice holds already. -/
theorem setSlice_rewrites (h : s.Sequence v xs) (hw : s.Sequence w ys) (range : SliceRange) :
    if (sliceOf range v s).2.equals (sliceOf range v s).1 w then
      setSlice v range w s = (v, (sliceOf range v s).2)
    else (sliceOf range v s).2.Rewrites v (setSlice v range w s).2 (setSlice v range w s).1
      (sliceWritten (s.kind v == .list) range xs ys) := by
  split_ifs with heq
  · exact setSlice_of_equals h.isIndexed heq
  · have hrun : setSlice v range w s =
        replaceElements v (sliceWritten (s.kind v == .list) range xs ys) (sliceOf range v s).2 := by
      unfold setSlice
      rw [StoreM.run_bind, StoreM.run_get, h.isIndexed, Bool.not_true, if_neg Bool.false_ne_true,
        StoreM.run_bind, StoreM.run_bind, StoreM.run_get, if_neg heq, h.elements, hw.replacement]
    rw [hrun]
    exact replaceElements_rewrites (h.grows (sliceOf_grows range v s)) _

/-- **Writing as many values as a slice covers** gives a sequence whose slice reads them, backward if
the steps go backward, and whose other elements are what they were.  Only what the slice holds already
is not written. -/
theorem setSlice_reads_back (h : s.Sequence v xs) (hw : s.Sequence w ys) {range : SliceRange}
    (hstep : range.stride ≠ 0) (hexact : range.Exact xs.length)
    (hlength : ys.length = (range.pick xs).length) :
    ∃ u t zs, setSlice v range w s = (u, t) ∧ t.Sequence u zs ∧
      (sliceOf range u t).2.Sequence (sliceOf range u t).1 (range.pick zs) ∧
      (∀ j : Nat, (j : Int) ∉ range.positions xs.length → zs[j]? = xs[j]?) ∧
      if (sliceOf range v s).2.equals (sliceOf range v s).1 w then zs = xs
      else range.pick zs = if isForward range.stride then ys else ys.reverse := by
  have hwritten := setSlice_rewrites h hw range
  by_cases heq : (sliceOf range v s).2.equals (sliceOf range v s).1 w = true
  · simp only [if_pos heq] at hwritten ⊢
    have hsame : (sliceOf range v s).2.Sequence v xs := h.grows (sliceOf_grows range v s)
    exact ⟨v, _, xs, hwritten, hsame, hsame.slice range, fun _ _ => rfl, rfl⟩
  · simp only [if_neg heq] at hwritten ⊢
    obtain ⟨hread, hother⟩ := pick_sliceWritten (s.kind v == .list) hstep hexact hlength
    have hnew := hwritten.sequence
    exact ⟨_, _, _, rfl, hnew, hnew.slice range, hother, hread⟩

/-- **A run of neighbours that is written through a slice**: in a list any number of values replaces it.
In a tuple those that are too many come last, so that it agrees with the list if there are none, or
nothing behind the run. -/
theorem setSlice_contiguous (h : s.Sequence v xs) (hw : s.Sequence w ys) {range : SliceRange}
    (hc : range.isContiguous = true) (hn : Word.fits xs.length = true) :
    ∃ u t a k zs, setSlice v range w s = (u, t) ∧ t.Sequence u zs ∧ a + k ≤ xs.length ∧
      range.positions xs.length = (List.range' a k).map (Nat.cast : Nat → Int) ∧
      if (sliceOf range v s).2.equals (sliceOf range v s).1 w then zs = xs
      else if s.kind v == .list then zs = xs.take a ++ ys ++ xs.drop (a + k)
      else zs = xs.take a ++ ys.take k ++ xs.drop (a + k) ++ ys.drop k := by
  obtain ⟨a, k, hle, hpositions, hsplices⟩ :=
    sliceWritten_contiguous hc (exact_of_isContiguous hc hn)
  have hwritten := setSlice_rewrites h hw range
  by_cases heq : (sliceOf range v s).2.equals (sliceOf range v s).1 w = true
  · simp only [if_pos heq] at hwritten ⊢
    have hsame : (sliceOf range v s).2.Sequence v xs := h.grows (sliceOf_grows range v s)
    exact ⟨v, _, a, k, xs, hwritten, hsame, hle, hpositions, rfl⟩
  · simp only [if_neg heq] at hwritten ⊢
    refine ⟨_, _, a, k, _, rfl, hwritten.sequence, hle, hpositions, ?_⟩
    split_ifs with hlist
    · rw [hlist]
      exact (hsplices ys).1
    · rw [Bool.eq_false_of_not_eq_true hlist]
      exact (hsplices ys).2

end Store

/-! ### Backward, and in tuples -/

/-- Values that are written backward are read in the opposite order. -/
example : sliceWritten true ⟨none, none, some (-1)⟩ [.int 1, .int 2, .int 3] [.int 7, .int 8, .int 9] =
    [.int 7, .int 8, .int 9] := rfl

/-- A tuple has the values that are too many behind its other elements. -/
example : sliceWritten false ⟨some (.index 0), some (.index 1), none⟩ [.int 1, .int 2, .int 3]
    [.int 7, .int 8] = [.int 7, .int 2, .int 3, .int 8] := rfl

end DottedPath

import DottedPath.Evaluate.Walk
import DottedPath.Proofs.Evaluate.Yields
import Mathlib.Data.List.Find

/-!
# Values that read the same

A slice is a new sequence each time it is taken.  Two of them are alike: they read the same element
by element, though their handles differ.  Everything else that is alike is the very same value.
-/

namespace DottedPath

namespace Store

/-! ### Sequences -/

/-- Two values of two stores are the same when read as sequences. -/
structure SameSequence (s : Store) (v : Value) (t : Store) (w : Value) : Prop where
  kind : s.kind v = t.kind w
  length : s.length? v = t.length? w
  elements : s.elements v = t.elements w

namespace SameSequence

variable {s t u : Store} {v w x : Value}

theorem of_grows (hst : s.GrowsTo t) (hv : s.Holds v) : SameSequence s v t v := by
  cases v with
  | scalar x => exact ⟨rfl, rfl, by cases x <;> rfl⟩
  | ref h =>
    have hget := hst.get?_of_lt (holds_ref.mp hv)
    exact ⟨by rw [Store.kind, Store.kind, hget], by rw [length?, length?, hget],
      by rw [Store.elements, Store.elements, hget]⟩

theorem trans (h : SameSequence s v t w) (h' : SameSequence t w u x) : SameSequence s v u x :=
  ⟨h.kind.trans h'.kind, h.length.trans h'.length, h.elements.trans h'.elements⟩

theorem isIndexed (h : SameSequence s v t w) : s.isIndexed v = t.isIndexed w := by
  rw [Store.isIndexed, Store.isIndexed, h.kind]

theorem elementAt? (h : SameSequence s v t w) (i : Int) : s.elementAt? v i = t.elementAt? w i := by
  rw [Store.elementAt?, Store.elementAt?, h.isIndexed, position?, position?, h.length, h.elements]

end SameSequence

/-- What has positions has no keys. -/
theorem isKeyed_of_isIndexed {s : Store} {v : Value} (hi : s.isIndexed v = true) :
    s.isKeyed v = false := by
  rw [isIndexed] at hi
  rw [isKeyed]
  cases hk : s.kind v <;> rw [hk] at hi <;> first | rfl | cases hi

/-- Only sequences and texts have elements. -/
theorem isIndexed_of_elementAt? {s : Store} {node x : Value} {i : Int}
    (h : s.elementAt? node i = some x) :
    s.isIndexed node = true := by
  unfold elementAt? at h
  split at h
  · assumption
  · cases h

/-- Only what is there has positions. -/
theorem holds_of_isIndexed {s : Store} {v : Value} (hi : s.isIndexed v = true) : s.Holds v := by
  rintro h rfl
  cases hc : s.get? h with
  | none =>
    rw [isIndexed, kind, hc] at hi
    cases hi
  | some c => exact lt_size_of_get? hc

/-- What has positions is a text, bytes, a list or a tuple. -/
theorem cases_of_isIndexed {s : Store} {v : Value} (hi : s.isIndexed v = true) :
    (∃ t, v = .str t) ∨ (∃ bs, v = .bytes bs) ∨
      ∃ h xs, v = .ref h ∧ (s.get? h = some (.list xs) ∨ s.get? h = some (.tuple xs)) := by
  cases v with
  | scalar x =>
    cases x with
    | str t => exact .inl ⟨t, rfl⟩
    | bytes bs => exact .inr (.inl ⟨bs, rfl⟩)
    | _ => cases hi
  | ref h =>
    rw [isIndexed, kind] at hi
    cases hc : s.get? h with
    | none =>
      rw [hc] at hi
      cases hi
    | some c =>
      rw [hc] at hi
      cases c with
      | list xs => exact .inr (.inr ⟨h, xs, rfl, .inl hc⟩)
      | tuple xs => exact .inr (.inr ⟨h, xs, rfl, .inr hc⟩)
      | _ => cases hi

/-! ### Alike values -/

/-- The same value, or two lists or two tuples of the same elements. -/
def Alike (s : Store) (v w : Value) : Prop :=
  v = w ∨ ∃ c, (c.kind = .list ∨ c.kind = .tuple) ∧ s.container? v = some c ∧
    s.container? w = some c

namespace Alike

variable {s t : Store} {v w : Value}

theorem refl (s : Store) (v : Value) : s.Alike v v := .inl rfl

theorem grows (hst : s.GrowsTo t) (h : s.Alike v w) : t.Alike v w := by
  rcases h with rfl | ⟨c, hk, hv, hw⟩
  · exact .refl t v
  · refine .inr ⟨c, hk, ?_, ?_⟩
    · cases v with
      | scalar x => cases hv
      | ref g => exact hst g c hv
    · cases w with
      | scalar x => cases hw
      | ref g => exact hst g c hw

theorem sameSequence (h : s.Alike v w) : SameSequence s v s w := by
  rcases h with rfl | ⟨c, -, hv, hw⟩
  · exact ⟨rfl, rfl, rfl⟩
  · cases v with
    | scalar x => cases hv
    | ref g =>
      cases w with
      | scalar x => cases hw
      | ref h =>
        have hg : s.get? g = some c := hv
        have hh : s.get? h = some c := hw
        exact ⟨by rw [Store.kind, Store.kind, hg, hh], by rw [length?, length?, hg, hh],
          by rw [Store.elements, Store.elements, hg, hh]⟩

theorem container?_eq (h : s.Alike v w) {c : Container} (hc : s.container? v = some c) :
    s.container? w = some c := by
  rcases h with rfl | ⟨d, -, hv, hw⟩
  · exact hc
  · rw [hw, ← hv, hc]

/-- What is no container is alike only to itself. -/
theorem eq_of_scalar {x : Scalar} (h : s.Alike (.scalar x) w) : w = .scalar x := by
  rcases h with rfl | ⟨d, -, hv, -⟩
  · rfl
  · cases hv

/-- A container that is no sequence is alike only to itself. -/
theorem eq_of_container? (h : s.Alike v w) {c : Container} (hc : s.container? v = some c)
    (hl : c.kind ≠ .list) (ht : c.kind ≠ .tuple) : w = v := by
  rcases h with rfl | ⟨d, hk, hv, -⟩
  · rfl
  · cases hc.symm.trans hv
    exact (hk.elim hl ht).elim

end Alike

end Store

/-! ### Slices -/

/-- The elements at some positions, those inside the list. -/
def elementsAt (elements : List Value) (positions : List Int) : List Value :=
  positions.filterMap fun i => if 0 ≤ i then elements[i.toNat]? else none

theorem mem_of_mem_elementsAt {elements : List Value} {positions : List Int} {x : Value}
    (hx : x ∈ elementsAt elements positions) : x ∈ elements := by
  obtain ⟨i, -, hi⟩ := List.mem_filterMap.mp hx
  split at hi
  · exact List.mem_of_getElem? hi
  · cases hi

/-- The elements at the positions of a slice. -/
def SliceRange.pick (range : SliceRange) (elements : List Value) : List Value :=
  (range.positions elements.length).filterMap fun i =>
    if 0 ≤ i then elements[i.toNat]? else none

theorem SliceRange.mem_of_mem_pick {range : SliceRange} {elements : List Value} {x : Value}
    (hx : x ∈ range.pick elements) : x ∈ elements :=
  mem_of_mem_elementsAt hx

theorem sliceOf_eq (range : SliceRange) (v : Value) (s : Store) :
    sliceOf range v s = withElements v (range.pick (s.elements v)) s := rfl

variable {s : Store} {v : Value} {xs : List Value}

theorem Store.elements_of_list (hc : s.container? v = some (.list xs)) : s.elements v = xs := by
  cases v with
  | scalar x => cases hc
  | ref h =>
    have hget : s.get? h = some (.list xs) := hc
    rw [Store.elements, hget]

theorem Store.elements_of_tuple (hc : s.container? v = some (.tuple xs)) : s.elements v = xs := by
  cases v with
  | scalar x => cases hc
  | ref h =>
    have hget : s.get? h = some (.tuple xs) := hc
    rw [Store.elements, hget]

theorem sliceOf_list (range : SliceRange) (hc : s.container? v = some (.list xs)) :
    sliceOf range v s = (.ref s.next, s.push (.list (range.pick xs))) := by
  rw [sliceOf_eq, Store.elements_of_list hc]
  cases v with
  | scalar x => cases hc
  | ref h =>
    unfold withElements
    rw [hc]
    rfl

theorem sliceOf_tuple (range : SliceRange) (hc : s.container? v = some (.tuple xs)) :
    sliceOf range v s = (.ref s.next, s.push (.tuple (range.pick xs))) := by
  rw [sliceOf_eq, Store.elements_of_tuple hc]
  cases v with
  | scalar x => cases hc
  | ref h =>
    unfold withElements
    rw [hc]
    rfl

/-- The slice of a text is the same text in every store. -/
theorem sliceOf_str (range : SliceRange) (text : String) (s t : Store) :
    sliceOf range (.str text) t = ((sliceOf range (.str text) s).1, t) := by
  have htexts : (range.pick (s.elements (.str text))).map t.text =
      (range.pick (s.elements (.str text))).map s.text := by
    refine List.map_congr_left fun x hx => ?_
    obtain ⟨c, -, rfl⟩ := List.mem_map.mp (SliceRange.mem_of_mem_pick hx)
    rfl
  have helements : t.elements (.str text) = s.elements (.str text) := rfl
  rw [sliceOf_eq, sliceOf_eq, helements]
  show (Value.str ("".intercalate ((range.pick (s.elements (.str text))).map t.text)), t) = _
  rw [htexts]
  rfl

/-- The slice of bytes is the same in every store. -/
theorem sliceOf_bytes (range : SliceRange) (bs : List UInt8) (s t : Store) :
    sliceOf range (.bytes bs) t = ((sliceOf range (.bytes bs) s).1, t) := rfl

end DottedPath

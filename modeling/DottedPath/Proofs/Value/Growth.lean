import DottedPath.Value.View
import Mathlib.Data.List.Perm.Subperm

/-!
# Stores that grow

A store grows when containers are added and those that are there stay as they are.  What is read of
a value that the store holds is then still the same.
-/

namespace DottedPath.Store

/-! ### Handles of a store -/

/-- The handle of a container names one that is there. -/
def Holds (s : Store) (v : Value) : Prop :=
  ∀ h, v = .ref h → h.index < s.size

theorem holds_scalar (s : Store) (x : Scalar) : s.Holds (.scalar x) := by
  rintro h ⟨⟩

theorem holds_ref {s : Store} {h : Handle} : s.Holds (.ref h) ↔ h.index < s.size :=
  ⟨fun hv => hv h rfl, by rintro hlt g ⟨⟩; exact hlt⟩

theorem lt_size_of_get? {s : Store} {h : Handle} {c : Container} (hc : s.get? h = some c) :
    h.index < s.size :=
  (Array.getElem?_eq_some_iff.mp hc).1

theorem get?_of_lt {s : Store} {h : Handle} (hlt : h.index < s.size) :
    ∃ c, s.get? h = some c :=
  ⟨s.cells[h.index], Array.getElem?_eq_getElem hlt⟩

/-- The next handle is not that of a container which is there. -/
theorem ne_next_of_lt {s : Store} {h : Handle} (hlt : h.index < s.size) : h ≠ s.next := by
  rintro rfl
  exact Nat.lt_irrefl _ hlt

/-- A way through containers that are there enters no more than there are, if it enters none
twice. -/
theorem length_le_size {s : Store} {above : List Handle} (hnodup : above.Nodup)
    (hlt : ∀ h ∈ above, h.index < s.size) : above.length ≤ s.size := by
  have hinj : (above.map Handle.index).Nodup :=
    List.Pairwise.map _ (fun _ _ hne he => hne (congrArg Handle.mk he)) hnodup
  have hsub : above.map Handle.index ⊆ List.range s.size := by
    intro i hi
    obtain ⟨h, hh, rfl⟩ := List.mem_map.mp hi
    exact List.mem_range.mpr (hlt h hh)
  have hle := (List.subperm_of_subset hinj hsub).length_le
  rwa [List.length_map, List.length_range] at hle

/-- What has keys is a dict. -/
theorem container?_of_isKeyed {s : Store} {v : Value} (hk : s.isKeyed v = true) :
    ∃ es, s.container? v = some (.dict es) := by
  rw [isKeyed, beq_iff_eq] at hk
  cases v with
  | scalar x => cases x <;> cases hk
  | ref h =>
    rw [kind] at hk
    show ∃ es, s.get? h = some (.dict es)
    cases hc : s.get? h with
    | none =>
      rw [hc] at hk
      cases hk
    | some c =>
      rw [hc] at hk
      cases c with
      | dict es => exact ⟨es, rfl⟩
      | _ => cases hk

/-- What cannot be edited has no keys. -/
theorem isKeyed_of_not_isMutable {s : Store} {v : Value} (h : s.isMutable v = false) :
    s.isKeyed v = false := by
  by_contra hkeyed
  obtain ⟨es, hc⟩ := container?_of_isKeyed (Bool.not_eq_false _ ▸ hkeyed)
  rw [isMutable, hc] at h
  cases h

theorem isKeyed_of_get? {s : Store} {h : Handle} {es : List (Value × Value)}
    (hd : s.get? h = some (.dict es)) : s.isKeyed (.ref h) = true := by
  rw [isKeyed, kind, hd]
  rfl

theorem isKeyed_of_container? {s : Store} {v : Value} {es : List (Value × Value)}
    (hc : s.container? v = some (.dict es)) : s.isKeyed v = true := by
  cases v with
  | scalar x => cases hc
  | ref h => exact isKeyed_of_get? hc

/-- A write can go into every container. -/
theorem isEnterable_of_get? {s : Store} {h : Handle} {c : Container} (hc : s.get? h = some c) :
    s.isEnterable (.ref h) = true := by
  rw [isEnterable, kind, hc]
  cases c <;> rfl

/-- Of two writes to a container the second one counts. -/
theorem set_set (s : Store) (h : Handle) (c d : Container) : (s.set h c).set h d = s.set h d := by
  rw [Store.set, Store.set, Store.set, Array.setIfInBounds_setIfInBounds]

/-- Writing what is there changes nothing. -/
theorem set_of_get? {s : Store} {h : Handle} {c : Container} (hc : s.get? h = some c) :
    s.set h c = s := by
  obtain ⟨hlt, rfl⟩ := Array.getElem?_eq_some_iff.mp hc
  rw [Store.set, Array.setIfInBounds_def, dif_pos hlt, Array.set_getElem_self]

/-! ### Growth -/

/-- The second store has all containers of the first, with the same contents. -/
def GrowsTo (s t : Store) : Prop :=
  ∀ h c, s.get? h = some c → t.get? h = some c

namespace GrowsTo

variable {s t u : Store}

theorem refl (s : Store) : s.GrowsTo s := fun _ _ hc => hc

theorem trans (hst : s.GrowsTo t) (htu : t.GrowsTo u) : s.GrowsTo u :=
  fun h c hc => htu h c (hst h c hc)

theorem push (s : Store) (c : Container) : s.GrowsTo (s.push c) := by
  intro h d hd
  rw [get?_push_of_lt c (lt_size_of_get? hd), hd]

theorem get?_of_lt (hst : s.GrowsTo t) {h : Handle} (hlt : h.index < s.size) :
    t.get? h = s.get? h := by
  obtain ⟨c, hc⟩ := Store.get?_of_lt hlt
  rw [hc, hst h c hc]

theorem size_le (hst : s.GrowsTo t) : s.size ≤ t.size := by
  rcases Nat.eq_zero_or_pos s.size with h0 | hpos
  · omega
  · obtain ⟨c, hc⟩ := Store.get?_of_lt (s := s) (h := ⟨s.size - 1⟩)
      (by show s.size - 1 < s.size; omega)
    have hlt : s.size - 1 < t.size := lt_size_of_get? (hst _ _ hc)
    omega

theorem holds (hst : s.GrowsTo t) {v : Value} (hv : s.Holds v) : t.Holds v :=
  fun h hvh => Nat.lt_of_lt_of_le (hv h hvh) hst.size_le

/-- The content of a value that was there is the same. -/
theorem container?_eq (hst : s.GrowsTo t) {v : Value} (hv : s.Holds v) :
    t.container? v = s.container? v := by
  cases v with
  | scalar x => rfl
  | ref h => exact hst.get?_of_lt (holds_ref.mp hv)

theorem entries_eq (hst : s.GrowsTo t) {v : Value} (hv : s.Holds v) :
    t.entries v = s.entries v := by
  rw [entries, entries, hst.container?_eq hv]

theorem isMutable_eq (hst : s.GrowsTo t) {v : Value} (hv : s.Holds v) :
    t.isMutable v = s.isMutable v := by
  rw [isMutable, isMutable, hst.container?_eq hv]

/-! #### Containers that have been added -/

/-- The next container is not one that can be edited now. -/
theorem isMutable_next (hst : s.GrowsTo t) : s.isMutable (.ref t.next) = false := by
  have hnone : s.container? (.ref t.next) = none := by
    show s.get? t.next = none
    cases hc : s.get? t.next with
    | none => rfl
    | some c => exact absurd rfl (ne_next_of_lt (lt_size_of_get? (hst _ c hc)))
  rw [isMutable, hnone]
  rfl

/-- What can be edited, but could not be edited before, has been added. -/
theorem get?_eq_none {h : Handle} {c : Container} (hst : s.GrowsTo t) (hc : t.get? h = some c)
    (hmutable : c.isMutable = true) (hold : s.isMutable (.ref h) = false) : s.get? h = none := by
  cases hd : s.get? h with
  | none => rfl
  | some d =>
    cases (hst h d hd).symm.trans hc
    have hc' : s.container? (.ref h) = some c := hd
    rw [isMutable, hc'] at hold
    cases hmutable.symm.trans hold

/-- What has been added may be edited. -/
theorem set_new {h : Handle} (hst : s.GrowsTo t) (hnew : s.get? h = none) (c : Container) :
    s.GrowsTo (t.set h c) := by
  intro g d hd
  have hne : g ≠ h := by
    rintro rfl
    cases hnew.symm.trans hd
  rw [get?_set_ne c hne]
  exact hst g d hd

end GrowsTo

end DottedPath.Store

import DottedPath.Value.Comparison
import DottedPath.Value.View
import Mathlib.Data.List.Basic

/-!
# What collections hold

Which positions of a sequence indexes name, and what is left of a list without the elements at some
positions.  Positions that are removed one by one, from the last to the first, are those that they
were at the beginning (`foldl_eraseIdx_eq_without`).

The parts of a dict or an object are those of its entries.  What is in a collection after an edit
was there before or is what has been written.
-/

namespace DottedPath

/-! ### Indexes -/

theorem isSome_resolveIndex? (n : Nat) (i : Int) :
    (resolveIndex? n i).isSome ↔ -n ≤ i ∧ i < n := by
  unfold resolveIndex? fromStart
  split_ifs <;> simp <;> omega

theorem resolveIndex?_natCast {n i : Nat} (h : i < n) : resolveIndex? n (i : Int) = some i := by
  have hstart : fromStart n i = i := by rw [fromStart, if_neg (by omega)]
  rw [resolveIndex?, hstart, if_pos (by omega), Int.toNat_natCast]

/-! ### Other positions -/

section

variable {α : Type}

/-- The elements at other positions than some given ones. -/
def without (positions : List Int) (xs : List α) : List α :=
  (xs.zipIdx.filter fun (_, i) => !positions.contains (i : Int)).map Prod.fst

@[simp] theorem without_nil (xs : List α) : without [] xs = xs := by simp [without]

/-- Elements behind all given positions stay. -/
theorem without_append {positions : List Int} {xs : List α}
    (h : ∀ p ∈ positions, p < xs.length) (ys : List α) :
    without positions (xs ++ ys) = without positions xs ++ ys := by
  have hlater : (ys.zipIdx xs.length).filter (fun (_, i) => !positions.contains (i : Int)) =
      ys.zipIdx xs.length := by
    rw [List.filter_eq_self]
    rintro ⟨y, i⟩ hmem
    have hle : xs.length ≤ i := List.le_snd_of_mem_zipIdx hmem
    have hout : (i : Int) ∉ positions := by
      intro hi
      have hlt := h _ hi
      omega
    simpa using hout
  rw [without, List.zipIdx_append, Nat.zero_add, List.filter_append, hlater, List.map_append,
    without, List.zipIdx_map_fst]

/-- The last of the given positions is that of one element. -/
theorem without_cons {positions : List Int} {xs : List α}
    (h : ∀ p ∈ positions, p < xs.length) (x : α) (ys : List α) :
    without ((xs.length : Int) :: positions) (xs ++ x :: ys) = without positions (xs ++ ys) := by
  have hbound : ∀ p ∈ (xs.length : Int) :: positions, p < (xs ++ [x]).length := by
    intro p hp
    rw [List.length_append, List.length_singleton]
    rcases List.mem_cons.mp hp with rfl | hp
    · omega
    · have hlt := h p hp
      omega
  have hbefore : xs.zipIdx.filter (fun (_, i) => !((xs.length : Int) :: positions).contains (i : Int)) =
      xs.zipIdx.filter fun (_, i) => !positions.contains (i : Int) := by
    refine List.filter_congr ?_
    rintro ⟨y, i⟩ hmem
    have hlt := (List.mem_zipIdx' hmem).1
    have hne : (i : Int) ≠ xs.length := by omega
    simp [hne]
  have hlast : without ((xs.length : Int) :: positions) (xs ++ [x]) = without positions xs := by
    rw [without, List.zipIdx_append, List.filter_append, hbefore, without]
    simp
  rw [List.append_cons, without_append hbound, without_append h, hlast]

theorem eraseIdx_eq_without {p : Int} {positions : List Int} {xs : List α} (h0 : 0 ≤ p)
    (hlt : p < xs.length) (h : ∀ q ∈ positions, q < p) :
    without (p :: positions) xs = without positions (xs.eraseIdx p.toNat) := by
  have hp : p.toNat < xs.length := by omega
  have hlength : ((xs.take p.toNat).length : Int) = p := by
    rw [List.length_take]
    omega
  have hbefore : ∀ q ∈ positions, q < (xs.take p.toNat).length := by
    intro q hq
    rw [hlength]
    exact h q hq
  have hcons := without_cons hbefore xs[p.toNat] (xs.drop (p.toNat + 1))
  rw [hlength, List.getElem_cons_drop hp, List.take_append_drop] at hcons
  rw [hcons, List.eraseIdx_eq_take_drop_succ]

theorem without_singleton {i : Nat} {xs : List α} (h : i < xs.length) :
    without [(i : Int)] xs = xs.eraseIdx i := by
  rw [eraseIdx_eq_without (by omega) (by omega) (fun q hq => absurd hq List.not_mem_nil), without_nil,
    Int.toNat_natCast]

/-- Removing positions one by one, from the last to the first, leaves the elements at the others. -/
theorem foldl_eraseIdx_eq_without : ∀ {positions : List Int} {xs : List α},
    positions.Pairwise (· > ·) → (∀ p ∈ positions, 0 ≤ p ∧ p < xs.length) →
    positions.foldl (fun ys p => ys.eraseIdx p.toNat) xs = without positions xs
  | [], xs, _, _ => (without_nil xs).symm
  | p :: positions, xs, hdesc, hbound => by
    obtain ⟨hfirst, hdesc⟩ := List.pairwise_cons.mp hdesc
    obtain ⟨⟨h0, hlt⟩, hbound⟩ := List.forall_mem_cons.mp hbound
    rw [List.foldl_cons, eraseIdx_eq_without h0 hlt hfirst]
    refine foldl_eraseIdx_eq_without hdesc fun q hq => ⟨(hbound q hq).1, ?_⟩
    have hqp : p > q := hfirst q hq
    have herase := List.length_eraseIdx_add_one (show p.toNat < xs.length by omega)
    omega

/-- There are no more positions below another one than it leaves room for. -/
theorem length_le_of_descending : ∀ {positions : List Int} {low high : Int},
    positions.Pairwise (· > ·) → (∀ p ∈ positions, low < p ∧ p < high) → low < high →
    low + positions.length < high
  | [], low, high, _, _, hlow => by simpa using hlow
  | p :: positions, low, high, hdesc, hbound, _ => by
    obtain ⟨hfirst, hdesc⟩ := List.pairwise_cons.mp hdesc
    obtain ⟨⟨hp, hhigh⟩, hbound⟩ := List.forall_mem_cons.mp hbound
    have hrest := length_le_of_descending hdesc (fun q hq => ⟨(hbound q hq).1, hfirst q hq⟩) hp
    rw [List.length_cons]
    omega

end

/-! ### Edits -/

namespace Container

variable {P : Value → Prop}

theorem forall_parts_dict {es : List (Value × Value)} :
    (∀ x ∈ (dict es).parts, P x) ↔ ∀ e ∈ es, P e.1 ∧ P e.2 := by
  simp only [parts, List.mem_flatMap, List.mem_cons, List.not_mem_nil, or_false]
  constructor
  · exact fun h e he => ⟨h e.1 ⟨e, he, .inl rfl⟩, h e.2 ⟨e, he, .inr rfl⟩⟩
  · rintro h x ⟨e, he, rfl | rfl⟩
    · exact (h e he).1
    · exact (h e he).2

theorem forall_parts_object {name : String} {attrs : List (String × Value)} {frozen : Bool} :
    (∀ x ∈ (object name attrs frozen).parts, P x) ↔ ∀ a ∈ attrs, P a.2 :=
  List.forall_mem_map

end Container

namespace Store

/-- A key that names no entry is written behind the entries. -/
theorem insertEntry_of_findIdx?_eq_none {s : Store} {es : List (Value × Value)} {k : Value}
    (hnone : es.findIdx? (fun e => s.sameKey k e.1) = none) (v : Value) :
    s.insertEntry es k v = es ++ [(k, v)] := by
  rw [insertEntry, hnone]

/-- Entries after a write are entries from before, perhaps with the new value, or the new one. -/
theorem forall_insertEntry {P : Value → Prop} (s : Store) {es : List (Value × Value)}
    {k v : Value} (hes : ∀ e ∈ es, P e.1 ∧ P e.2) (hk : P k) (hv : P v) :
    ∀ e ∈ s.insertEntry es k v, P e.1 ∧ P e.2 := by
  unfold insertEntry
  split
  · rename_i i _
    intro e he
    obtain ⟨j, hj⟩ := List.mem_iff_getElem?.mp he
    rw [List.getElem?_modify] at hj
    obtain ⟨e₀, he₀, heq⟩ := Option.map_eq_some_iff.mp hj
    have hold := hes e₀ (List.mem_of_getElem? he₀)
    subst heq
    split
    · exact ⟨hold.1, hv⟩
    · exact hold
  · rintro e he
    rcases List.mem_append.mp he with he | he
    · exact hes e he
    · rw [List.mem_singleton.mp he]
      exact ⟨hk, hv⟩

theorem eraseEntry_subset (s : Store) (es : List (Value × Value)) (k : Value) :
    s.eraseEntry es k ⊆ es := by
  unfold eraseEntry
  split
  · exact fun e he => List.mem_of_mem_eraseIdx he
  · exact List.Subset.refl es

theorem insertMember_subset (s : Store) (ms : List Value) (m : Value) :
    s.insertMember ms m ⊆ ms ++ [m] := by
  unfold insertMember
  split
  · exact List.subset_append_left ms [m]
  · exact List.Subset.refl _

theorem membersOf_subset (s : Store) (items : List Value) : s.membersOf items ⊆ items := by
  suffices h : ∀ items ms : List Value, items.foldl s.insertMember ms ⊆ ms ++ items from h items []
  intro items
  induction items with
  | nil => exact fun ms => List.subset_append_left ms []
  | cons x xs ih =>
    intro ms m hm
    rcases List.mem_append.mp (ih _ hm) with hm | hm
    · rcases List.mem_append.mp (s.insertMember_subset ms x hm) with hm | hm
      · exact List.mem_append_left _ hm
      · exact List.mem_append_right _ (List.mem_cons.mpr (.inl (List.mem_singleton.mp hm)))
    · exact List.mem_append_right _ (List.mem_cons_of_mem x hm)

end Store

/-- So is a name that no attribute has. -/
theorem insertAttr_of_findIdx?_eq_none {attrs : List (String × Value)} {attr : String}
    (hnone : attrs.findIdx? (fun a => a.1 == attr) = none) (v : Value) :
    insertAttr attrs attr v = attrs ++ [(attr, v)] := by
  rw [insertAttr, hnone]

/-- Attributes after a write are attributes from before, perhaps with the new value, or the new
one. -/
theorem forall_insertAttr {P : Value → Prop} {attrs : List (String × Value)} {name : String}
    {v : Value} (hattrs : ∀ a ∈ attrs, P a.2) (hv : P v) :
    ∀ a ∈ insertAttr attrs name v, P a.2 := by
  unfold insertAttr
  split
  · rename_i i _
    intro a ha
    obtain ⟨j, hj⟩ := List.mem_iff_getElem?.mp ha
    rw [List.getElem?_modify] at hj
    obtain ⟨a₀, ha₀, heq⟩ := Option.map_eq_some_iff.mp hj
    have hold := hattrs a₀ (List.mem_of_getElem? ha₀)
    subst heq
    split
    · exact hv
    · exact hold
  · intro a ha
    rcases List.mem_append.mp ha with ha | ha
    · exact hattrs a ha
    · rw [List.mem_singleton.mp ha]
      exact hv

theorem eraseAttr_subset (attrs : List (String × Value)) (name : String) :
    eraseAttr attrs name ⊆ attrs :=
  fun _ ha => (List.mem_filter.mp ha).1

end DottedPath

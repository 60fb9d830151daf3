import DottedPath.Evaluate.Location
import DottedPath.Proofs.Value.Tree

/-!
# Places in a tree

A place in a tree is told by the slots on the way to it, one for each level.  It has a location,
which is made of the steps to these slots, and a part of the tree is there.  What an edit of a tree
is to do at some places is said from the root down: the places inside of one that is replaced or
taken away do not matter (`Tree.replaced`).
-/

namespace DottedPath.Tree

/-- The part of a tree at a place. -/
def at? : Tree → List Nat → Option Tree
  | t, [] => some t
  | leaf _, _ :: _ => none
  | node _ _ ts, i :: p => ts[i]?.bind (at? · p)

/-- The steps to a place. -/
def location : Tree → List Nat → Location
  | node _ f ts, i :: p => f.step i :: (ts[i]?.map (location · p)).getD []
  | _, _ => []

/-- A place as reading reports it. -/
def found (t : Tree) (p : List Nat) : Found :=
  (t.location p, ((t.at? p).map value).getD .null)

mutual

/-- The places inside of a tree, each before those inside of it. -/
def places : Tree → List (List Nat)
  | leaf _ => []
  | node _ _ ts => placesFrom 0 ts

/-- The places in the slots from one on. -/
def placesFrom : Nat → List Tree → List (List Nat)
  | _, [] => []
  | i, t :: ts => ([i] :: t.places.map (i :: ·)) ++ placesFrom (i + 1) ts

end

/-- The slots that are hit themselves, as positions from the last to the first. -/
def hitSlots (hit : List Nat → Bool) (n : Nat) : List Int :=
  (((List.range n).filter fun i => hit [i]).map Int.ofNat).reverse

mutual

/-- The tree with a value at each outermost place that is hit; without a value what is at these
places is taken away. -/
def replaced (hit : List Nat → Bool) (v : Option Value) : Tree → Tree
  | leaf w => leaf w
  | node h f ts =>
    let gone := if v.isSome then [] else hitSlots hit ts.length
    node h (f.without gone) (without gone (replacedFrom hit v 0 ts))

/-- The parts in the slots from one on, with a value where the slot is hit. -/
def replacedFrom (hit : List Nat → Bool) (v : Option Value) : Nat → List Tree → List Tree
  | _, [] => []
  | i, t :: ts =>
    (if hit [i] then v else none).elim (t.replaced (fun p => hit (i :: p)) v) leaf ::
      replacedFrom hit v (i + 1) ts

end

/-! ### Parts and their places -/

variable {s : Store} {h : Handle} {f : Form} {t : Tree} {ts : List Tree} {i : Nat} {v : Option Value}
  {hit hit' : List Nat → Bool}

theorem found_nil (t : Tree) : t.found [] = ([], t.value) := by
  cases t <;> rfl

/-- A place inside of a part is one inside of the whole. -/
theorem found_cons (hi : ts[i]? = some t) (p : List Nat) :
    (node h f ts).found (i :: p) = (f.step i :: (t.found p).1, (t.found p).2) := by
  rw [found, found, location, at?, hi]
  rfl

theorem placesFrom_eq : ∀ (i : Nat) (ts : List Tree),
    placesFrom i ts = (ts.zipIdx i).flatMap fun (t, j) => [j] :: t.places.map (j :: ·)
  | _, [] => rfl
  | i, t :: ts => by
    rw [placesFrom, placesFrom_eq (i + 1) ts, List.zipIdx_cons, List.flatMap_cons]

theorem places_node (h : Handle) (f : Form) (ts : List Tree) :
    (node h f ts).places = ts.zipIdx.flatMap fun (t, i) => [i] :: t.places.map (i :: ·) := by
  rw [places, placesFrom_eq]

theorem mem_places_node {p : List Nat} : p ∈ (node h f ts).places ↔
    ∃ i t, ts[i]? = some t ∧ (p = [i] ∨ ∃ q ∈ t.places, p = i :: q) := by
  simp only [places_node, List.mem_flatMap, List.mem_cons, List.mem_map, Prod.exists,
    List.mk_mem_zipIdx_iff_getElem?]
  constructor
  · rintro ⟨t, i, hi, hp | ⟨q, hq, rfl⟩⟩
    · exact ⟨i, t, hi, .inl hp⟩
    · exact ⟨i, t, hi, .inr ⟨q, hq, rfl⟩⟩
  · rintro ⟨i, t, hi, hp | ⟨q, hq, rfl⟩⟩
    · exact ⟨t, i, hi, .inl hp⟩
    · exact ⟨t, i, hi, .inr ⟨q, hq, rfl⟩⟩

theorem ne_nil_of_mem_places {p : List Nat} (hp : p ∈ t.places) : p ≠ [] := by
  cases t with
  | leaf v => cases hp
  | node h f ts =>
    obtain ⟨i, t, -, rfl | ⟨q, -, rfl⟩⟩ := mem_places_node.mp hp
    · exact List.cons_ne_nil i []
    · exact List.cons_ne_nil i q

theorem exists_part_of_mem_places : ∀ {t : Tree} {p : List Nat}, p ∈ t.places →
    ∃ part, t.at? p = some part := by
  intro t
  induction t using induction with
  | leaf v => exact fun hp => by cases hp
  | node h f ts ih =>
    intro p hp
    obtain ⟨i, t, hi, rfl | ⟨q, hq, rfl⟩⟩ := mem_places_node.mp hp
    · exact ⟨t, by rw [at?, hi]; cases t <;> rfl⟩
    · obtain ⟨part, hpart⟩ := ih t (List.mem_of_getElem? hi) hq
      exact ⟨part, by rw [at?, hi]; exact hpart⟩

/-! ### Replacing what is at some places -/

theorem hitSlots_descending (hit : List Nat → Bool) (n : Nat) :
    (hitSlots hit n).Pairwise (· > ·) := by
  rw [hitSlots, List.pairwise_reverse, List.pairwise_map]
  refine (List.pairwise_lt_range.sublist List.filter_sublist).imp fun {i j} hij => ?_
  exact Int.ofNat_lt.mpr hij

theorem hitSlots_bounds {n : Nat} : ∀ p ∈ hitSlots hit n, 0 ≤ p ∧ p < n := by
  intro p hp
  obtain ⟨i, hi, rfl⟩ := List.mem_map.mp (List.mem_reverse.mp hp)
  have hlt := List.mem_range.mp (List.mem_filter.mp hi).1
  exact ⟨Int.natCast_nonneg i, Int.ofNat_lt.mpr hlt⟩

/-- The slots that are hit, found among the numbered parts. -/
theorem map_hitSlots {α : Type} (f : Nat → α) (ts : List Tree) :
    (((ts.zipIdx.filter fun part => hit [part.2]).map fun part => f part.2).reverse) =
      (hitSlots hit ts.length).map fun p => f p.toNat := by
  have hnumbers : (ts.zipIdx.filter fun part => hit [part.2]).map Prod.snd =
      (List.range ts.length).filter fun i => hit [i] := by
    rw [List.range_eq_range', ← List.zipIdx_map_snd 0 ts, List.filter_map]
    rfl
  rw [hitSlots, ← hnumbers, ← List.map_reverse, ← List.map_reverse, ← List.map_reverse, List.map_map,
    List.map_map]
  rfl

/-- What a part becomes, in a slot of its own. -/
def inSlot (hit : List Nat → Bool) (v : Option Value) (t : Tree) (i : Nat) : Tree :=
  (if hit [i] then v else none).elim (t.replaced (fun p => hit (i :: p)) v) leaf

theorem replacedFrom_eq : ∀ (i : Nat) (ts : List Tree),
    replacedFrom hit v i ts = (ts.zipIdx i).map fun (t, j) => t.inSlot hit v j
  | _, [] => rfl
  | i, t :: ts => by
    rw [replacedFrom, replacedFrom_eq (i + 1) ts, List.zipIdx_cons, List.map_cons]
    rfl

theorem length_replacedFrom (i : Nat) (ts : List Tree) :
    (replacedFrom hit v i ts).length = ts.length := by
  rw [replacedFrom_eq, List.length_map, List.length_zipIdx]

theorem value_replaced (hit : List Nat → Bool) (v : Option Value) (t : Tree) :
    (t.replaced hit v).value = t.value := by
  cases t <;> rfl

/-- Only the places inside of a tree matter. -/
theorem replaced_congr : ∀ {t : Tree} {hit hit' : List Nat → Bool},
    (∀ p ∈ t.places, hit p = hit' p) → t.replaced hit v = t.replaced hit' v := by
  intro t
  induction t using induction with
  | leaf w => exact fun _ => rfl
  | node h f ts ih =>
    intro hit hit' heq
    have hslot : ∀ i < ts.length, hit [i] = hit' [i] := fun i hi =>
      heq [i] (mem_places_node.mpr ⟨i, ts[i], List.getElem?_eq_getElem hi, .inl rfl⟩)
    have hslots : hitSlots hit ts.length = hitSlots hit' ts.length := by
      rw [hitSlots, hitSlots, List.filter_congr fun i hi => hslot i (List.mem_range.mp hi)]
    have hparts : replacedFrom hit v 0 ts = replacedFrom hit' v 0 ts := by
      rw [replacedFrom_eq, replacedFrom_eq]
      refine List.map_congr_left ?_
      rintro ⟨t, i⟩ hmem
      have hi : ts[i]? = some t := List.mk_mem_zipIdx_iff_getElem?.mp hmem
      have hpart : t.replaced (fun p => hit (i :: p)) v = t.replaced (fun p => hit' (i :: p)) v :=
        ih t (List.mem_of_getElem? hi) fun p hp =>
          heq (i :: p) (mem_places_node.mpr ⟨i, t, hi, .inr ⟨p, hp, rfl⟩⟩)
      simp only [inSlot, hslot i (List.getElem?_eq_some_iff.mp hi).1, hpart]
    rw [replaced, replaced, hslots, hparts]

/-- A tree without places that are hit stays as it is. -/
theorem replaced_of_forall (hnone : ∀ p ∈ t.places, hit p = false) : t.replaced hit v = t := by
  induction t using induction generalizing hit with
  | leaf w => rfl
  | node h f ts ih =>
    have hslot : ∀ i < ts.length, hit [i] = false := fun i hi =>
      hnone [i] (mem_places_node.mpr ⟨i, ts[i], List.getElem?_eq_getElem hi, .inl rfl⟩)
    have hslots : hitSlots hit ts.length = [] := by
      rw [hitSlots, List.filter_eq_nil_iff.mpr fun i hi => by simp [hslot i (List.mem_range.mp hi)]]
      rfl
    have hparts : replacedFrom hit v 0 ts = ts := by
      rw [replacedFrom_eq]
      refine (List.map_congr_left ?_).trans (List.zipIdx_map_fst 0 ts)
      rintro ⟨t, i⟩ hmem
      have hi : ts[i]? = some t := List.mk_mem_zipIdx_iff_getElem?.mp hmem
      have hpart : t.replaced (fun p => hit (i :: p)) v = t :=
        ih t (List.mem_of_getElem? hi) fun p hp =>
          hnone (i :: p) (mem_places_node.mpr ⟨i, t, hi, .inr ⟨p, hp, rfl⟩⟩)
      simp [inSlot, hslot i (List.getElem?_eq_some_iff.mp hi).1, hpart]
    rw [replaced, hslots, hparts]
    simp

end DottedPath.Tree

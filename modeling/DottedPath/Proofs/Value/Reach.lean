import DottedPath.Proofs.Value.Growth
import Mathlib.Data.Finset.Card
import Mathlib.Data.List.ProdSigma
import Mathlib.Logic.Relation

/-!
# What is reached from a value

A value reaches what is inside of it, and what is inside of that, through cycles and through shared
containers alike.  Where everything that it reaches is in the store, a store that grows does not
change what it reaches.

A value that is not inside of itself, nor reaches anything that is, has finitely many levels of
containers.

## Main statements

- `Store.HoldsGraph.reaches_iff_of_grows`: a value reaches the same when the store grows.
- `Store.levels_of_isAcyclic`: a value that does not hold itself has no more levels than the store has
  containers.
-/

namespace DottedPath.Store

variable {s t : Store} {v x y : Value}

/-- A value directly inside of a container. -/
def Part (s : Store) (v x : Value) : Prop :=
  ∃ c, s.container? v = some c ∧ x ∈ c.parts

/-- A value that one comes to by going from a value to its parts and on to theirs. -/
def Reaches (s : Store) : Value → Value → Prop :=
  Relation.ReflTransGen s.Part

theorem Reaches.refl (s : Store) (v : Value) : s.Reaches v v := Relation.ReflTransGen.refl

theorem Reaches.trans (hvx : s.Reaches v x) (hxy : s.Reaches x y) : s.Reaches v y :=
  Relation.ReflTransGen.trans hvx hxy

theorem Reaches.part (hvx : s.Reaches v x) (hxy : s.Part x y) : s.Reaches v y :=
  Relation.ReflTransGen.tail hvx hxy

theorem Part.reaches (h : s.Part v x) : s.Reaches v x := Relation.ReflTransGen.single h

/-- A scalar reaches nothing but itself. -/
theorem Reaches.eq_of_scalar {a : Scalar} (h : s.Reaches (.scalar a) x) : x = .scalar a := by
  induction h with
  | refl => rfl
  | tail _ hpart ih =>
    subst ih
    obtain ⟨c, hc, -⟩ := hpart
    cases hc

/-- What holds of a value and goes over to parts holds of all that the value reaches. -/
theorem Reaches.of_closed {P : Value → Prop} (h : s.Reaches v x) (hv : P v)
    (hparts : ∀ y z, P y → s.Part y z → P z) : P x := by
  induction h with
  | refl => exact hv
  | tail _ hpart ih => exact hparts _ _ ih hpart

/-- All containers that the value reaches are there. -/
def HoldsGraph (s : Store) (v : Value) : Prop :=
  ∀ x, s.Reaches v x → s.Holds x

theorem HoldsGraph.holds (h : s.HoldsGraph v) : s.Holds v := h v (.refl s v)

theorem HoldsGraph.of_reaches (h : s.HoldsGraph v) (hx : s.Reaches v x) : s.HoldsGraph x :=
  fun _ hy => h _ (hx.trans hy)

/-- A value that is there has the same parts when the store grows. -/
theorem GrowsTo.part_iff (hst : s.GrowsTo t) (hv : s.Holds v) : t.Part v x ↔ s.Part v x := by
  rw [Part, Part, hst.container?_eq hv]

/-- **A value reaches the same when the store grows.** -/
theorem HoldsGraph.reaches_iff_of_grows (h : s.HoldsGraph v) (hst : s.GrowsTo t) :
    t.Reaches v x ↔ s.Reaches v x := by
  constructor
  · intro hx
    induction hx with
    | refl => exact .refl s v
    | tail _ hpart ih => exact ih.part ((hst.part_iff (h _ ih)).mp hpart)
  · intro hx
    induction hx with
    | refl => exact .refl t v
    | tail hbefore hpart ih => exact ih.part ((hst.part_iff (h _ hbefore)).mpr hpart)

/-- All containers that a value reaches stay there when the store grows. -/
theorem HoldsGraph.grows (h : s.HoldsGraph v) (hst : s.GrowsTo t) : t.HoldsGraph v :=
  fun x hx => hst.holds (h x ((h.reaches_iff_of_grows hst).mp hx))

/-- Every container that is mentioned in the store is there. -/
def isClosed (s : Store) : Bool :=
  s.cells.toList.all fun c => c.parts.all fun x => x.handle?.all fun h => h.index < s.size

theorem holdsGraph_of_isClosed (hs : s.isClosed = true) (hv : s.Holds v) : s.HoldsGraph v := by
  intro x hx
  induction hx with
  | refl => exact hv
  | @tail y x _ hpart _ =>
    obtain ⟨c, hc, hmem⟩ := hpart
    cases y with
    | scalar a => cases hc
    | ref h =>
      have hcell : c ∈ s.cells.toList := Array.mem_toList_iff.mpr (Array.mem_of_getElem? hc)
      have hparts := List.all_eq_true.mp (List.all_eq_true.mp hs c hcell) x hmem
      rintro g rfl
      exact of_decide_eq_true hparts

end DottedPath.Store

/-!
### Ways down

A way down from a value goes through containers of smaller and smaller rank, so it enters none
twice, and no more than the store has.
-/

namespace DottedPath.Store

/-- The containers on a way down, or the pairs of them, are different, and each of them has more than
a given rank.  The rank of one is what a relation says. -/
structure Trail {α : Type} (rank : α → Nat → Prop) (above : List α) (below : Nat) : Prop where
  nodup : above.Nodup
  larger : ∀ g ∈ above, ∃ n, rank g n ∧ below < n

namespace Trail

variable {α : Type} {rank : α → Nat → Prop} {above : List α} {below n : Nat} {h : α}

theorem nil (below : Nat) : Trail rank [] below :=
  ⟨List.nodup_nil, fun _ hg => absurd hg List.not_mem_nil⟩

theorem mono (htrail : Trail rank above below) (hn : n ≤ below) : Trail rank above n := by
  refine ⟨htrail.nodup, fun g hg => ?_⟩
  obtain ⟨m, hm, hlt⟩ := htrail.larger g hg
  exact ⟨m, hm, Nat.lt_of_le_of_lt hn hlt⟩

/-- What has no more than the given rank is not on the way yet. -/
theorem not_mem (htrail : Trail rank above below) (unique : ∀ m, rank h m → m = below) :
    h ∉ above := by
  intro hmem
  obtain ⟨m, hm, hlt⟩ := htrail.larger h hmem
  rw [unique m hm] at hlt
  exact Nat.lt_irrefl _ hlt

/-- The way goes on into a container of the given rank. -/
theorem cons (htrail : Trail rank above below) (unique : ∀ m, rank h m → m = below)
    (hrank : rank h below) (hn : n < below) : Trail rank (h :: above) n := by
  refine ⟨List.nodup_cons.mpr ⟨htrail.not_mem unique, htrail.nodup⟩, fun g hg => ?_⟩
  rcases List.mem_cons.mp hg with rfl | hg
  · exact ⟨below, hrank, hn⟩
  · exact (htrail.mono (Nat.le_of_lt hn)).larger g hg

/-- A way enters no more containers than there are. -/
theorem length_le {s : Store} {rank : Handle → Nat → Prop} {above : List Handle}
    (htrail : Trail rank above below) (there : ∀ g m, rank g m → 0 < m → g.index < s.size) :
    above.length ≤ s.size := by
  refine length_le_size htrail.nodup fun g hg => ?_
  obtain ⟨m, hm, hlt⟩ := htrail.larger g hg
  exact there g m hm (Nat.zero_lt_of_lt hlt)

/-- Nor does it go through more pairs of them. -/
theorem length_le_square {s : Store} {rank : Handle × Handle → Nat → Prop}
    {above : List (Handle × Handle)} (htrail : Trail rank above below)
    (there : ∀ p m, rank p m → 0 < m → p.1.index < s.size ∧ p.2.index < s.size) :
    above.length ≤ s.size * s.size := by
  let handles := (List.range s.size).map Handle.mk
  have hmem (h : Handle) (hlt : h.index < s.size) : h ∈ handles :=
    List.mem_map.mpr ⟨h.index, List.mem_range.mpr hlt, rfl⟩
  have hsub : above ⊆ handles ×ˢ handles := by
    rintro ⟨g, h⟩ hp
    obtain ⟨m, hm, hlt⟩ := htrail.larger _ hp
    obtain ⟨hg, hh⟩ := there _ m hm (Nat.zero_lt_of_lt hlt)
    exact List.mem_product.mpr ⟨hmem g hg, hmem h hh⟩
  have hle := (List.subperm_of_subset htrail.nodup hsub).length_le
  rwa [List.length_product, List.length_map, List.length_range] at hle

end Trail

end DottedPath.Store

/-!
### Values that do not hold themselves
-/

namespace DottedPath.Store

open Relation (ReflTransGen TransGen)

variable {s t : Store} {v x : Value} {h : Handle} {n m : Nat}

/-- Nothing that the value reaches is inside of itself. -/
def IsAcyclic (s : Store) (v : Value) : Prop :=
  ∀ x, s.Reaches v x → ¬TransGen s.Part x x

theorem IsAcyclic.of_reaches (h : s.IsAcyclic v) (hx : s.Reaches v x) : s.IsAcyclic x :=
  fun y hy => h y (hx.trans hy)

/-- Every container holds such containers only that were there before it. -/
def isStratified (s : Store) : Bool :=
  s.cells.toList.zipIdx.all fun (c, i) => c.parts.all fun x => x.handle?.all fun h => h.index < i

theorem isAcyclic_of_isStratified (hs : s.isStratified = true) (v : Value) : s.IsAcyclic v := by
  have hstep {g h : Handle} (hpart : s.Part (.ref h) (.ref g)) : g.index < h.index := by
    obtain ⟨c, hc, hmem⟩ := hpart
    have hcell : (c, h.index) ∈ s.cells.toList.zipIdx :=
      List.mk_mem_zipIdx_iff_getElem?.mpr (by rw [Array.getElem?_toList]; exact hc)
    exact of_decide_eq_true (List.all_eq_true.mp (List.all_eq_true.mp hs _ hcell) (.ref g) hmem)
  -- On a way down the indices decrease, so that it does not come back.
  have hway {x y : Value} (hxy : TransGen s.Part x y) :
      ∀ g, y = .ref g → ∃ h, x = .ref h ∧ g.index < h.index := by
    have hcontainer {x y : Value} (hpart : s.Part x y) : ∃ h, x = .ref h := by
      obtain ⟨c, hc, -⟩ := hpart
      cases x with
      | scalar a => cases hc
      | ref h => exact ⟨h, rfl⟩
    induction hxy with
    | single hpart =>
      rintro g rfl
      obtain ⟨h, rfl⟩ := hcontainer hpart
      exact ⟨h, rfl, hstep hpart⟩
    | tail _ hpart ih =>
      rintro g rfl
      obtain ⟨k, rfl⟩ := hcontainer hpart
      obtain ⟨h, rfl, hlt⟩ := ih k rfl
      exact ⟨h, rfl, Nat.lt_trans (hstep hpart) hlt⟩
  intro x _ hcycle
  obtain ⟨y, hy, -⟩ := TransGen.head'_iff.mp hcycle
  cases x with
  | scalar a =>
    obtain ⟨c, hc, -⟩ := hy
    cases hc
  | ref h =>
    obtain ⟨g, hg, hlt⟩ := hway hcycle h rfl
    cases hg
    exact Nat.lt_irrefl _ hlt

/-! ### Levels -/

/-- The value has no more than a number of levels, the one of scalars among them, and all its
containers are there. -/
def Levels (s : Store) : Nat → Value → Prop
  | 0, _ => False
  | _ + 1, .scalar _ => True
  | n + 1, .ref h => ∃ c, s.get? h = some c ∧ ∀ x ∈ c.parts, s.Levels n x

section

open scoped Classical

/-- The number of containers that a value reaches. -/
noncomputable def span (s : Store) : Value → Nat
  | .scalar _ => 0
  | .ref h => ((Finset.range s.size).filter fun i => s.Reaches (.ref h) (.ref ⟨i⟩)).card

theorem span_le (s : Store) (v : Value) : s.span v ≤ s.size := by
  cases v with
  | scalar a => exact Nat.zero_le _
  | ref h => exact (Finset.card_filter_le _ _).trans (Finset.card_range s.size).le

/-- A part reaches fewer containers. -/
theorem span_lt (hacyclic : s.IsAcyclic (.ref h)) (hlt : h.index < s.size)
    (hpart : s.Part (.ref h) x) : s.span x < s.span (.ref h) := by
  have hself : h.index ∈ (Finset.range s.size).filter fun i => s.Reaches (.ref h) (.ref ⟨i⟩) :=
    Finset.mem_filter.mpr ⟨Finset.mem_range.mpr hlt, .refl _ _⟩
  cases x with
  | scalar a => exact Finset.card_pos.mpr ⟨h.index, hself⟩
  | ref g =>
    refine Finset.card_lt_card (Finset.ssubset_iff_of_subset ?_ |>.mpr ⟨h.index, hself, ?_⟩)
    · intro i hi
      obtain ⟨hrange, hway⟩ := Finset.mem_filter.mp hi
      exact Finset.mem_filter.mpr ⟨hrange, .head hpart hway⟩
    · intro hback
      exact hacyclic _ (.refl s _) (.head' hpart (Finset.mem_filter.mp hback).2)

end

theorem levels_of_span_lt : ∀ (n : Nat) {v : Value}, s.HoldsGraph v → s.IsAcyclic v →
    s.span v < n → s.Levels n v
  | 0, _, _, _, hn => absurd hn (Nat.not_lt_zero _)
  | n + 1, .scalar a, _, _, _ => trivial
  | n + 1, .ref h, hgraph, hacyclic, hn => by
    have hlt : h.index < s.size := holds_ref.mp hgraph.holds
    obtain ⟨c, hc⟩ := get?_of_lt hlt
    refine ⟨c, hc, fun x hx => ?_⟩
    have hpart : s.Part (.ref h) x := ⟨c, hc, hx⟩
    have hless := span_lt hacyclic hlt hpart
    exact levels_of_span_lt n (hgraph.of_reaches hpart.reaches)
      (hacyclic.of_reaches hpart.reaches) (by omega)

/-- **A value that does not hold itself has no more levels than the store has containers**, and one
for scalars. -/
theorem levels_of_isAcyclic (hgraph : s.HoldsGraph v) (hacyclic : s.IsAcyclic v) :
    s.Levels (s.size + 1) v :=
  levels_of_span_lt _ hgraph hacyclic (Nat.lt_succ_of_le (s.span_le v))

/-- A comparison goes down further than there are levels. -/
theorem size_lt_comparisonDepth (s : Store) : s.size < s.comparisonDepth := by
  rw [comparisonDepth]
  exact Nat.lt_succ_of_le ((Nat.le_succ _).trans (Nat.le_mul_self _))

end DottedPath.Store

import DottedPath.Proofs.Value.Reach
import Mathlib.Data.List.Forall2

/-!
# The unfolding of a value

A value unfolds into a tree, perhaps an infinite one: every way of part positions leads to a scalar
or to a container (`Store.follow?`), of which all but the parts is seen (`Store.face`).  Two values
that are related by a bisimulation have the same unfolding (`Store.Bisimulation.face_follow?`).
-/

namespace DottedPath

namespace Container

/-- All but the parts: the kind, the number of parts, and the names of an object. -/
def blank : Container → Container
  | list xs => list (xs.map fun _ => .null)
  | tuple xs => tuple (xs.map fun _ => .null)
  | dict es => dict (es.map fun _ => (.null, .null))
  | set ms => set (ms.map fun _ => .null)
  | frozenset ms => frozenset (ms.map fun _ => .null)
  | object name attrs frozen => object name (attrs.map fun a => (a.1, .null)) frozen

/-- The containers differ in their parts only, and these are related one by one. -/
structure Alike (R : Value → Value → Prop) (c d : Container) : Prop where
  blank : c.blank = d.blank
  parts : List.Forall₂ R c.parts d.parts

namespace Alike

variable {R R' : Value → Value → Prop} {c d : Container}

theorem imp (hR : ∀ x y, R x y → R' x y) (h : Alike R c d) : Alike R' c d :=
  ⟨h.blank, h.parts.imp hR⟩

theorem getElem?_rel {α β : Type} {P : α → β → Prop} {xs : List α} {ys : List β}
    (h : List.Forall₂ P xs ys) (i : Nat) : Option.Rel P xs[i]? ys[i]? := by
  induction h generalizing i with
  | nil => exact .none
  | cons hxy _ ih =>
    cases i with
    | zero => exact .some hxy
    | succ i => exact ih i

/-- The parts at a position are related, if there are any. -/
theorem part (h : Alike R c d) (i : Nat) : Option.Rel R c.parts[i]? d.parts[i]? :=
  getElem?_rel h.parts i

/-- The related parts are parts of the first container. -/
theorem mem_left (h : Alike R c d) : Alike (fun x y => x ∈ c.parts ∧ R x y) c d :=
  ⟨h.blank, (List.forall₂_and_left _ _).mpr ⟨fun _ hx => hx, h.parts⟩⟩

theorem exists_of_mem_right {α β : Type} {P : α → β → Prop} {xs : List α} {ys : List β}
    (h : List.Forall₂ P xs ys) {y : β} (hy : y ∈ ys) : ∃ x ∈ xs, P x y := by
  induction h with
  | nil => cases hy
  | @cons x _ xs _ hxy _ ih =>
    rcases List.mem_cons.mp hy with rfl | hy
    · exact ⟨x, List.mem_cons_self .., hxy⟩
    · obtain ⟨x, hx, hxy⟩ := ih hy
      exact ⟨x, List.mem_cons_of_mem _ hx, hxy⟩

/-- Every part of the second container is related to one of the first. -/
theorem exists_left (h : Alike R c d) {y : Value} (hy : y ∈ d.parts) : ∃ x ∈ c.parts, R x y :=
  exists_of_mem_right h.parts hy

theorem map_eq {α β γ : Type} {P : α → β → Prop} {f : α → γ} {g : β → γ}
    (hfg : ∀ x y, P x y → f x = g y) {xs : List α} {ys : List β} (h : List.Forall₂ P xs ys) :
    xs.map f = ys.map g := by
  have hmap := List.rel_map (P := Eq) (fun x y hxy => hfg x y hxy) h
  rwa [List.forall₂_eq_eq_eq] at hmap

theorem list {xs ys : List Value} (h : List.Forall₂ R xs ys) : Alike R (.list xs) (.list ys) :=
  ⟨congrArg Container.list (map_eq (fun _ _ _ => rfl) h), h⟩

theorem tuple {xs ys : List Value} (h : List.Forall₂ R xs ys) : Alike R (.tuple xs) (.tuple ys) :=
  ⟨congrArg Container.tuple (map_eq (fun _ _ _ => rfl) h), h⟩

theorem set {xs ys : List Value} (h : List.Forall₂ R xs ys) : Alike R (.set xs) (.set ys) :=
  ⟨congrArg Container.set (map_eq (fun _ _ _ => rfl) h), h⟩

theorem frozenset {xs ys : List Value} (h : List.Forall₂ R xs ys) :
    Alike R (.frozenset xs) (.frozenset ys) :=
  ⟨congrArg Container.frozenset (map_eq (fun _ _ _ => rfl) h), h⟩

theorem dict {es fs : List (Value × Value)}
    (h : List.Forall₂ (fun e f => R e.1 f.1 ∧ R e.2 f.2) es fs) :
    Alike R (.dict es) (.dict fs) := by
  refine ⟨congrArg Container.dict (map_eq (fun _ _ _ => rfl) h), ?_⟩
  exact List.rel_flatMap h fun e f hef => .cons hef.1 (.cons hef.2 .nil)

theorem object (name : String) (frozen : Bool) {attrs others : List (String × Value)}
    (h : List.Forall₂ (fun a b => a.1 = b.1 ∧ R a.2 b.2) attrs others) :
    Alike R (.object name attrs frozen) (.object name others frozen) := by
  refine ⟨congrArg (Container.object name · frozen) (map_eq (fun a b hab => ?_) h), ?_⟩
  · rw [hab.1]
  · exact List.rel_map (fun _ _ hab => hab.2) h

end Alike

end Container

/-- What is seen of a value without going into it. -/
inductive Face where
  | scalar (a : Scalar)
  | container (form : Container)
  | missing

namespace Store

variable {s t : Store} {R : Value → Value → Prop} {v w x : Value}

/-- What is seen of a value without going into it. -/
def face (s : Store) : Value → Face
  | .scalar a => .scalar a
  | .ref h =>
    match s.get? h with
    | some c => .container c.blank
    | none => .missing

/-- What is at the end of a way, which names a part of each container that it leads through. -/
def follow? (s : Store) : Value → List Nat → Option Value
  | v, [] => some v
  | v, i :: way => do
    let c ← s.container? v
    let x ← c.parts[i]?
    s.follow? x way

theorem face_of_container? {c : Container} (hc : s.container? v = some c) :
    s.face v = .container c.blank := by
  cases v with
  | scalar a => cases hc
  | ref h =>
    have hc : s.get? h = some c := hc
    rw [face, hc]

/-- A way leads to what the value reaches. -/
theorem reaches_of_follow? : ∀ (way : List Nat) {v : Value}, s.follow? v way = some x →
    s.Reaches v x
  | [], v, h => by
    rw [follow?, Option.some.injEq] at h
    rw [h]
    exact .refl s x
  | i :: way, v, h => by
    rw [follow?, Option.bind_eq_bind, Option.bind_eq_some_iff] at h
    obtain ⟨c, hc, h⟩ := h
    obtain ⟨y, hy, h⟩ := Option.bind_eq_some_iff.mp h
    have hpart : s.Part v y := ⟨c, hc, List.mem_of_getElem? hy⟩
    exact hpart.reaches.trans (reaches_of_follow? way h)

/-! ### Bisimulations -/

/-- Related values are the same scalar, or their containers are alike. -/
def Bisimulation (s t : Store) (R : Value → Value → Prop) : Prop :=
  ∀ v w, R v w → (∃ a, v = .scalar a ∧ w = .scalar a) ∨
    ∃ c d, s.container? v = some c ∧ t.container? w = some d ∧ Container.Alike R c d

namespace Bisimulation

theorem face_eq (hR : Bisimulation s t R) (h : R v w) : t.face w = s.face v := by
  rcases hR v w h with ⟨a, rfl, rfl⟩ | ⟨c, d, hc, hd, halike⟩
  · rfl
  · rw [face_of_container? hc, face_of_container? hd, halike.blank]

/-- Related values lead to related ones on every way. -/
theorem follow?_rel (hR : Bisimulation s t R) : ∀ (way : List Nat) {v w : Value}, R v w →
    Option.Rel R (s.follow? v way) (t.follow? w way)
  | [], v, w, h => .some h
  | i :: way, v, w, h => by
    rcases hR v w h with ⟨a, rfl, rfl⟩ | ⟨c, d, hc, hd, halike⟩
    · exact .none
    · have hpart := halike.part i
      rw [follow?, follow?, hc, hd, Option.bind_eq_bind, Option.bind_some, Option.bind_eq_bind,
        Option.bind_some]
      generalize c.parts[i]? = x?, d.parts[i]? = y? at hpart
      cases hpart with
      | none => exact .none
      | some hxy => exact follow?_rel hR way hxy

/-- **Related values have the same unfolding.** -/
theorem face_follow? (hR : Bisimulation s t R) (h : R v w) (way : List Nat) :
    (t.follow? w way).map t.face = (s.follow? v way).map s.face := by
  have hend := hR.follow?_rel way h
  generalize s.follow? v way = x?, t.follow? w way = y? at hend
  cases hend with
  | none => rfl
  | some hxy => exact congrArg some (hR.face_eq hxy)

/-- What the second value reaches is related to something that the first one reaches. -/
theorem exists_of_reaches (hR : Bisimulation s t R) (h : R v w) {y : Value} (hy : t.Reaches w y) :
    ∃ x, s.Reaches v x ∧ R x y := by
  induction hy with
  | refl => exact ⟨v, .refl s v, h⟩
  | tail _ hpart ih =>
    obtain ⟨x, hx, hxy⟩ := ih
    obtain ⟨d, hd, hmem⟩ := hpart
    rcases hR _ _ hxy with ⟨a, rfl, rfl⟩ | ⟨c, d', hc, hd', halike⟩
    · cases hd
    · cases hd.symm.trans hd'
      obtain ⟨z, hz, hzy⟩ := halike.exists_left hmem
      exact ⟨z, hx.part ⟨c, hc, hz⟩, hzy⟩

end Bisimulation

end Store

end DottedPath

/-!
### Tree-shaped values

A value is a tree if each container that it reaches is reached on one way only (`Store.IsTree`).  Then
nothing in it is shared, and nothing holds itself (`Store.IsTree.isAcyclic`).
-/

namespace DottedPath.Store

open Relation (TransGen)

variable {s : Store} {v w x : Value}

/-- Each container that the value reaches is reached on one way only. -/
def IsTree (s : Store) (v : Value) : Prop :=
  ∀ p q h, s.follow? v p = some (.ref h) → s.follow? v q = some (.ref h) → p = q

/-! ### Ways -/

theorem follow?_append (s : Store) : ∀ (v : Value) (p q : List Nat),
    s.follow? v (p ++ q) = (s.follow? v p).bind fun w => s.follow? w q
  | v, [], q => rfl
  | v, i :: p, q => by
    rw [List.cons_append, follow?, follow?]
    cases s.container? v with
    | none => rfl
    | some c =>
      rw [Option.bind_eq_bind, Option.bind_some, Option.bind_eq_bind, Option.bind_some]
      cases c.parts[i]? with
      | none => rfl
      | some x => exact follow?_append s x p q

/-- One step of a way. -/
theorem follow?_singleton {c : Container} (hc : s.container? v = some c) (i : Nat) :
    s.follow? v [i] = c.parts[i]? := by
  rw [follow?, hc, Option.bind_eq_bind, Option.bind_some]
  cases c.parts[i]? <;> rfl

/-- What a value reaches is at the end of a way. -/
theorem exists_way_of_reaches (h : s.Reaches v x) : ∃ way, s.follow? v way = some x := by
  induction h with
  | refl => exact ⟨[], rfl⟩
  | tail _ hpart ih =>
    obtain ⟨way, hway⟩ := ih
    obtain ⟨c, hc, hmem⟩ := hpart
    obtain ⟨i, hi⟩ := List.getElem?_of_mem hmem
    refine ⟨way ++ [i], ?_⟩
    rw [follow?_append, hway, Option.bind_some, follow?_singleton hc, hi]

namespace IsTree

/-- What is at the end of a way in a tree is a tree. -/
theorem of_follow? (htree : s.IsTree v) {way : List Nat} (hway : s.follow? v way = some x) :
    s.IsTree x := by
  intro p q h hp hq
  have hbehind {r : List Nat} (hr : s.follow? x r = some (.ref h)) :
      s.follow? v (way ++ r) = some (.ref h) := by
    rw [follow?_append, hway, Option.bind_some, hr]
  exact List.append_cancel_left (htree _ _ h (hbehind hp) (hbehind hq))

theorem of_reaches (htree : s.IsTree v) (hx : s.Reaches v x) : s.IsTree x := by
  obtain ⟨way, hway⟩ := exists_way_of_reaches hx
  exact htree.of_follow? hway

/-- **A tree does not hold itself**, nor does anything in it. -/
theorem isAcyclic (htree : s.IsTree v) : s.IsAcyclic v := by
  intro x hx hcycle
  obtain ⟨y, hpart, hback⟩ := TransGen.head'_iff.mp hcycle
  obtain ⟨c, hc, hmem⟩ := hpart
  cases x with
  | scalar a => cases hc
  | ref h =>
    obtain ⟨i, hi⟩ := List.getElem?_of_mem hmem
    obtain ⟨way, hway⟩ := exists_way_of_reaches hback
    have hround : s.follow? (.ref h) (i :: way) = some (.ref h) := by
      have hsplit := follow?_append s (.ref h) [i] way
      rw [follow?_singleton hc, hi, Option.bind_some, hway] at hsplit
      exact hsplit
    exact absurd (htree.of_reaches hx (i :: way) [] h hround rfl) (List.cons_ne_nil _ _)

end IsTree

/-! ### Stores without sharing -/

/-- The handles that are mentioned in the store, each with the container and the position. -/
def mentions (s : Store) : List (Handle × Nat × Nat) :=
  s.cells.toList.zipIdx.flatMap fun (c, a) =>
    c.parts.zipIdx.filterMap fun (x, i) => x.handle?.map fun h => (h, a, i)

/-- No container is mentioned twice, and a given one not at all. -/
def isUnshared (s : Store) (r : Handle) : Bool :=
  s.mentions.all fun m => m.1 != r && s.mentions.all fun m' => m.1 != m'.1 || m == m'

theorem mem_mentions {g h : Handle} {c : Container} {i : Nat} (hc : s.get? g = some c)
    (hi : c.parts[i]? = some (.ref h)) : (h, g.index, i) ∈ s.mentions := by
  have hcell : (c, g.index) ∈ s.cells.toList.zipIdx :=
    List.mk_mem_zipIdx_iff_getElem?.mpr (by rw [Array.getElem?_toList]; exact hc)
  have hpart : (Value.ref h, i) ∈ c.parts.zipIdx := List.mk_mem_zipIdx_iff_getElem?.mpr hi
  exact List.mem_flatMap.mpr ⟨_, hcell, List.mem_filterMap.mpr ⟨_, hpart, rfl⟩⟩

/-- The last step of a way to a container. -/
theorem exists_last_step {p : List Nat} {i : Nat} {h : Handle}
    (hway : s.follow? v (p ++ [i]) = some (.ref h)) :
    ∃ g c, s.follow? v p = some (.ref g) ∧ s.get? g = some c ∧ c.parts[i]? = some (.ref h) := by
  rw [follow?_append, Option.bind_eq_some_iff] at hway
  obtain ⟨w, hw, hlast⟩ := hway
  cases w with
  | scalar a => simp [follow?, container?, Value.handle?] at hlast
  | ref g =>
    cases hc : s.get? g with
    | none => simp [follow?, container?, Value.handle?, hc] at hlast
    | some c =>
      have hcontainer : s.container? (.ref g) = some c := hc
      rw [follow?_singleton hcontainer] at hlast
      exact ⟨g, c, hw, hc, hlast⟩

/-- A store in which no container is mentioned twice has trees only. -/
theorem isTree_of_isUnshared {r : Handle} (hs : s.isUnshared r = true) : s.IsTree (.ref r) := by
  have hmentions := List.all_eq_true.mp hs
  have hroot {p : List Nat} {i : Nat} : s.follow? (.ref r) (p ++ [i]) ≠ some (.ref r) := by
    intro hway
    obtain ⟨g, c, -, hc, hi⟩ := exists_last_step hway
    simpa using hmentions _ (mem_mentions hc hi)
  -- The ways are compared from their ends: a container is mentioned in one place only.
  intro p
  induction p using List.reverseRecOn with
  | nil =>
    intro q h hp hq
    have hh : r = h := by simpa [follow?] using hp
    subst hh
    rcases List.eq_nil_or_concat' q with rfl | ⟨q, j, rfl⟩
    · rfl
    · exact absurd hq hroot
  | append_singleton p i ih =>
    intro q h hp hq
    rcases List.eq_nil_or_concat' q with rfl | ⟨q, j, rfl⟩
    · have hh : r = h := by simpa [follow?] using hq
      subst hh
      exact absurd hp hroot
    · obtain ⟨g, c, hg, hc, hi⟩ := exists_last_step hp
      obtain ⟨g', c', hg', hc', hj⟩ := exists_last_step hq
      have hpair := hmentions _ (mem_mentions hc hi)
      rw [Bool.and_eq_true, List.all_eq_true] at hpair
      have hsame : g = g' ∧ i = j := by
        have hone := hpair.2 _ (mem_mentions hc' hj)
        have hindex : g.index = g'.index ∧ i = j := by simpa using hone
        exact ⟨congrArg Handle.mk hindex.1, hindex.2⟩
      obtain ⟨rfl, rfl⟩ := hsame
      rw [ih q g hg hg']

end DottedPath.Store

import DottedPath.Evaluate.Filter
import DottedPath.Proofs.Evaluate.Run
import DottedPath.Proofs.Value.Collections
import DottedPath.Proofs.Value.Growth

/-!
# Computations outside of a fence

A fence keeps some containers of a store apart.  A computation spares them if it leaves their
contents alone, hands no other container a part that is kept, and leaves every container what it is:
a list a list, a frozen object frozen.  Then a value from outside stays outside, whatever is read of
it and written to it (`Fence.Intact.parts`, `Fence.Intact.set`).

`Fence.SparesM` and `Fence.Spares` say this of a computation, together with a property of its
answer; they go through it in the order of its steps.
-/

namespace DottedPath

/-- What becomes of a container in place: its items change, but not what it is. -/
structure Container.SameForm (c d : Container) : Prop where
  kind : c.kind = d.kind
  isMutable : c.isMutable = d.isMutable

theorem Container.SameForm.refl (c : Container) : c.SameForm c := ⟨rfl, rfl⟩

theorem Container.SameForm.trans {c d e : Container} (hcd : c.SameForm d) (hde : d.SameForm e) :
    c.SameForm e :=
  ⟨hcd.kind.trans hde.kind, hcd.isMutable.trans hde.isMutable⟩

namespace Store

variable {s : Store} {v : Value} {c : Container}

theorem isMutable_iff :
    s.isMutable v = true ↔ ∃ c, s.container? v = some c ∧ c.isMutable = true := by
  unfold isMutable
  cases s.container? v with
  | none => simp
  | some c => simp

theorem kind_of_container? (hc : s.container? v = some c) : s.kind v = c.kind := by
  cases v with
  | scalar a => cases hc
  | ref h =>
    have hget : s.get? h = some c := hc
    rw [kind, hget]
    rfl

end Store

/-- Containers of a store that are kept apart from a computation which starts there. -/
structure Fence where
  start : Store
  kept : Handle → Prop
  lt_of_kept : ∀ h, kept h → h.index < start.size

namespace Fence

variable {α β ε : Type} (F : Fence)

/-- The value is not one of the containers that are kept. -/
def Free (v : Value) : Prop :=
  ∀ h, v = .ref h → ¬F.kept h

/-- The containers that are kept are as they were, the others hold none of them, and all of them are
what they were. -/
structure Intact (t : Store) : Prop where
  same : ∀ h, F.kept h → t.get? h = F.start.get? h
  forms : ∀ h c, F.start.get? h = some c → ∃ d, t.get? h = some d ∧ c.SameForm d
  secluded : ∀ h c, ¬F.kept h → t.get? h = some c → ∀ x ∈ c.parts, F.Free x

variable {F}

theorem free_scalar (x : Scalar) : F.Free (.scalar x) := by
  rintro h ⟨⟩

theorem free_ref {h : Handle} : F.Free (.ref h) ↔ ¬F.kept h :=
  ⟨fun hv => hv h rfl, by rintro hk g ⟨⟩; exact hk⟩

/-! ### Stores with an intact fence -/

namespace Intact

variable {t : Store} {v x : Value} {h : Handle} {c d : Container}

theorem size_le (ht : F.Intact t) : F.start.size ≤ t.size := by
  rcases Nat.eq_zero_or_pos F.start.size with h0 | hpos
  · omega
  · obtain ⟨c, hc⟩ := Store.get?_of_lt (s := F.start) (h := ⟨F.start.size - 1⟩)
      (by show F.start.size - 1 < F.start.size; omega)
    obtain ⟨d, hd, -⟩ := ht.forms _ c hc
    have hlt : F.start.size - 1 < t.size := Store.lt_size_of_get? hd
    omega

/-- A container of the start is there, and is what it was. -/
theorem container? (ht : F.Intact t) (hc : F.start.container? v = some c) :
    ∃ d, t.container? v = some d ∧ c.SameForm d := by
  cases v with
  | scalar a => cases hc
  | ref h => exact ht.forms h c hc

/-- What can be edited in place at the start still can. -/
theorem isMutable (ht : F.Intact t) (hv : F.start.isMutable v = true) : t.isMutable v = true := by
  obtain ⟨c, hc, hm⟩ := Store.isMutable_iff.mp hv
  obtain ⟨d, hd, hform⟩ := ht.container? hc
  exact Store.isMutable_iff.mpr ⟨d, hd, hform.isMutable.symm.trans hm⟩

/-- The parts of a value from outside are from outside. -/
theorem parts (ht : F.Intact t) (hv : F.Free v) (hc : t.container? v = some c) :
    ∀ x ∈ c.parts, F.Free x := by
  cases v with
  | scalar a => cases hc
  | ref h => exact ht.secluded h c (free_ref.mp hv) hc

theorem not_kept_next (ht : F.Intact t) : ¬F.kept t.next := by
  intro hk
  have hlt : t.size < F.start.size := F.lt_of_kept _ hk
  have hle := ht.size_le
  omega

/-- A new container with parts from outside spares what is kept. -/
theorem push (ht : F.Intact t) (hc : ∀ x ∈ c.parts, F.Free x) : F.Intact (t.push c) where
  same h hk := by
    have hlt : h.index < t.size := Nat.lt_of_lt_of_le (F.lt_of_kept h hk) ht.size_le
    rw [Store.get?_push_of_lt c hlt, ht.same h hk]
  forms h c₀ hc₀ := by
    obtain ⟨d, hd, hform⟩ := ht.forms h c₀ hc₀
    exact ⟨d, Store.GrowsTo.push t c h d hd, hform⟩
  secluded h d hk hd := by
    by_cases hnext : h = t.next
    · subst hnext
      rw [Store.get?_push_next] at hd
      cases hd
      exact hc
    · have hlt : h.index < t.size := by
        have hlt := Store.lt_size_of_get? hd
        have hne : h.index ≠ t.size := fun he => hnext (by cases h; cases he; rfl)
        rw [Store.size_push] at hlt
        omega
      rw [Store.get?_push_of_lt c hlt] at hd
      exact ht.secluded h d hk hd

/-- A write to a container from outside spares what is kept. -/
theorem set (ht : F.Intact t) (hk : ¬F.kept h) (hc : t.get? h = some c) (hform : c.SameForm d)
    (hd : ∀ x ∈ d.parts, F.Free x) : F.Intact (t.set h d) where
  same g hg := by
    have hne : g ≠ h := fun he => hk (he ▸ hg)
    rw [Store.get?_set_ne d hne, ht.same g hg]
  forms g c₀ hc₀ := by
    obtain ⟨c₁, hc₁, hform₁⟩ := ht.forms g c₀ hc₀
    by_cases hg : g = h
    · subst hg
      rw [hc] at hc₁
      cases hc₁
      exact ⟨d, Store.get?_set_self d (Store.lt_size_of_get? hc), hform₁.trans hform⟩
    · exact ⟨c₁, by rw [Store.get?_set_ne d hg, hc₁], hform₁⟩
  secluded g c₁ hg hc₁ := by
    by_cases he : g = h
    · subst he
      rw [Store.get?_set_self d (Store.lt_size_of_get? hc)] at hc₁
      cases hc₁
      exact hd
    · rw [Store.get?_set_ne d he] at hc₁
      exact ht.secluded g c₁ hg hc₁

/-! #### Views -/

theorem elements (ht : F.Intact t) (hv : F.Free v) : ∀ x ∈ t.elements v, F.Free x := by
  cases v with
  | scalar a =>
    intro x hx
    -- a character or the number of a byte
    cases a with
    | str text =>
      obtain ⟨c, -, rfl⟩ := List.mem_map.mp hx
      exact free_scalar _
    | bytes bs =>
      obtain ⟨b, -, rfl⟩ := List.mem_map.mp hx
      exact free_scalar _
    | _ => cases hx
  | ref h =>
    intro x hx
    simp only [Store.elements] at hx
    cases hc : t.get? h with
    | none =>
      rw [hc] at hx
      cases hx
    | some c =>
      have hparts := ht.secluded h c (free_ref.mp hv) hc
      rw [hc] at hx
      cases c with
      | list xs => exact hparts x hx
      | tuple xs => exact hparts x hx
      | set ms => exact hparts x hx
      | frozenset ms => exact hparts x hx
      | dict es => cases hx
      | object name as frozen => cases hx

theorem entries (ht : F.Intact t) (hv : F.Free v) :
    ∀ e ∈ t.entries v, F.Free e.1 ∧ F.Free e.2 := by
  unfold Store.entries
  split
  · rename_i es hc
    exact Container.forall_parts_dict.mp (ht.parts hv hc)
  · rename_i name attrs frozen hc
    intro e he
    obtain ⟨a, ha, rfl⟩ := List.mem_map.mp he
    exact ⟨free_scalar _, Container.forall_parts_object.mp (ht.parts hv hc) a ha⟩
  · exact List.forall_mem_nil _

theorem dictGet? (ht : F.Intact t) (hv : F.Free v) {k : Value} (hx : t.dictGet? v k = some x) :
    F.Free x := by
  unfold Store.dictGet? at hx
  split at hx
  · rename_i es hc
    obtain ⟨e, he, rfl⟩ := Option.map_eq_some_iff.mp hx
    exact (Container.forall_parts_dict.mp (ht.parts hv hc) e (List.mem_of_find?_eq_some he)).2
  · cases hx

theorem attrGet? (ht : F.Intact t) (hv : F.Free v) {name : String}
    (hx : t.attrGet? v name = some x) : F.Free x := by
  unfold Store.attrGet? at hx
  split at hx
  · rename_i type attrs frozen hc
    obtain ⟨before, after, rfl, -⟩ := List.lookup_eq_some_iff.mp hx
    exact Container.forall_parts_object.mp (ht.parts hv hc) (name, x) (by simp)
  · cases hx

theorem elementAt? (ht : F.Intact t) (hv : F.Free v) {i : Int} (hx : t.elementAt? v i = some x) :
    F.Free x := by
  unfold Store.elementAt? at hx
  split at hx
  · obtain ⟨j, -, hx⟩ := Option.bind_eq_some_iff.mp hx
    exact ht.elements hv x (List.mem_of_getElem? hx)
  · cases hx

/-- The numbered elements, whose positions are no containers. -/
theorem numbered (ht : F.Intact t) (hv : F.Free v) :
    ∀ e ∈ t.numbered v, F.Free e.1 ∧ F.Free e.2 := by
  intro e he
  obtain ⟨⟨x, i⟩, hx, rfl⟩ := List.mem_map.mp he
  exact ⟨free_scalar _, ht.elements hv x (List.fst_mem_of_mem_zipIdx hx)⟩

end Intact

/-! ### Computations that cannot fail -/

variable (F) in
/-- Done on one store, the computation spares what is kept, and its answer has a property. -/
def SparesAt (t : Store) (P : α → Prop) (x : StoreM α) : Prop :=
  F.Intact (x t).2 ∧ P (x t).1

variable (F) in
/-- The computation spares what is kept, and its answer has a property. -/
def SparesM (P : α → Prop) (x : StoreM α) : Prop :=
  ∀ t, F.Intact t → F.SparesAt t P x

variable (F) in
/-- The computation spares what is kept, and if it succeeds its answer has a property. -/
def Spares (P : α → Prop) (x : ExceptT ε StoreM α) : Prop :=
  ∀ t, F.Intact t → F.Intact (x t).2 ∧ ∀ a, (x t).1 = .ok a → P a

namespace SparesM

variable {P : α → Prop} {Q : β → Prop}

theorem pure {a : α} (h : P a) : F.SparesM P (pure a) := fun _ ht => ⟨ht, h⟩

/-- What depends on the store is done on this store. -/
theorem get_bind {f : Store → StoreM α} (hf : ∀ t, F.Intact t → F.SparesAt t P (f t)) :
    F.SparesM P (get >>= f) := fun t ht => hf t ht

theorem bind {x : StoreM α} {f : α → StoreM β} (hx : F.SparesM P x)
    (hf : ∀ a, P a → F.SparesM Q (f a)) : F.SparesM Q (x >>= f) := fun t ht => by
  obtain ⟨ht', hP⟩ := hx t ht
  exact hf _ hP _ ht'

theorem get : F.SparesM F.Intact get := fun _ ht => ⟨ht, ht⟩

theorem mono {P' : α → Prop} {x : StoreM α} (hx : F.SparesM P x) (h : ∀ a, P a → P' a) :
    F.SparesM P' x := fun t ht => ⟨(hx t ht).1, h _ (hx t ht).2⟩

theorem mapM {f : α → StoreM β} : ∀ {xs : List α}, (∀ a ∈ xs, F.SparesM Q (f a)) →
    F.SparesM (fun ys => ∀ y ∈ ys, Q y) (xs.mapM f)
  | [], _ => .pure (List.forall_mem_nil _)
  | x :: xs, hf => by
    obtain ⟨hx, hxs⟩ := List.forall_mem_cons.mp hf
    rw [List.mapM_cons]
    exact hx.bind fun y hy => (mapM hxs).bind fun ys hys =>
      .pure (List.forall_mem_cons.mpr ⟨hy, hys⟩)

theorem foldlM {f : β → α → StoreM β} : ∀ {xs : List α} {b : β}, Q b →
    (∀ b a, a ∈ xs → Q b → F.SparesM Q (f b a)) → F.SparesM Q (xs.foldlM f b)
  | [], _, hb, _ => .pure hb
  | x :: xs, b, hb, hf => by
    rw [List.foldlM_cons]
    exact (hf b x (List.mem_cons_self ..) hb).bind fun b' hb' =>
      foldlM hb' fun b a ha => hf b a (List.mem_cons_of_mem _ ha)

end SparesM

/-! ### Computations that may fail -/

namespace Spares

variable {P : α → Prop} {Q : β → Prop}

theorem pure {a : α} (h : P a) : F.Spares P (pure a : ExceptT ε StoreM α) :=
  fun _ ht => ⟨ht, by rintro b ⟨⟩; exact h⟩

theorem throw (e : ε) : F.Spares P (throw e : ExceptT ε StoreM α) :=
  fun _ ht => ⟨ht, by rintro b ⟨⟩⟩

theorem get : F.Spares F.Intact (getThe Store : ExceptT ε StoreM Store) :=
  fun _ ht => ⟨ht, by rintro b ⟨⟩; exact ht⟩

theorem store : F.Spares F.Intact store := get

theorem lift {x : StoreM α} (hx : F.SparesM P x) : F.Spares P (liftM x : ExceptT ε StoreM α) :=
  fun t ht => ⟨(hx t ht).1, by rintro b ⟨⟩; exact (hx t ht).2⟩

theorem bind {x : ExceptT ε StoreM α} {f : α → ExceptT ε StoreM β} (hx : F.Spares P x)
    (hf : ∀ a, P a → F.Spares Q (f a)) : F.Spares Q (x >>= f) := fun t ht => by
  obtain ⟨ht', hP⟩ := hx t ht
  have hrest (r : Except ε α) (hr : ∀ a, r = .ok a → P a) : F.Spares Q (ExceptT.bindCont f r) := by
    cases r with
    | ok a => exact hf a (hr a rfl)
    | error e => exact .throw e
  exact hrest (x t).1 hP (x t).2 ht'

theorem mono {P' : α → Prop} {x : ExceptT ε StoreM α} (hx : F.Spares P x) (h : ∀ a, P a → P' a) :
    F.Spares P' x := fun t ht => ⟨(hx t ht).1, fun a ha => h a ((hx t ht).2 a ha)⟩

theorem map {x : ExceptT ε StoreM α} {f : α → β} (hx : F.Spares P x) (h : ∀ a, P a → Q (f a)) :
    F.Spares Q (f <$> x) := by
  rw [map_eq_pure_bind]
  exact hx.bind fun a ha => .pure (h a ha)

theorem mapM {f : α → ExceptT ε StoreM β} : ∀ {xs : List α}, (∀ a ∈ xs, F.Spares Q (f a)) →
    F.Spares (fun ys => ∀ y ∈ ys, Q y) (xs.mapM f)
  | [], _ => .pure (List.forall_mem_nil _)
  | x :: xs, hf => by
    obtain ⟨hx, hxs⟩ := List.forall_mem_cons.mp hf
    rw [List.mapM_cons]
    exact hx.bind fun y hy => (mapM hxs).bind fun ys hys =>
      .pure (List.forall_mem_cons.mpr ⟨hy, hys⟩)

theorem foldlM {f : β → α → ExceptT ε StoreM β} : ∀ {xs : List α} {b : β}, Q b →
    (∀ b a, a ∈ xs → Q b → F.Spares Q (f b a)) → F.Spares Q (xs.foldlM f b)
  | [], _, hb, _ => .pure hb
  | x :: xs, b, hb, hf => by
    rw [List.foldlM_cons]
    exact (hf b x (List.mem_cons_self ..) hb).bind fun b' hb' =>
      foldlM hb' fun b a ha => hf b a (List.mem_cons_of_mem _ ha)

theorem filterM {p : α → Eval Bool} : ∀ {xs : List α},
    (∀ a ∈ xs, F.Spares (fun _ => True) (p a)) → F.Spares (fun ys => ys ⊆ xs) (xs.filterM p)
  | [], _ => .pure (List.Subset.refl [])
  | x :: xs, hp => by
    obtain ⟨hx, hxs⟩ := List.forall_mem_cons.mp hp
    rw [Eval.filterM_cons]
    refine hx.bind fun keep _ => (filterM hxs).bind fun ys hys => .pure ?_
    split
    · exact List.cons_subset_cons x hys
    · exact List.subset_cons_of_subset x hys

end Spares

/-! ### Creating containers -/

theorem alloc_spares (c : Container) (hc : ∀ x ∈ c.parts, F.Free x) :
    F.SparesM F.Free (alloc c) :=
  fun _ ht => ⟨ht.push hc, free_ref.mpr ht.not_kept_next⟩

theorem withElements_spares (like : Value) {items : List Value} (hitems : ∀ x ∈ items, F.Free x) :
    F.SparesM F.Free (withElements like items) := by
  intro t ht
  have hmembers : ∀ x ∈ t.membersOf items, F.Free x :=
    fun x hx => hitems x (Store.membersOf_subset t items hx)
  unfold SparesAt withElements
  split
  · exact ⟨ht, free_scalar _⟩
  · exact ⟨ht, free_scalar _⟩
  · exact alloc_spares (.tuple items) hitems t ht
  · exact alloc_spares (.set (t.membersOf items)) hmembers t ht
  · exact alloc_spares (.frozenset (t.membersOf items)) hmembers t ht
  · exact alloc_spares (.list items) hitems t ht

end Fence

end DottedPath
